import GraphQLClient.Selection.Record
import Mathlib.Logic.Relation

/-!
# The unfolding of records

Records are the vertices of a graph with an edge for every member that is selected and whose type is
a record behind any number of wrappers. Where no record comes back to itself the selection of a
record exists, and it is the unfolding of the graph. Wrappers leave no trace in it.
-/
namespace GraphQLClient

namespace MemberType

variable {name : String} {type : MemberType}

def behind (wrappers : List Wrapper) (inner : MemberType) : MemberType :=
  wrappers.foldr .wrapped inner

/-- Without its wrappers the type is the record of that name. -/
def LeadsTo (type : MemberType) (name : String) : Prop :=
  ∃ wrappers, type = behind wrappers (.record name)

theorem core_behind (wrappers : List Wrapper) (inner : MemberType) :
    (behind wrappers inner).core = inner.core := by
  induction wrappers with
  | nil => rfl
  | cons wrapper wrappers ih => exact ih

theorem core_core (type : MemberType) : type.core.core = type.core := by
  induction type with
  | scalar => rfl
  | map => rfl
  | record name => rfl
  | wrapped wrapper inner ih => exact ih

theorem eq_behind_core (type : MemberType) : ∃ wrappers, type = behind wrappers type.core := by
  induction type with
  | scalar => exact ⟨[], rfl⟩
  | map => exact ⟨[], rfl⟩
  | record name => exact ⟨[], rfl⟩
  | wrapped wrapper inner ih =>
    obtain ⟨wrappers, hinner⟩ := ih
    exact ⟨wrapper :: wrappers, congrArg (wrapped wrapper) hinner⟩

theorem core_eq_record_iff : type.core = .record name ↔ type.LeadsTo name := by
  constructor
  · intro h
    obtain ⟨wrappers, htype⟩ := type.eq_behind_core
    rw [h] at htype
    exact ⟨wrappers, htype⟩
  · rintro ⟨wrappers, rfl⟩
    exact core_behind wrappers (.record name)

end MemberType

namespace Member

variable {rule : RenameRule} {m : Member} {name : String}

/-- The node of the member holds the selection of the record. -/
def Nests (m : Member) (name : String) : Prop := m.leaf = false ∧ m.type.LeadsTo name

/-- A member is selected under the name it is given, or else under what the rule makes of its own.
The mark of a raw identifier is no part of a name. -/
inductive Keyed (rule : RenameRule) (m : Member) : String → Prop where
  | renamed {key : String} (hrename : m.rename = some key) : Keyed rule m key
  | raw {plain : String} (hrename : m.rename = none) (hname : m.name = "r#" ++ plain) :
      Keyed rule m (rule.apply plain)
  | plain (hrename : m.rename = none) (hname : ∀ plain, m.name ≠ "r#" ++ plain) :
      Keyed rule m (rule.apply m.name)

theorem plainName_raw {plain : String} (h : m.name = "r#" ++ plain) : m.plainName = plain := by
  rw [plainName, h, String.toList_append, if_pos]
  · exact String.ofList_toList
  · rfl

theorem plainName_plain (h : ∀ plain, m.name ≠ "r#" ++ plain) : m.plainName = m.name := by
  rw [plainName, if_neg]
  intro hprefix
  obtain ⟨rest, hrest⟩ := List.isPrefixOf_iff_prefix.mp hprefix
  apply h (String.ofList rest)
  apply String.toList_inj.mp
  rw [String.toList_append]
  exact hrest.symm.trans (congrArg ("r#".toList ++ ·) String.toList_ofList.symm)

theorem key_keyed (rule : RenameRule) (m : Member) : m.Keyed rule (m.key rule) := by
  unfold key
  cases hrename : m.rename with
  | some text => exact .renamed hrename
  | none =>
    by_cases hraw : ∃ plain, m.name = "r#" ++ plain
    · obtain ⟨plain, hname⟩ := hraw
      rw [Option.getD_none, plainName_raw hname]
      exact .raw hrename hname
    · have hplain : ∀ plain, m.name ≠ "r#" ++ plain := fun plain hname => hraw ⟨plain, hname⟩
      rw [Option.getD_none, plainName_plain hplain]
      exact .plain hrename hplain

end Member

namespace Record

variable {records : List Record} {free : List String} {rule : RenameRule} {m : Member}
  {members rest : List Member}
  {root name : String}

theorem nests_iff :
    (if m.leaf then .scalar else m.type.core : MemberType) = .record name ↔ m.Nests name := by
  rw [Member.Nests, ← MemberType.core_eq_record_iff]
  cases m.leaf <;> simp

@[simp] theorem unfoldMembers_nil : unfoldMembers records free rule [] = some [] := by
  rw [unfoldMembers]

theorem unfoldMembers_skip (hskip : m.skip = true) :
    unfoldMembers records free rule (m :: rest) = unfoldMembers records free rule rest := by
  rw [unfoldMembers, if_pos hskip]

theorem unfoldMembers_leaf (hskip : m.skip = false) (hleaf : ∀ name, ¬ m.Nests name) :
    unfoldMembers records free rule (m :: rest) = do
      let nodes ← unfoldMembers records free rule rest
      return .leaf (m.key rule) none :: nodes := by
  rw [unfoldMembers, if_neg (by simp [hskip])]
  split
  · next name hname => exact absurd (nests_iff.mp hname) (hleaf name)
  · rfl

theorem unfoldMembers_block (hskip : m.skip = false) (hnests : m.Nests name) :
    unfoldMembers records free rule (m :: rest) =
      if name ∈ free then do
        let record ← records.find? (·.name == name)
        let children ← unfoldMembers records (free.erase name) record.rule record.members
        let nodes ← unfoldMembers records free rule rest
        return .block (m.key rule) none children :: nodes
      else none := by
  have hbehind := nests_iff.mpr hnests
  rw [unfoldMembers, if_neg (by simp [hskip])]
  split
  · next other hother =>
    cases hother.symm.trans hbehind
    rfl
  · next hother => exact absurd hbehind (hother name)

/-- Induction along the unfolding, with cases by what the first member nests. -/
@[elab_as_elim]
theorem unfoldMembers_induction {motive : List String → RenameRule → List Member → Prop}
    (free : List String) (rule : RenameRule) (members : List Member)
    (nil : ∀ free rule, motive free rule [])
    (skipped : ∀ free rule m rest, m.skip = true → motive free rule rest →
      motive free rule (m :: rest))
    (leaf : ∀ free rule m rest, m.skip = false → (∀ name, ¬ m.Nests name) → motive free rule rest →
      motive free rule (m :: rest))
    (block : ∀ free rule m rest name, m.skip = false → m.Nests name → name ∈ free →
      (∀ record : Record, motive (free.erase name) record.rule record.members) →
      motive free rule rest →
      motive free rule (m :: rest))
    (passed : ∀ free rule m rest name, m.skip = false → m.Nests name → name ∉ free →
      motive free rule (m :: rest)) :
    motive free rule members := by
  induction free, rule, members using unfoldMembers.induct with
  | case1 free rule => exact nil free rule
  | case2 free rule m rest hskip ih => exact skipped free rule m rest hskip ih
  | case3 free rule m rest hskip name hname hmem ihchild ihrest =>
    exact block free rule m rest name (eq_false_of_ne_true hskip)
      (nests_iff.mp hname) hmem ihchild ihrest
  | case4 free rule m rest hskip name hname hmem =>
    exact passed free rule m rest name (eq_false_of_ne_true hskip) (nests_iff.mp hname) hmem
  | case5 free rule m rest hskip hname ih =>
    exact leaf free rule m rest (eq_false_of_ne_true hskip) (fun name hnests =>
      hname name (nests_iff.mpr hnests)) ih

/-- What the selection of members is: one node for each that is not skipped, in their order, under
its key and without arguments. It holds the selection of a record if the member nests that one. -/
inductive Describes (records : List Record) : RenameRule → List Member → List Node → Prop where
  | nil {rule : RenameRule} : Describes records rule [] []
  | skipped {rule : RenameRule} {m : Member} {rest : List Member} {nodes : List Node}
      (hskip : m.skip = true)
      (hrest : Describes records rule rest nodes) : Describes records rule (m :: rest) nodes
  | leaf {rule : RenameRule} {m : Member} {rest : List Member} {nodes : List Node} {key : String}
      (hskip : m.skip = false) (hkey : m.Keyed rule key) (hleaf : ∀ name, ¬ m.Nests name)
      (hrest : Describes records rule rest nodes) :
      Describes records rule (m :: rest) (.leaf key none :: nodes)
  | block {rule : RenameRule} {m : Member} {rest : List Member} {nodes children : List Node}
      {key : String}
      {record : Record} (hskip : m.skip = false) (hkey : m.Keyed rule key)
      (hnests : m.Nests record.name)
      (hrecord : record ∈ records) (hchildren : Describes records record.rule
        record.members children)
      (hrest : Describes records rule rest nodes) :
      Describes records rule (m :: rest) (.block key none children :: nodes)

/-- Some member of the record `parent` is selected with the selection of the record `child` in
it. -/
def Contains (records : List Record) (parent child : String) : Prop :=
  ∃ record ∈ records, record.name = parent ∧ ∃ m ∈ record.members, m.skip = false ∧ m.Nests child

structure NonRecursive (records : List Record) : Prop where
  closed : ∀ parent child, Contains records parent child → ∃ record ∈ records, record.name = child
  acyclic : ∀ name, ¬ Relation.TransGen (Contains records) name name

theorem find?_of_mem (h : ∃ record ∈ records, record.name = name) :
    ∃ record ∈ records, record.name = name ∧ records.find? (·.name == name) = some record := by
  have hsome : (records.find? (·.name == name)).isSome := by
    rw [List.find?_isSome]
    simpa using h
  obtain ⟨record, hfind⟩ := Option.isSome_iff_exists.mp hsome
  exact ⟨record, List.mem_of_find?_eq_some hfind, by simpa using List.find?_some hfind, hfind⟩

theorem passed_or_eq (h : name ∉ free.erase root) : name = root ∨ name ∉ free := by
  by_cases hself : name = root
  · exact Or.inl hself
  · exact Or.inr fun hfree => h ((List.mem_erase_of_ne hself).mpr hfree)

/-- Members of a record are unfolded, with nothing left out: the records that are not free are those
on the way to theirs, so a member that nests one of them would close a cycle. -/
theorem unfoldMembers_describes (h : NonRecursive records) {parent : Record}
    (hparent : parent ∈ records) (hmembers : ∀ m ∈ members, m ∈ parent.members)
    (hfree : ∀ record ∈ records, record.name ∉ free →
      Relation.ReflTransGen (Contains records) record.name parent.name) :
    ∃ nodes, unfoldMembers records free rule members = some nodes ∧
    Describes records rule members nodes := by
  induction free, rule, members using unfoldMembers_induction generalizing parent with
  | nil free rule => exact ⟨[], unfoldMembers_nil, .nil⟩
  | skipped free rule m rest hskip ih =>
    obtain ⟨nodes, hnodes, hdescribes⟩ :=
      ih hparent (fun other hother => hmembers other (List.mem_cons_of_mem m hother)) hfree
    exact ⟨nodes, (unfoldMembers_skip hskip).trans hnodes, .skipped hskip hdescribes⟩
  | leaf free rule m rest hskip hleaf ih =>
    obtain ⟨nodes, hnodes, hdescribes⟩ :=
      ih hparent (fun other hother => hmembers other (List.mem_cons_of_mem m hother)) hfree
    refine ⟨.leaf (m.key rule) none :: nodes, ?_, .leaf hskip (m.key_keyed rule) hleaf hdescribes⟩
    rw [unfoldMembers_leaf hskip hleaf, hnodes]
    rfl
  | block free rule m rest name hskip hnests hmem ihchild ihrest =>
    have hstep : Contains records parent.name name :=
      ⟨parent, hparent, rfl, m, hmembers m List.mem_cons_self, hskip, hnests⟩
    obtain ⟨record, hrecord, rfl, hfind⟩ := find?_of_mem (h.closed parent.name name hstep)
    have hinside : ∀ other ∈ records, other.name ∉ free.erase record.name →
        Relation.ReflTransGen (Contains records) other.name record.name := by
      intro other hother herased
      rcases passed_or_eq herased with hself | hpassed
      · rw [hself]
      · exact (hfree other hother hpassed).tail hstep
    obtain ⟨children, hchildren, hinner⟩ := ihchild record hrecord (fun _ hother => hother) hinside
    obtain ⟨nodes, hnodes, hdescribes⟩ :=
      ihrest hparent (fun other hother => hmembers other (List.mem_cons_of_mem m hother)) hfree
    refine ⟨.block (m.key rule) none children :: nodes, ?_, ?_⟩
    · rw [unfoldMembers_block hskip hnests, if_pos hmem, hfind, hnodes]
      exact congrArg (· >>= _) hchildren
    · exact .block hskip (m.key_keyed rule) hnests hrecord hinner hdescribes
  | passed free rule m rest name hskip hnests hmem =>
    have hstep : Contains records parent.name name :=
      ⟨parent, hparent, rfl, m, hmembers m List.mem_cons_self, hskip, hnests⟩
    obtain ⟨record, hrecord, rfl⟩ := h.closed parent.name name hstep
    exact absurd (Relation.TransGen.tail' (hfree record hrecord hmem) hstep) (h.acyclic record.name)

theorem selection?_describes (h : NonRecursive records) (hroot : root ∈ records.map Record.name) :
    ∃ record ∈ records, record.name = root ∧
      ∃ nodes, selection? records root = some nodes ∧
      Describes records record.rule record.members nodes := by
  obtain ⟨record, hrecord, rfl, hfind⟩ := find?_of_mem (List.mem_map.mp hroot)
  have hfree : ∀ other ∈ records, other.name ∉ (records.map Record.name).erase record.name →
      Relation.ReflTransGen (Contains records) other.name record.name := by
    intro other hother herased
    rcases passed_or_eq herased with hself | hpassed
    · rw [hself]
    · exact absurd (List.mem_map_of_mem hother) hpassed
  obtain ⟨nodes, hnodes, hdescribes⟩ := unfoldMembers_describes h hrecord (fun _ hmem => hmem) hfree
  refine ⟨record, hrecord, rfl, nodes, ?_, hdescribes⟩
  rw [selection?, hfind]
  exact hnodes

end Record

def Member.bare (m : Member) : Member := { m with type := m.type.core }

def Record.bare (record : Record) : Record :=
  { record with members := record.members.map Member.bare }

theorem Member.bare_nests {m : Member} {name : String} : m.bare.Nests name ↔ m.Nests name := by
  rw [Nests, Nests, bare, ← MemberType.core_eq_record_iff, ← MemberType.core_eq_record_iff,
    MemberType.core_core]

namespace Record

variable {records : List Record} {root : String}

theorem find?_bare (records : List Record) (name : String) :
    (records.map bare).find? (·.name == name) = (records.find? (·.name == name)).map bare :=
  List.find?_map

theorem unfoldMembers_bare (records : List Record) (free : List String) (rule : RenameRule)
    (members : List Member) :
    unfoldMembers (records.map bare) free rule (members.map Member.bare) =
      unfoldMembers records free rule members := by
  induction free, rule, members using unfoldMembers_induction with
  | nil free rule => rw [List.map_nil, unfoldMembers_nil, unfoldMembers_nil]
  | skipped free rule m rest hskip ih =>
    have hbare : m.bare.skip = true := hskip
    rw [List.map_cons, unfoldMembers_skip hskip, unfoldMembers_skip hbare, ih]
  | leaf free rule m rest hskip hleaf ih =>
    have hbare : m.bare.skip = false := hskip
    have hbareLeaf : ∀ name, ¬ m.bare.Nests name :=
      fun name hnests => hleaf name (Member.bare_nests.mp hnests)
    rw [List.map_cons, unfoldMembers_leaf hskip hleaf, unfoldMembers_leaf hbare hbareLeaf, ih]
    rfl
  | block free rule m rest name hskip hnests hmem ihchild ihrest =>
    have hbare : m.bare.skip = false := hskip
    rw [List.map_cons, unfoldMembers_block hskip hnests,
      unfoldMembers_block hbare (Member.bare_nests.mpr hnests), if_pos hmem, if_pos hmem,
      find?_bare, ihrest]
    cases records.find? (·.name == name) with
    | none => rfl
    | some record => exact congrArg (· >>= _) (ihchild record)
  | passed free rule m rest name hskip hnests hmem =>
    have hbare : m.bare.skip = false := hskip
    rw [List.map_cons, unfoldMembers_block hskip hnests,
      unfoldMembers_block hbare (Member.bare_nests.mpr hnests), if_neg hmem, if_neg hmem]

theorem selection?_bare (records : List Record) (root : String) :
    selection? (records.map bare) root = selection? records root := by
  have hnames : (records.map bare).map Record.name = records.map Record.name := List.map_map
  rw [selection?, selection?, find?_bare, hnames]
  cases records.find? (·.name == root) with
  | none => rfl
  | some record => exact unfoldMembers_bare records _ record.rule record.members

end Record

end GraphQLClient
