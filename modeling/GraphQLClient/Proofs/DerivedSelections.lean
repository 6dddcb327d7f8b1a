import GraphQLClient.Proofs.Outcomes
import GraphQLClient.Proofs.RecordUnfolding
import GraphQLClient.Selection.Record
import Mathlib.Data.List.Induction

/-!
# Selections of declared records

Settings that are given again take the place of earlier ones. With what they say the selection of
every record is known from the declarations, and wrappers around the types of members do not change
it.
-/
namespace GraphQLClient

open Outcome

def MemberSetting.key? : MemberSetting → Option String
  | .rename key => some key
  | _ => none

/-- What the settings of a member say. The last name counts that it is given. -/
structure MemberDeclaration.Declares (d : MemberDeclaration) (m : Member) : Prop where
  known : ∀ name, .other name ∉ d.settings
  name : m.name = d.name
  type : m.type = d.type
  rename : m.rename = (d.settings.filterMap MemberSetting.key?).getLast?
  leaf : m.leaf = true ↔ .leaf ∈ d.settings
  skip : m.skip = true ↔ .skip ∈ d.settings

structure TypeDeclaration.Declares (d : TypeDeclaration) (record : Record) : Prop where
  known : ∀ setting ∈ d.settings,
    setting ∈ [.renameAll "camelCase", .renameAll "snake_case", .renameAll "none"]
  name : record.name = d.name
  rule : record.rule = .camelCase ↔ d.settings.getLast? = some (.renameAll "camelCase")
  members : ∃ members, d.body = .named members ∧
    List.Forall₂ MemberDeclaration.Declares members record.members

section Settings

variable {name : String} {type : MemberType} {m : Member}

theorem MemberDeclaration.Declares.unique {d : MemberDeclaration} {m' : Member} (h : d.Declares m)
    (h' : d.Declares m') : m = m' := by
  have hleaf : m.leaf = m'.leaf := Bool.eq_iff_iff.mpr (h.leaf.trans h'.leaf.symm)
  have hskip : m.skip = m'.skip := Bool.eq_iff_iff.mpr (h.skip.trans h'.skip.symm)
  have hrename : m.rename = m'.rename := h.rename.trans h'.rename.symm
  have hname : m.name = m'.name := h.name.trans h'.name.symm
  have htype : m.type = m'.type := h.type.trans h'.type.symm
  cases m
  cases m'
  simp_all only

theorem MemberDeclaration.Declares.set {settings : List MemberSetting} {setting : MemberSetting}
    (h : (⟨name, type, settings⟩ : MemberDeclaration).Declares m)
    (hknown : ∀ name, setting ≠ .other name) :
    ∃ m', m.set setting = .ok m' ∧
    (⟨name, type, settings ++ [setting]⟩ : MemberDeclaration).Declares m' := by
  have hall : ∀ name, .other name ∉ settings ++ [setting] := by
    intro name hmem
    rcases List.mem_append.mp hmem with hmem | hmem
    · exact h.known name hmem
    · exact hknown name (List.mem_singleton.mp hmem).symm
  cases setting with
  | rename key =>
    refine ⟨{ m with rename := some key }, rfl, ⟨hall, h.name, h.type, ?_, ?_, ?_⟩⟩
    · simp [MemberSetting.key?]
    · simpa using h.leaf
    · simpa using h.skip
  | leaf =>
    refine ⟨{ m with leaf := true }, rfl, ⟨hall, h.name, h.type, ?_, ?_, ?_⟩⟩
    · simpa [MemberSetting.key?] using h.rename
    · simp
    · simpa using h.skip
  | skip =>
    refine ⟨{ m with skip := true }, rfl, ⟨hall, h.name, h.type, ?_, ?_, ?_⟩⟩
    · simpa [MemberSetting.key?] using h.rename
    · simpa using h.leaf
    · simp
  | other name => exact absurd rfl (hknown name)

theorem MemberDeclaration.exists_read (d : MemberDeclaration)
    (hknown : ∀ name, .other name ∉ d.settings) :
    ∃ m, d.read = .ok m ∧ d.Declares m := by
  obtain ⟨name, type, settings⟩ := d
  induction settings using List.reverseRecOn with
  | nil => exact ⟨⟨name, type, none, false, false⟩, rfl, ⟨hknown, rfl, rfl, rfl, by simp, by simp⟩⟩
  | append_singleton settings setting ih =>
    obtain ⟨m, hread, hdeclares⟩ := ih fun name hmem => hknown name (List.mem_append_left _ hmem)
    have hlast : ∀ name, setting ≠ .other name := by
      rintro name rfl
      exact hknown name (List.mem_append_right _ List.mem_cons_self)
    obtain ⟨m', hset, hdeclares'⟩ := hdeclares.set hlast
    exact ⟨m', foldlM_concat hread hset, hdeclares'⟩

theorem MemberDeclaration.declares_iff {d : MemberDeclaration}
    (hknown : ∀ name, .other name ∉ d.settings) :
    d.Declares m ↔ d.read = .ok m := by
  obtain ⟨m', hread, hdeclares⟩ := d.exists_read hknown
  constructor
  · intro h
    rw [h.unique hdeclares]
    exact hread
  · intro h
    cases h.symm.trans hread
    exact hdeclares

theorem RecordSetting.exists_readRule {settings : List RecordSetting}
    (hknown : ∀ setting ∈ settings, setting ∈
      [.renameAll "camelCase", .renameAll "snake_case", .renameAll "none"]) :
    ∃ rule, readRule settings = .ok rule ∧
      (rule = .camelCase ↔ settings.getLast? = some (.renameAll "camelCase")) := by
  induction settings using List.reverseRecOn with
  | nil => exact ⟨.asWritten, rfl, by simp⟩
  | append_singleton settings setting ih =>
    obtain ⟨earlier, hread, -⟩ :=
      ih fun setting hmem => hknown setting (List.mem_append_left _ hmem)
    have hlast : ∃ rule, setting.rule = .ok rule ∧
        (rule = .camelCase ↔ setting = .renameAll "camelCase") := by
      have hmem := hknown setting (List.mem_append_right _ List.mem_cons_self)
      simp only [List.mem_cons, List.not_mem_nil, or_false] at hmem
      rcases hmem with rfl | rfl | rfl
      · exact ⟨.camelCase, rfl, by decide⟩
      · exact ⟨.asWritten, rfl, by decide⟩
      · exact ⟨.asWritten, rfl, by decide⟩
    obtain ⟨rule, hrule, hcamel⟩ := hlast
    refine ⟨rule, foldlM_concat hread hrule, ?_⟩
    rw [List.getLast?_concat, hcamel, Option.some.injEq]

theorem TypeDeclaration.Declares.read {d : TypeDeclaration} {record : Record}
    (h : d.Declares record) :
    d.read = .ok record := by
  obtain ⟨rule, hrule, hcamel⟩ := RecordSetting.exists_readRule h.known
  obtain ⟨members, hbody, hmembers⟩ := h.members
  have hread : members.mapM MemberDeclaration.read = .ok record.members :=
    mapM_eq_ok (hmembers.imp fun _ _ hmember =>
      (MemberDeclaration.declares_iff hmember.known).mp hmember)
  have hsame : rule = record.rule := by
    have hboth := hcamel.trans h.rule.symm
    cases hrecord : record.rule with
    | camelCase => exact hboth.mpr hrecord
    | asWritten =>
      cases rule with
      | asWritten => rfl
      | camelCase => exact absurd (hboth.mp rfl) (by rw [hrecord]; nofun)
  rw [TypeDeclaration.read, hbody]
  simp only [hrule, hread, hsame, ← h.name]
  rfl

end Settings

/-- Two types differ at most in the wrappers around one and the same type. -/
def MemberType.Rewraps (type other : MemberType) : Prop :=
  ∃ inner wrappers others, type = behind wrappers inner ∧ other = behind others inner

structure MemberDeclaration.Rewraps (d other : MemberDeclaration) : Prop where
  name : d.name = other.name
  settings : d.settings = other.settings
  type : d.type.Rewraps other.type

inductive TypeBody.Rewraps : TypeBody → TypeBody → Prop where
  | named {members others : List MemberDeclaration}
      (h : List.Forall₂ MemberDeclaration.Rewraps members others) :
      Rewraps (.named members) (.named others)
  | same (body : TypeBody) : Rewraps body body

structure TypeDeclaration.Rewraps (d other : TypeDeclaration) : Prop where
  name : d.name = other.name
  settings : d.settings = other.settings
  body : d.body.Rewraps other.body

section Wrappers

def MemberDeclaration.bare (d : MemberDeclaration) : MemberDeclaration :=
  { d with type := d.type.core }

def TypeBody.bare : TypeBody → TypeBody
  | .named members => .named (members.map MemberDeclaration.bare)
  | body => body

def TypeDeclaration.bare (d : TypeDeclaration) : TypeDeclaration := { d with body := d.body.bare }

theorem map_eq_of_forall₂ {α β : Type} {R : α → α → Prop} {f : α → β}
    (hf : ∀ x y, R x y → f x = f y) {xs ys : List α} (h : List.Forall₂ R xs ys) :
    xs.map f = ys.map f := by
  induction h with
  | nil => rfl
  | cons hfirst _ ih => rw [List.map_cons, List.map_cons, hf _ _ hfirst, ih]

theorem MemberDeclaration.Rewraps.bare_eq {d other : MemberDeclaration} (h : d.Rewraps other) :
    d.bare = other.bare := by
  obtain ⟨inner, wrappers, others, htype, hother⟩ := h.type
  rw [bare, bare, h.name, h.settings, htype, hother, MemberType.core_behind, MemberType.core_behind]

theorem TypeBody.Rewraps.bare_eq {body other : TypeBody} (h : body.Rewraps other) :
    body.bare = other.bare := by
  cases h with
  | same => rfl
  | named h =>
    exact congrArg TypeBody.named (map_eq_of_forall₂ (fun _ _ hmember => hmember.bare_eq) h)

theorem TypeDeclaration.Rewraps.bare_eq {d other : TypeDeclaration} (h : d.Rewraps other) :
    d.bare = other.bare := by
  rw [bare, bare, h.name, h.settings, h.body.bare_eq]

theorem Member.set_bare (m : Member) (setting : MemberSetting) :
    m.bare.set setting = (m.set setting).map bare := by
  cases setting <;> rfl

theorem Member.foldlM_set_bare (settings : List MemberSetting) (m : Member) :
    settings.foldlM set m.bare = (settings.foldlM set m).map bare := by
  induction settings generalizing m with
  | nil => rfl
  | cons setting settings ih =>
    rw [List.foldlM_cons, List.foldlM_cons, set_bare]
    cases m.set setting with
    | error fault => rfl
    | ok next => exact ih next

theorem MemberDeclaration.read_bare (d : MemberDeclaration) :
    d.bare.read = d.read.map Member.bare :=
  Member.foldlM_set_bare d.settings ⟨d.name, d.type, none, false, false⟩

theorem TypeDeclaration.read_bare (d : TypeDeclaration) : d.bare.read = d.read.map Record.bare := by
  rw [read, read, bare]
  cases d.body with
  | alternatives => rfl
  | positional => rfl
  | named members =>
    simp only [TypeBody.bare, mapM_map_of_comm MemberDeclaration.read_bare]
    cases RecordSetting.readRule d.settings with
    | error fault => rfl
    | ok rule => cases members.mapM MemberDeclaration.read <;> rfl

theorem TypeDeclaration.selection?_bare (declarations : List TypeDeclaration) (root : String) :
    selection? (declarations.map bare) root = selection? declarations root := by
  rw [selection?, selection?, mapM_map_of_comm read_bare]
  cases declarations.mapM read with
  | error fault => rfl
  | ok records => exact congrArg Except.ok (Record.selection?_bare records root)

theorem TypeDeclaration.selection?_rewraps {declarations others : List TypeDeclaration}
    (h : List.Forall₂ Rewraps declarations others) (root : String) :
    selection? others root = selection? declarations root := by
  have hbare : declarations.map bare = others.map bare :=
    map_eq_of_forall₂ (fun _ _ hpair => hpair.bare_eq) h
  rw [← selection?_bare others, ← selection?_bare declarations, hbare]

theorem MemberDeclaration.Rewraps.refl (d : MemberDeclaration) : d.Rewraps d :=
  ⟨rfl, rfl, d.type, [], [], rfl, rfl⟩

end Wrappers

/-- Declared records of which none leads back to itself have a selection each: one node for each
member that is not skipped, in their order, under the name the member is given or else under its own
as the record's rule makes it, without arguments, and with the selection of a record in it exactly
when the member is no leaf and its type is that record behind wrappers. Other wrappers around the
types of members make no difference. -/
theorem derived_selections {declarations : List TypeDeclaration}
    {records : List Record} {root : String}
    (hdeclares : List.Forall₂ TypeDeclaration.Declares declarations records)
    (hplain : Record.NonRecursive records) (hroot : root ∈ records.map Record.name) :
    (∃ record ∈ records, record.name = root ∧
      ∃ nodes, TypeDeclaration.selection? declarations root = .ok (some nodes) ∧
        Record.Describes records record.rule record.members nodes) ∧
    ∀ others, List.Forall₂ TypeDeclaration.Rewraps declarations others →
      TypeDeclaration.selection? others root = TypeDeclaration.selection? declarations root := by
  constructor
  · obtain ⟨record, hrecord, hname, nodes, hnodes, hdescribes⟩ :=
      Record.selection?_describes hplain hroot
    refine ⟨record, hrecord, hname, nodes, ?_, hdescribes⟩
    have hread : declarations.mapM TypeDeclaration.read = .ok records :=
      mapM_eq_ok (hdeclares.imp fun _ _ hrecord => hrecord.read)
    rw [TypeDeclaration.selection?, hread]
    exact congrArg Except.ok hnodes
  · intro others hothers
    exact TypeDeclaration.selection?_rewraps hothers root

def profileDeclarations (posts : MemberType) : List TypeDeclaration := [
  ⟨"User", [.renameAll "snake_case", .renameAll "camelCase"], .named [
    ⟨"all_posts", posts, [.rename "drafts", .rename "posts"]⟩,
    ⟨"r#type", .wrapped .optional .scalar, []⟩,
    ⟨"registered_at", .scalar, []⟩,
    ⟨"last_seen", .wrapped .optional (.record "Timestamp"), [.leaf]⟩,
    ⟨"read_marks", .map, []⟩,
    ⟨"session", .record "Session", [.skip]⟩]⟩,
  ⟨"Post", [], .named [⟨"title", .scalar, []⟩, ⟨"author_name", .scalar, []⟩]⟩]

def profileRecords (posts : MemberType) : List Record := [
  ⟨"User", .camelCase, [
    ⟨"all_posts", posts, some "posts", false, false⟩,
    ⟨"r#type", .wrapped .optional .scalar, none, false, false⟩,
    ⟨"registered_at", .scalar, none, false, false⟩,
    ⟨"last_seen", .wrapped .optional (.record "Timestamp"), none, true, false⟩,
    ⟨"read_marks", .map, none, false, false⟩,
    ⟨"session", .record "Session", none, false, true⟩]⟩,
  ⟨"Post", .asWritten, [⟨"title", .scalar, none, false, false⟩,
    ⟨"author_name", .scalar, none, false, false⟩]⟩]

def profileNodes : List Node := [
  .block "posts" none [.leaf "title" none, .leaf "author_name" none],
  .leaf "type" none,
  .leaf "registeredAt" none,
  .leaf "lastSeen" none,
  .leaf "readMarks" none]

theorem profile_declares (posts : MemberType) :
    List.Forall₂ TypeDeclaration.Declares (profileDeclarations posts) (profileRecords posts) := by
  refine .cons ⟨by simp, rfl, by simp, _, rfl, ?_⟩ (.cons ⟨by simp, rfl, by simp, _, rfl, ?_⟩ .nil)
  all_goals repeat' apply List.Forall₂.cons
  all_goals first | exact .nil | exact (MemberDeclaration.declares_iff (by simp)).mpr rfl

theorem profile_contains {posts : MemberType} {parent child : String}
    (hposts : posts.core = .record "Post")
    (h : Record.Contains (profileRecords posts) parent child) :
    parent = "User" ∧ child = "Post" := by
  obtain ⟨record, hrecord, rfl, m, hm, hskip, hleaf, htype⟩ := h
  rw [← MemberType.core_eq_record_iff] at htype
  simp only [profileRecords, List.mem_cons, List.not_mem_nil, or_false] at hrecord
  rcases hrecord with rfl | rfl
  · simp only [List.mem_cons, List.not_mem_nil, or_false] at hm
    rcases hm with rfl | rfl | rfl | rfl | rfl | rfl
    · cases hposts.symm.trans htype
      exact ⟨rfl, rfl⟩
    all_goals cases hskip
    all_goals cases hleaf
    all_goals cases htype
  · simp only [List.mem_cons, List.not_mem_nil, or_false] at hm
    rcases hm with rfl | rfl
    all_goals cases htype

theorem profile_nonRecursive {posts : MemberType} (hposts : posts.core = .record "Post") :
    Record.NonRecursive (profileRecords posts) := by
  constructor
  · intro parent child h
    obtain ⟨-, rfl⟩ := profile_contains hposts h
    exact ⟨_, List.mem_cons_of_mem _ List.mem_cons_self, rfl⟩
  · intro name hcycle
    obtain ⟨next, hfirst, -⟩ := Relation.TransGen.head'_iff.mp hcycle
    obtain ⟨previous, -, hlast⟩ := Relation.TransGen.tail'_iff.mp hcycle
    obtain ⟨rfl, -⟩ := profile_contains hposts hfirst
    exact absurd (profile_contains hposts hlast).2 (by decide)

theorem profile_unfolded {posts : MemberType} (hposts : posts.core = .record "Post") :
    Record.selection? (profileRecords posts) "User" = some profileNodes := by
  simp only [Record.selection?, profileRecords, BEq.rfl, List.find?_cons_of_pos,
    List.map_cons, List.map_nil, List.erase_cons_head, Option.bind_eq_bind, Option.bind_some,
    Record.unfoldMembers, Bool.false_eq_true, ↓reduceIte, hposts, List.mem_cons, List.not_mem_nil,
    or_false, ↓reduceDIte, String.reduceBEq, not_false_eq_true, List.find?_cons_of_neg,
    MemberType.core, Option.pure_def, Option.some.injEq]
  rfl

def somePosts : MemberType := .wrapped .optional (.wrapped .list (.wrapped .box (.record "Post")))

def threePosts : MemberType := .wrapped (.fixedList 3) (.record "Post")

theorem profile_selected :
    List.Forall₂ TypeDeclaration.Declares (profileDeclarations somePosts)
      (profileRecords somePosts) ∧
    Record.NonRecursive (profileRecords somePosts) ∧
    "User" ∈ (profileRecords somePosts).map Record.name ∧
    TypeDeclaration.selection? (profileDeclarations somePosts) "User" = .ok (some profileNodes) ∧
    (∃ record ∈ profileRecords somePosts, record.name = "User" ∧
      Record.Describes (profileRecords somePosts) record.rule record.members profileNodes) ∧
    List.Forall₂ TypeDeclaration.Rewraps (profileDeclarations somePosts)
      (profileDeclarations threePosts) ∧
    TypeDeclaration.selection? (profileDeclarations threePosts) "User" =
      .ok (some profileNodes) := by
  have hdeclares := profile_declares somePosts
  have hplain : Record.NonRecursive (profileRecords somePosts) := profile_nonRecursive rfl
  have hroot : "User" ∈ (profileRecords somePosts).map Record.name := List.mem_cons_self
  obtain ⟨⟨record, hrecord, hname, nodes, hnodes, hdescribes⟩, hothers⟩ :=
    derived_selections hdeclares hplain hroot
  have hselected : TypeDeclaration.selection? (profileDeclarations somePosts) "User" =
      .ok (some profileNodes) := by
    have hread : (profileDeclarations somePosts).mapM TypeDeclaration.read =
        .ok (profileRecords somePosts) := rfl
    rw [TypeDeclaration.selection?, hread]
    exact congrArg Except.ok (profile_unfolded rfl)
  cases hnodes.symm.trans hselected
  have hrewraps : List.Forall₂ TypeDeclaration.Rewraps (profileDeclarations somePosts)
      (profileDeclarations threePosts) := by
    refine .cons ⟨rfl, rfl, .named (.cons ⟨rfl, rfl, ?_⟩ ?_)⟩ (.cons ⟨rfl, rfl, .same _⟩ .nil)
    · exact ⟨.record "Post", [.optional, .list, .box], [.fixedList 3], rfl, rfl⟩
    · exact List.forall₂_same.mpr fun d _ => .refl d
  exact ⟨hdeclares, hplain, hroot, hselected, ⟨record, hrecord, hname, hdescribes⟩, hrewraps,
    (hothers _ hrewraps).trans hselected⟩

end GraphQLClient
