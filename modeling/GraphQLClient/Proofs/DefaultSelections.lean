import GraphQLClient.Proofs.AcceptedSelections
import GraphQLClient.Proofs.LedgerHistory

/-!
# Default selections

The selection of all fields against the check that selections of a caller go through. The check
passes it when every object type it gets to has a field, and no two fields there have the same name
but for the marker.
-/
namespace GraphQLClient

open Outcome

namespace TypeTable

variable {types : TypeTable} {expr name : String} {object : ObjectDefinition}

inductive Reaches (types : TypeTable) : String → String → Prop where
  | here {expr name : String} (h : types.RefersTo expr name) : Reaches types expr name
  | inside {expr parent declared name : String} {object : ObjectDefinition}
      {field : FieldDefinition}
      (h : types.RefersTo expr parent) (hobject : types.object? parent = some object)
      (hfield : (declared, field) ∈ object.entries) (hinner : Reaches types field.output name) :
      Reaches types expr name

def Throughout (types : TypeTable) (expr : String) (P : ObjectDefinition → Prop) : Prop :=
  ∀ name, types.Reaches expr name → ∀ object, types.object? name = some object → P object

/-- From an expression one gets to its object type, and to whatever the fields of that get to. -/
theorem reaches_object_iff (hrefers : types.RefersTo expr name)
    (hobject : types.object? name = some object) {other : String} : types.Reaches expr other ↔
      other = name ∨ ∃ entry ∈ object.entries, types.Reaches entry.2.output other := by
  constructor
  · intro h
    cases h with
    | here h => exact Or.inl (h.unique hrefers)
    | inside h hparent hfield hinner =>
      obtain rfl := h.unique hrefers
      cases hobject.symm.trans hparent
      exact Or.inr ⟨_, hfield, hinner⟩
  · rintro (rfl | ⟨⟨declared, field⟩, hfield, hinner⟩)
    · exact .here hrefers
    · exact .inside hrefers hobject hfield hinner

theorem not_reaches {location : String} {r : Resolved} (hr : types.resolve expr location = .ok r)
    (hnone : r.object? = none) (name : String) : ¬ types.Reaches expr name := by
  intro h
  cases h with
  | here h => exact not_refersTo hr hnone name h
  | inside h => exact not_refersTo hr hnone _ h

theorem throughout_of_terminal {location : String} {r : Resolved} {P : ObjectDefinition → Prop}
    (hr : types.resolve expr location = .ok r) (hnone : r.object? = none) :
    types.Throughout expr P :=
  fun name hreaches => absurd hreaches (not_reaches hr hnone name)

/-- What holds throughout holds of the object type itself, and throughout the types of its
fields. -/
theorem throughout_iff {location : String} {r : Resolved} {P : ObjectDefinition → Prop}
    (hr : types.resolve expr location = .ok r) (hname : r.object? = some name)
    (hobject : types.object? name = some object) :
    types.Throughout expr P ↔
      P object ∧ ∀ entry ∈ object.entries, types.Throughout entry.2.output P := by
  have hreaches : ∀ inner, types.Reaches expr inner ↔
      inner = name ∨ ∃ entry ∈ object.entries, types.Reaches entry.2.output inner :=
    fun inner => reaches_object_iff ((refersTo_iff hr).mpr hname) hobject
  constructor
  · intro hall
    refine ⟨hall name ((hreaches name).mpr (Or.inl rfl)) object hobject, ?_⟩
    intro entry hentry inner hinner
    exact hall inner ((hreaches inner).mpr (Or.inr ⟨entry, hentry, hinner⟩))
  · rintro ⟨hself, hfields⟩ inner hinner innerObject hinnerObject
    rcases (hreaches inner).mp hinner with rfl | ⟨entry, hentry, hinside⟩
    · cases hobject.symm.trans hinnerObject
      exact hself
    · exact hfields entry hentry inner hinside innerObject hinnerObject

end TypeTable

def ObjectDefinition.HasFields (object : ObjectDefinition) : Prop := object.entries ≠ []

/-- The markers of optional fields do not count. -/
def ObjectDefinition.HasDistinctNames (object : ObjectDefinition) : Prop :=
  (object.entries.map fun entry => Text.baseName entry.1).Nodup

theorem Text.baseName_of_isName {name : String} (h : Text.isName name = true) :
    Text.baseName name = name := by
  have hmarker : name.toList.getLast? ≠ some '?' := by
    intro hlast
    have hchar := Text.isNameChar_of_isNameList h '?' (List.mem_of_getLast? hlast)
    cases hchar
  rw [Text.baseName, Text.splitOptional, if_neg hmarker]

theorem ObjectDefinition.field?_of_mem {object : ObjectDefinition} {declared : String}
    {field : FieldDefinition} (hdistinct : object.HasDistinctNames)
    (hname : Text.isName (Text.baseName declared) = true)
    (hmem : (declared, field) ∈ object.entries) :
    object.field? (Text.baseName declared) = some field := by
  have hsame : ∀ other ∈ object.entries, Text.baseName other.1 = Text.baseName declared →
      other = (declared, field) :=
    fun other hother heq => List.inj_on_of_nodup_map hdistinct hother hmem heq
  unfold ObjectDefinition.field?
  cases hget : object.get? (Text.baseName declared) with
  | some found =>
    have hexact := hsame _ (OrderedMap.get?_eq_some_iff.mp hget) (Text.baseName_of_isName hname)
    exact congrArg some (Prod.mk.inj hexact).2
  | none =>
    cases hfind : object.entries.find? fun entry =>
      Text.baseName entry.1 == Text.baseName declared with
    | none => simpa using List.find?_eq_none.mp hfind _ hmem
    | some found =>
      have hbase : Text.baseName found.1 = Text.baseName declared := by
        simpa using List.find?_some hfind
      exact congrArg (some ∘ Prod.snd) (hsame found (List.mem_of_find?_eq_some hfind) hbase)

namespace SchemaCheck

variable {types : TypeTable} {sections : OperationSections}

theorem isName_of_object? (h : errors types sections = []) {typeName : String}
    {object : ObjectDefinition} (hobject : types.object? typeName = some object)
    {entry : String × FieldDefinition} (hentry : entry ∈ object.entries) :
    Text.isName (Text.baseName entry.1) = true := by
  have hget := OrderedMap.get?_eq_some_iff.mp (TypeTable.get?_of_object? hobject)
  have hnone : typeErrors types typeName (.object object) = [] := (errors_eq_nil h).1 _ hget
  simp only [typeErrors, definitionErrors, List.append_eq_nil_iff, List.flatMap_eq_nil_iff] at hnone
  exact (names_of_fieldErrors (hnone.2 entry hentry)).1

end SchemaCheck

namespace SelectionCheck

variable {types : TypeTable} {typeName key : String} {field : FieldDefinition}

theorem checkArguments_none (h : field.requiresArguments = false) :
    checkArguments typeName key none field = .ok () := by
  unfold FieldDefinition.requiresArguments at h
  unfold checkArguments
  cases hinput : field.input with
  | none => rfl
  | some input =>
    rw [hinput] at h
    have hrequired : InputDefinition.requiredNames input = [] := by simpa using h
    simp [argumentEntries, Entries.keys, hrequired]

theorem fieldOf_of_mem {object : ObjectDefinition} {entry : String × FieldDefinition}
    (hobject : types.object? typeName = some object) (hdistinct : object.HasDistinctNames)
    (hname : Text.isName (Text.baseName entry.1) = true) (hentry : entry ∈ object.entries) :
    fieldOf types typeName (Text.baseName entry.1) = .ok entry.2 := by
  have hfield := ObjectDefinition.field?_of_mem hdistinct hname hentry
  simp only [fieldOf, hobject, hfield]

/-- Nodes are accepted for an object if there are some, and if they are accepted as fields of it. -/
theorem checkSelection_object_iff {parent expr location child : String} {r : Resolved}
    (hr : types.resolve expr location = .ok r) (hchild : r.object? = some child)
    (nodes : List Node) :
    types.checkSelection parent key expr nodes = .ok () ↔
      nodes ≠ [] ∧ checkNodes types child nodes = .ok () := by
  have hthere := TypeTable.resolve_relocate hr (SchemaCheck.fieldLocation parent key)
  cases nodes with
  | nil =>
    simp [TypeTable.checkSelection, selectedObject, hthere, hchild, bind,
      Except.bind, throw, throwThe, MonadExceptOf.throw]
  | cons node rest =>
    simp [TypeTable.checkSelection, selectedObject, hthere, hchild, bind,
      Except.bind, pure, Except.pure]

theorem checkSelection_terminal {parent expr location : String} {r : Resolved}
    (hr : types.resolve expr location = .ok r) (hnone : r.object? = none) :
    types.checkSelection parent key expr [] = .ok () := by
  have hthere := TypeTable.resolve_relocate hr (SchemaCheck.fieldLocation parent key)
  simp [TypeTable.checkSelection, selectedObject, hthere, hnone, bind,
    Except.bind, pure, Except.pure]

section Found

variable (hfield : fieldOf types typeName key = .ok field)
  (harguments : field.requiresArguments = false)

include hfield harguments

theorem checkNode_leaf {location : String} {r : Resolved}
    (hr : types.resolve field.output location = .ok r) (hnone : r.object? = none) :
    checkNode types typeName (.leaf key none) = .ok () := by
  have hthere := TypeTable.resolve_relocate hr (SchemaCheck.fieldLocation typeName key)
  simp [checkNode, hfield, checkArguments_none harguments, selectedObject, hthere, hnone, bind,
    Except.bind, pure, Except.pure]

theorem checkNode_children (children : List Node) :
    checkNode types typeName (.block key none children) =
      types.checkSelection typeName key field.output children := by
  have hnone : checkArguments typeName key none field = .ok () := checkArguments_none harguments
  simp only [checkNode, hfield, bind, Except.bind, hnone, TypeTable.checkSelection]

end Found

end SelectionCheck

namespace TypeTable

variable {types : TypeTable} {root typeName : String} {free path : List String}
  {fields : List (String × FieldDefinition)} {nodes : List Node}

theorem unfoldFields_cons {declared : String} {field : FieldDefinition}
    (h : types.unfoldFields root free typeName path ((declared, field) :: fields) = .ok nodes) :
    field.requiresArguments = false ∧ ∃ r rest,
      types.resolve field.output (SchemaCheck.fieldLocation typeName (Text.baseName declared)) =
        .ok r ∧
      types.unfoldFields root free typeName path fields = .ok rest ∧
      ((r.object? = none ∧ nodes = .leaf (Text.baseName declared) none :: rest) ∨
        ∃ child object children, r.object? = some child ∧ child ∈ free ∧
          types.object? child = some object ∧
          types.unfoldFields root (free.erase child) child (path ++ [Text.baseName declared])
            object.entries = .ok children ∧
          nodes = .block (Text.baseName declared) none children :: rest) := by
  rw [unfoldFields] at h
  split_ifs at h with hrequires
  · cases h
  refine ⟨Bool.eq_false_iff.mpr hrequires, ?_⟩
  obtain ⟨r, hr, h⟩ := bind_eq_ok.mp h
  cases hchild : r.object? with
  | none =>
    simp only [hchild, bind_eq_ok, pure_eq_ok] at h
    obtain ⟨rest, hrest, rfl⟩ := h
    exact ⟨r, rest, hr, hrest, Or.inl ⟨hchild, rfl⟩⟩
  | some child =>
    simp only [hchild] at h
    split_ifs at h with hfree
    · split at h
      · cases h
      rename_i object hobject
      simp only [bind_eq_ok, pure_eq_ok] at h
      obtain ⟨children, hchildren, rest, hrest, rfl⟩ := h
      exact ⟨r, rest, hr, hrest,
        Or.inr ⟨child, object, children, hchild, hfree, hobject, hchildren, rfl⟩⟩

section Selected

variable {declared : String} {field : FieldDefinition} {rest : List Node}

theorem unfoldFields_leaf (harguments : field.requiresArguments = false)
    (hnone : (types.resolve field.output (SchemaCheck.fieldLocation typeName
      (Text.baseName declared))).map Resolved.object? = .ok none)
    (hrest : types.unfoldFields root free typeName path fields = .ok rest) :
    types.unfoldFields root free typeName path ((declared, field) :: fields) =
      .ok (.leaf (Text.baseName declared) none :: rest) := by
  obtain ⟨r, hr, hobject⟩ := map_eq_ok.mp hnone
  simp only [unfoldFields, harguments, Bool.false_eq_true, if_false, hr, bind,
    Except.bind, hobject, hrest]
  rfl

theorem unfoldFields_block {child : String} {object : ObjectDefinition} {children : List Node}
    (harguments : field.requiresArguments = false)
    (hchild : (types.resolve field.output (SchemaCheck.fieldLocation typeName
      (Text.baseName declared))).map Resolved.object? = .ok (some child))
    (hfree : child ∈ free) (hobject : types.object? child = some object)
    (hchildren : types.unfoldFields root (free.erase child) child (path ++ [Text.baseName declared])
      object.entries = .ok children)
    (hrest : types.unfoldFields root free typeName path fields = .ok rest) :
    types.unfoldFields root free typeName path ((declared, field) :: fields) =
      .ok (.block (Text.baseName declared) none children :: rest) := by
  obtain ⟨r, hr, hresolved⟩ := map_eq_ok.mp hchild
  simp only [unfoldFields, harguments, Bool.false_eq_true, if_false, hr, bind,
    Except.bind, hresolved, dif_pos hfree, hobject, hchildren, hrest]
  rfl

theorem allFields_object {expr : String} {object : ObjectDefinition}
    (hroot : (types.resolve expr expr).map Resolved.object? = .ok (some root))
    (hobject : types.object? root = some object) :
    types.allFields expr =
      types.unfoldFields root (types.objectNames.erase root) root [] object.entries := by
  obtain ⟨r, hr, hresolved⟩ := map_eq_ok.mp hroot
  simp only [allFields, hr, bind, Except.bind, hresolved, hobject]

end Selected

/-- What a walk that succeeds does with the fields of an object type, as long as only the types in
`free` have not been passed. -/
inductive Walks (types : TypeTable) :
    List String → String → List (String × FieldDefinition) → List Node → Prop where
  | done {free : List String} {typeName : String} : Walks types free typeName [] []
  | leaf {free : List String} {typeName declared : String} {field : FieldDefinition} {r : Resolved}
      {fields : List (String × FieldDefinition)} {nodes : List Node}
      (harguments : field.requiresArguments = false)
      (hr : types.resolve field.output (SchemaCheck.fieldLocation typeName
        (Text.baseName declared)) = .ok r)
      (hnone : r.object? = none) (hrest : Walks types free typeName fields nodes) :
      Walks types free typeName ((declared, field) :: fields)
        (.leaf (Text.baseName declared) none :: nodes)
  | block {free : List String} {typeName declared child : String}
      {field : FieldDefinition} {r : Resolved}
      {object : ObjectDefinition} {fields : List (String × FieldDefinition)}
      {children nodes : List Node}
      (harguments : field.requiresArguments = false)
      (hr : types.resolve field.output (SchemaCheck.fieldLocation typeName
        (Text.baseName declared)) = .ok r)
      (hchild : r.object? = some child) (hfree : child ∈ free)
      (hobject : types.object? child = some object)
      (hchildren : Walks types (free.erase child) child object.entries children)
      (hrest : Walks types free typeName fields nodes) :
      Walks types free typeName ((declared, field) :: fields)
        (.block (Text.baseName declared) none children :: nodes)

theorem walks_of_unfoldFields (h : types.unfoldFields root free typeName path fields = .ok nodes) :
    types.Walks free typeName fields nodes := by
  induction free, typeName, path, fields using unfoldFields.induct types root
    generalizing nodes with
  | case1 =>
    rw [unfoldFields] at h
    cases h
    exact .done
  | case2 free typeName path declared field rest name hrequires =>
    obtain ⟨hnone, -⟩ := unfoldFields_cons h
    rw [hnone] at hrequires
    cases hrequires
  | case3 free typeName path declared field fields name hrequires ihrest =>
    rename_i ihchild
    obtain ⟨harguments, r, rest, hr, hrest, hnode⟩ := unfoldFields_cons h
    rcases hnode with ⟨hnone, rfl⟩ | ⟨child, object, children, hchild, hfree,
      hobject, hchildren, rfl⟩
    · exact .leaf harguments hr hnone (ihrest hrest)
    · exact .block harguments hr hchild hfree hobject (ihchild child hfree object hchildren)
        (ihrest hrest)

namespace Walks

theorem ne_nil_iff (h : types.Walks free typeName fields nodes) : nodes ≠ [] ↔ fields ≠ [] := by
  cases h <;> simp

/-- A selection of all fields is accepted if there is something to select at every depth. -/
theorem checkNodes_iff (h : types.Walks free typeName fields nodes)
    (hnamed : ∀ {name object}, types.object? name = some object →
      ∀ entry ∈ object.entries, Text.isName (Text.baseName entry.1) = true)
    (hfound : ∀ entry ∈ fields,
      SelectionCheck.fieldOf types typeName (Text.baseName entry.1) = .ok entry.2)
    (hdistinct : ∀ entry ∈ fields,
      types.Throughout entry.2.output ObjectDefinition.HasDistinctNames) :
    SelectionCheck.checkNodes types typeName nodes = .ok () ↔
      ∀ entry ∈ fields, types.Throughout entry.2.output ObjectDefinition.HasFields := by
  induction h with
  | done => simp [SelectionCheck.checkNodes]
  | leaf harguments hr hnone _ ih =>
    obtain ⟨hfield, hfound⟩ := List.forall_mem_cons.mp hfound
    have htail := ih hfound (List.forall_mem_cons.mp hdistinct).2
    have hleaf := SelectionCheck.checkNode_leaf hfield harguments hr hnone
    rw [List.forall_mem_cons, ← htail, SelectionCheck.checkNodes, hleaf]
    exact (and_iff_right (throughout_of_terminal hr hnone)).symm
  | @block free typeName declared child field r object fields children nodes harguments
      hr hchild _ hobject
      hchildren _ ihchildren ih =>
    obtain ⟨hfield, hfound⟩ := List.forall_mem_cons.mp hfound
    obtain ⟨hhead, hdistinct⟩ := List.forall_mem_cons.mp hdistinct
    obtain ⟨hnames, hinner⟩ := (throughout_iff hr hchild hobject).mp hhead
    have hchildFound : ∀ entry ∈ object.entries,
        SelectionCheck.fieldOf types child (Text.baseName entry.1) = .ok entry.2 :=
      fun entry hentry => SelectionCheck.fieldOf_of_mem hobject hnames
        (hnamed hobject entry hentry) hentry
    have hblock : SelectionCheck.checkNode types typeName
        (.block (Text.baseName declared) none children) = .ok () ↔
          types.Throughout field.output ObjectDefinition.HasFields := by
      rw [SelectionCheck.checkNode_children hfield harguments,
        SelectionCheck.checkSelection_object_iff hr hchild, throughout_iff hr hchild hobject,
        ihchildren hchildFound hinner, hchildren.ne_nil_iff]
      rfl
    rw [List.forall_mem_cons, ← ih hfound hdistinct, ← hblock,
      SelectionCheck.checkNodes, bind_eq_ok]
    constructor
    · rintro ⟨⟨⟩, hnode, hnodes⟩
      exact ⟨hnode, hnodes⟩
    · rintro ⟨hnode, hnodes⟩
      exact ⟨(), hnode, hnodes⟩

end Walks

theorem checkSelection_allFields_iff {sections : OperationSections}
    (hchecked : SchemaCheck.errors types sections = []) {expr : String}
    (hdistinct : types.Throughout expr ObjectDefinition.HasDistinctNames)
    (h : types.allFields expr = .ok nodes) (parent key : String) :
    types.checkSelection parent key expr nodes = .ok () ↔
      types.Throughout expr ObjectDefinition.HasFields := by
  have hnamed : ∀ {name object}, types.object? name = some object →
      ∀ entry ∈ object.entries, Text.isName (Text.baseName entry.1) = true :=
    fun hobject _ hentry => SchemaCheck.isName_of_object? hchecked hobject hentry
  obtain ⟨r, hr, h⟩ := bind_eq_ok.mp h
  cases hroot : r.object? with
  | none =>
    simp only [hroot] at h
    cases h
    have hcheck : types.checkSelection parent key expr [] = .ok () :=
      SelectionCheck.checkSelection_terminal hr hroot
    exact iff_of_true hcheck (throughout_of_terminal hr hroot)
  | some root =>
    obtain ⟨object, hobject⟩ := object?_of_resolve hr hroot
    simp only [hroot, hobject] at h
    obtain ⟨hnames, hinner⟩ := (throughout_iff hr hroot hobject).mp hdistinct
    have hfound : ∀ entry ∈ object.entries,
        SelectionCheck.fieldOf types root (Text.baseName entry.1) = .ok entry.2 :=
      fun entry hentry => SelectionCheck.fieldOf_of_mem hobject hnames
        (hnamed hobject entry hentry) hentry
    have hwalk := walks_of_unfoldFields h
    rw [SelectionCheck.checkSelection_object_iff hr hroot, throughout_iff hr hroot hobject,
      hwalk.checkNodes_iff hnamed hfound hinner, hwalk.ne_nil_iff]
    rfl

end TypeTable

theorem Client.select_iff {client : Client} {ledger : Ledger} {call : Call} {nodes : List Node} :
    (∃ result, client.select ledger call nodes = .ok result) ↔
      call.operation.terminal = false ∧ client.schema.types.checkSelection
        call.operation.kind.sectionName call.operation.name call.operation.returnType nodes =
          .ok () := by
  constructor
  · rintro ⟨⟨selection, ledger'⟩, hselect⟩
    obtain ⟨hterminal, hcheck, -⟩ := Client.select_ok hselect
    exact ⟨hterminal, hcheck⟩
  · rintro ⟨hterminal, hcheck⟩
    simp only [Client.select, hterminal, hcheck]
    exact ⟨_, rfl⟩

/-- Where names are distinct, the selection that a call makes by itself passes the check, and can be
made by hand, exactly when every object type it gets to has a field. -/
theorem default_selection_accepted_iff {draft : SchemaDraft} {schema : Schema}
    (hok : draft.build = .ok schema) {o : Operation} (ho : o ∈ schema.operations)
    (hdistinct : schema.types.Throughout o.returnType ObjectDefinition.HasDistinctNames)
    {nodes : List Node} (hnodes : schema.types.allFields o.returnType = .ok nodes) :
    (schema.types.checkSelection o.kind.sectionName o.name o.returnType nodes = .ok () ↔
      schema.types.Throughout o.returnType ObjectDefinition.HasFields) ∧
    ∀ (client : Client) (ledger : Ledger) (call : Call), client.schema = schema →
    call.operation = o →
      ((∃ result, client.select ledger call nodes = .ok result) ↔
        o.terminal = false ∧ schema.types.Throughout o.returnType ObjectDefinition.HasFields) := by
  have hcheck :=
    TypeTable.checkSelection_allFields_iff (SchemaDraft.build_eq_ok hok).1 hdistinct hnodes
    o.kind.sectionName o.name
  refine ⟨hcheck, ?_⟩
  rintro client ledger call rfl rfl
  rw [Client.select_iff, hcheck]

instance : DecidablePred ObjectDefinition.HasFields := fun object =>
  decidable_of_iff (object.entries.isEmpty = false) List.isEmpty_eq_false_iff

instance : DecidablePred ObjectDefinition.HasDistinctNames := fun object =>
  inferInstanceAs (Decidable (object.entries.map fun entry => Text.baseName entry.1).Nodup)

theorem TypeTable.throughout_of_all {types : TypeTable} {P : ObjectDefinition → Prop}
    [DecidablePred P]
    (h : (types.objectNames.all fun name =>
      ((types.object? name).all fun object => decide (P object))) =
      true) (expr : String) : types.Throughout expr P := by
  intro name hreaches object hobject
  have hall := List.all_eq_true.mp h name (TypeTable.mem_objectNames hobject)
  rw [hobject] at hall
  exact of_decide_eq_true hall

def shelfDraft : SchemaDraft :=
  SchemaDraft.empty.addAll [
    .ok (.type "Author" (.object (.ofList [("name?", ⟨none, "String"⟩)]))),
    .ok (.type "Book" (.object (.ofList [
      ("title", ⟨some (.ofList [("limit?", "Int")]), "String!"⟩), ("by?", ⟨none, "Author"⟩)]))),
    .ok (.type "Books" (.scalar "[Book!]" none)),
    .ok (.operation .query "shelf" ⟨none, "Books!"⟩)]

def shelfNodes : List Node := [.leaf "title" none, .block "by" none [.leaf "name" none]]

theorem shelf_unfolds : shelfDraft.types.allFields "Books!" = .ok shelfNodes := by
  have hbook : shelfDraft.types.object? "Book" = some (.ofList [
    ("title", ⟨some (.ofList [("limit?", "Int")]), "String!"⟩), ("by?", ⟨none, "Author"⟩)]) := rfl
  have hauthor : shelfDraft.types.object? "Author" = some (.ofList [("name?", ⟨none, "String"⟩)]) :=
    rfl
  rw [TypeTable.allFields_object (by decide +kernel) hbook]
  refine TypeTable.unfoldFields_leaf rfl (by decide +kernel) ?_
  refine TypeTable.unfoldFields_block rfl (by decide +kernel) (by decide +kernel) hauthor ?_ ?_
  · exact TypeTable.unfoldFields_leaf rfl (by decide +kernel) (by rw [TypeTable.unfoldFields])
  · rw [TypeTable.unfoldFields]

theorem shelf_accepted :
    ∃ schema, shelfDraft.build = .ok schema ∧ ∃ o ∈ schema.operations, o.terminal = false ∧
      schema.types.Throughout o.returnType ObjectDefinition.HasDistinctNames ∧
      schema.types.allFields o.returnType = .ok shelfNodes ∧
      schema.types.checkSelection o.kind.sectionName o.name o.returnType shelfNodes = .ok () ∧
      ∃ result, (Client.mk schema false).select .empty ⟨o, none, .ok 0⟩ shelfNodes =
        .ok result := by
  have hnone : shelfDraft.problems = [] := by decide +kernel
  have hviews : (SchemaDraft.compileAll shelfDraft.types shelfDraft.sections.toList).map
      (·.map fun o => (o.returnType, o.terminal)) = .ok [("Books!", false)] := by decide +kernel
  obtain ⟨operations, hok, o, ho, hview⟩ :=
    SchemaDraft.exists_operation hnone hviews (List.mem_singleton_self _)
  obtain ⟨hreturn, hterminal⟩ := Prod.mk.inj hview
  have hdistinct : shelfDraft.types.Throughout o.returnType ObjectDefinition.HasDistinctNames :=
    TypeTable.throughout_of_all (by decide +kernel) _
  have hfilled : shelfDraft.types.Throughout o.returnType ObjectDefinition.HasFields :=
    TypeTable.throughout_of_all (by decide +kernel) _
  have hnodes : shelfDraft.types.allFields o.returnType = .ok shelfNodes := by
    rw [hreturn]
    exact shelf_unfolds
  obtain ⟨hcheck, hselect⟩ := default_selection_accepted_iff hok ho hdistinct hnodes
  exact ⟨_, hok, o, ho, hterminal, hdistinct, hnodes, hcheck.mpr hfilled,
    (hselect _ _ _ rfl rfl).mpr ⟨hterminal, hfilled⟩⟩

def hollowDraft : SchemaDraft :=
  SchemaDraft.empty.addAll [
    .ok (.type "Ghost" (.object .empty)),
    .ok (.operation .query "ghost" ⟨none, "Ghost"⟩)]

theorem hollow_operation : ∃ operations, hollowDraft.build =
      .ok ⟨hollowDraft.types, hollowDraft.sections, operations⟩ ∧
    ∃ o ∈ operations, o.kind = .query ∧ o.name = "ghost" ∧ o.returnType = "Ghost" :=
  SchemaDraft.only_operation (by decide +kernel) (by decide +kernel)

def doubledDraft : SchemaDraft :=
  SchemaDraft.empty.addAll [
    .ok (.type "Label" (.object (.ofList [("text", ⟨none, "String"⟩)]))),
    .ok (.type "Item" (.object (.ofList [("id", ⟨none, "ID"⟩), ("id?", ⟨none, "Label"⟩)]))),
    .ok (.operation .query "item" ⟨none, "Item"⟩)]

theorem doubled_operation : ∃ operations, doubledDraft.build =
      .ok ⟨doubledDraft.types, doubledDraft.sections, operations⟩ ∧
    ∃ o ∈ operations, o.kind = .query ∧ o.name = "item" ∧ o.returnType = "Item" :=
  SchemaDraft.only_operation (by decide +kernel) (by decide +kernel)

def doubledNodes : List Node := [.leaf "id" none, .block "id" none [.leaf "text" none]]

theorem doubled_unfolds : doubledDraft.types.allFields "Item" = .ok doubledNodes := by
  have hitem : doubledDraft.types.object? "Item" =
    some (.ofList [("id", ⟨none, "ID"⟩), ("id?", ⟨none, "Label"⟩)]) := rfl
  have hlabel : doubledDraft.types.object? "Label" = some (.ofList [("text", ⟨none, "String"⟩)]) :=
    rfl
  rw [TypeTable.allFields_object (by decide +kernel) hitem]
  refine TypeTable.unfoldFields_leaf rfl (by decide +kernel) ?_
  refine TypeTable.unfoldFields_block rfl (by decide +kernel) (by decide +kernel) hlabel ?_ ?_
  · exact TypeTable.unfoldFields_leaf rfl (by decide +kernel) (by rw [TypeTable.unfoldFields])
  · rw [TypeTable.unfoldFields]

/-- Two ways in which a schema that builds refuses the selection that a call makes by itself. -/
theorem default_selection_refused :
    (∃ schema, hollowDraft.build = .ok schema ∧ ∃ o ∈ schema.operations,
      schema.types.allFields o.returnType = .ok [] ∧
      schema.types.checkSelection o.kind.sectionName o.name o.returnType [] =
        .error (.missingSelection "Query" "ghost")) ∧
    ∃ schema, doubledDraft.build = .ok schema ∧ ∃ o ∈ schema.operations, ∃ nodes,
      schema.types.allFields o.returnType = .ok nodes ∧
      schema.types.checkSelection o.kind.sectionName o.name o.returnType nodes =
        .error (.unexpectedSelection "Item" "id") := by
  constructor
  · obtain ⟨operations, hok, o, ho, hkind, hname, hreturn⟩ := hollow_operation
    have hghost : hollowDraft.types.object? "Ghost" = some .empty := rfl
    have hnodes : hollowDraft.types.allFields "Ghost" = .ok [] := by
      rw [TypeTable.allFields_object (by decide +kernel) hghost, OrderedMap.empty,
        TypeTable.unfoldFields]
    have hcheck :
        hollowDraft.types.checkSelection OperationKind.query.sectionName "ghost" "Ghost" [] =
          .error (.missingSelection "Query" "ghost") := by decide +kernel
    refine ⟨_, hok, o, ho, ?_, ?_⟩
    · rw [hreturn]
      exact hnodes
    · rw [hkind, hname, hreturn]
      exact hcheck
  · obtain ⟨operations, hok, o, ho, hkind, hname, hreturn⟩ := doubled_operation
    have hcheck : doubledDraft.types.checkSelection OperationKind.query.sectionName "item" "Item"
        doubledNodes = .error (.unexpectedSelection "Item" "id") := by decide +kernel
    refine ⟨_, hok, o, ho, doubledNodes, ?_, ?_⟩
    · rw [hreturn]
      exact doubled_unfolds
    · rw [hkind, hname, hreturn]
      exact hcheck

end GraphQLClient
