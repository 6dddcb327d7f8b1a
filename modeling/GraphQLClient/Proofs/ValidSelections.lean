import GraphQLClient.Proofs.AcceptedSelections
import GraphQLClient.Proofs.InputFields

/-!
# Valid selections

What can be selected from a type, said by the declarations alone: keys that are found, arguments
that are declared and complete, and a selection below every object and nothing else. In a schema
without problems the check accepts exactly that, so it rejects nothing valid. It does not look at
how nodes stand side by side.
-/
namespace GraphQLClient

open Outcome

structure InputDefinition.Admits (input : InputDefinition) (entries : List (String × Json)) :
    Prop where
  declared : ∀ name ∈ Entries.keys entries, ∃ field ∈ fields input, field.name = name
  complete : ∀ field ∈ fields input, field.isOptional = false → field.name ∈ Entries.keys entries

inductive FieldDefinition.Takes (field : FieldDefinition) : Option Json → Prop where
  | none (hinput : field.input = none) : Takes field none
  | omitted {input : InputDefinition} (hinput : field.input = some input)
      (hadmits : InputDefinition.Admits input []) : Takes field none
  | given {input : InputDefinition} {entries : List (String × Json)}
      (hinput : field.input = some input)
      (hadmits : InputDefinition.Admits input entries) : Takes field (some (.object entries))

namespace TypeTable

def HasField (types : TypeTable) (typeName key : String) (field : FieldDefinition) : Prop :=
  ∃ object, types.object? typeName = some object ∧ ObjectDefinition.field? object key = some field

inductive Selectable (types : TypeTable) : String → Node → Prop where
  | leaf {typeName key : String} {field : FieldDefinition} {arguments : Option Json}
      (hfield : types.HasField typeName key field) (harguments : field.Takes arguments)
      (hterminal : ∀ child, ¬ types.RefersTo field.output child) :
      Selectable types typeName (.leaf key arguments)
  | hollow {typeName key : String} {field : FieldDefinition} {arguments : Option Json}
      (hfield : types.HasField typeName key field) (harguments : field.Takes arguments)
      (hterminal : ∀ child, ¬ types.RefersTo field.output child) :
      Selectable types typeName (.block key arguments [])
  | block {typeName key child : String} {field : FieldDefinition} {arguments : Option Json}
      {children : List Node} (hfield : types.HasField typeName key field)
      (harguments : field.Takes arguments) (hchild : types.RefersTo field.output child)
      (hne : children ≠ []) (hchildren : ∀ node ∈ children, Selectable types child node) :
      Selectable types typeName (.block key arguments children)

inductive Selects (types : TypeTable) (expr : String) : List Node → Prop where
  | object {root : String} {nodes : List Node} (hroot : types.RefersTo expr root) (hne : nodes ≠ [])
      (hnodes : ∀ node ∈ nodes, types.Selectable root node) : Selects types expr nodes
  | terminal (hterminal : ∀ root, ¬ types.RefersTo expr root) : Selects types expr []

end TypeTable

inductive Node.Regroups : List Node → List Node → Prop where
  | siblings {nodes others : List Node} (h : ∀ node, node ∈ nodes ↔ node ∈ others) :
      Regroups nodes others
  | inside (front back : List Node) {children others : List Node} {key : String}
      {arguments : Option Json}
      (h : Regroups children others) :
      Regroups (front ++ .block key arguments children :: back)
        (front ++ .block key arguments others :: back)
  | trans {nodes others more : List Node} (h : Regroups nodes others) (h' : Regroups others more) :
      Regroups nodes more

namespace InputDefinition

variable {input : InputDefinition} {entries : List (String × Json)}

theorem admits_iff : Admits input entries ↔
    (Entries.keys entries).find? (fun name => (field? input name).isNone) = none ∧
      (requiredNames input).find? (fun name => !(Entries.keys entries).contains name) = none := by
  have hdeclared : (Entries.keys entries).find? (fun name => (field? input name).isNone) = none ↔
      ∀ name ∈ Entries.keys entries, name ∈ names input := by
    simp [List.find?_eq_none, ← field?_isSome_iff, Option.isSome_iff_ne_none]
  have hcomplete : (requiredNames input).find? (fun name => !(Entries.keys entries).contains name) =
      none ↔
      ∀ name ∈ requiredNames input, name ∈ Entries.keys entries := by
    simp [List.find?_eq_none]
  rw [hdeclared, hcomplete]
  constructor
  · intro h
    refine ⟨fun name hname => mem_names.mpr (h.declared name hname), ?_⟩
    intro name hname
    obtain ⟨field, hfield, hrequired, rfl⟩ := mem_requiredNames.mp hname
    exact h.complete field hfield hrequired
  · rintro ⟨hall, hnone⟩
    refine ⟨fun name hname => mem_names.mp (hall name hname), ?_⟩
    intro field hfield hrequired
    exact hnone _ (mem_requiredNames.mpr ⟨field, hfield, hrequired, rfl⟩)

end InputDefinition

namespace SelectionCheck

variable {types : TypeTable} {typeName key : String} {field : FieldDefinition}

theorem fieldOf_ok_iff :
    fieldOf types typeName key = .ok field ↔ types.HasField typeName key field := by
  unfold fieldOf TypeTable.HasField
  cases types.object? typeName with
  | none => simp
  | some object => cases hfound : ObjectDefinition.field? object key <;> simp [hfound]

theorem argumentEntries_ok_iff {given : Option Json} {entries : List (String × Json)} :
    argumentEntries given = .ok entries ↔ given = none ∧ entries = [] ∨
    given = some (.object entries) := by
  unfold argumentEntries
  split
  · simp [eq_comm]
  · simp
  · rename_i other hother
    simp only [reduceCtorEq, false_and, false_or, Option.some.injEq, false_iff]
    exact hother entries

/-- For a field with an input the entries given are compared with it. -/
theorem checkArguments_input_iff {given : Option Json} {input : InputDefinition}
    (hinput : field.input = some input) : checkArguments typeName key given field = .ok () ↔
      ∃ entries, argumentEntries given = .ok entries ∧ InputDefinition.Admits input entries := by
  cases hentries : argumentEntries given with
  | error fault => simp [checkArguments, hinput, hentries]
  | ok entries =>
    simp only [checkArguments, hinput, hentries, Except.ok.injEq, exists_eq_left',
      InputDefinition.admits_iff]
    split
    · rename_i hunknown
      simp only [hunknown, reduceCtorEq, false_and]
    rename_i hdeclared
    split
    · rename_i hmissing
      simp only [hmissing, reduceCtorEq, and_false]
    · rename_i hcomplete
      exact iff_of_true rfl ⟨hdeclared, hcomplete⟩

theorem checkArguments_ok_iff {given : Option Json} :
    checkArguments typeName key given field = .ok () ↔ field.Takes given := by
  constructor
  · intro h
    cases hinput : field.input with
    | none =>
      unfold checkArguments at h
      rw [hinput] at h
      cases given with
      | none => exact .none hinput
      | some value => cases h
    | some input =>
      obtain ⟨entries, hentries, hadmits⟩ := (checkArguments_input_iff hinput).mp h
      rcases argumentEntries_ok_iff.mp hentries with ⟨rfl, rfl⟩ | rfl
      · exact .omitted hinput hadmits
      · exact .given hinput hadmits
  · intro h
    cases h with
    | none hinput =>
      unfold checkArguments
      rw [hinput]
    | omitted hinput hadmits => exact (checkArguments_input_iff hinput).mpr ⟨[], rfl, hadmits⟩
    | given hinput hadmits => exact (checkArguments_input_iff hinput).mpr ⟨_, rfl, hadmits⟩

theorem selectedObject_object {parent expr object : String} (h : types.RefersTo expr object) :
    selectedObject types parent key expr true = .ok (some object) := by
  obtain ⟨r, hr, hobject⟩ := h
  refine bind_eq_ok.mpr ⟨r, TypeTable.resolve_relocate hr _, ?_⟩
  rw [hobject]
  rfl

theorem selectedObject_terminal {parent expr : String} (hr : types.Resolves expr)
    (hterminal : ∀ object, ¬ types.RefersTo expr object) :
    selectedObject types parent key expr false = .ok none := by
  obtain ⟨r, hr⟩ := hr.resolve (SchemaCheck.fieldLocation parent key)
  refine bind_eq_ok.mpr ⟨r, hr, ?_⟩
  cases hobject : r.object? with
  | none => rfl
  | some object => exact absurd ((TypeTable.refersTo_iff hr).mpr hobject) (hterminal object)

theorem checkNodes_ok_iff {nodes : List Node} :
    checkNodes types typeName nodes = .ok () ↔ ∀ node ∈ nodes,
    checkNode types typeName node = .ok () := by
  constructor
  · exact fun h node hnode => checkNodes_mem h hnode
  · intro h
    induction nodes with
    | nil => rfl
    | cons node rest ih =>
      obtain ⟨hnode, hrest⟩ := List.forall_mem_cons.mp h
      exact bind_eq_ok.mpr ⟨(), hnode, ih hrest⟩

mutual

theorem selectable_of_checkNode {typeName : String} {node : Node}
    (h : checkNode types typeName node = .ok ()) :
    types.Selectable typeName node := by
  cases node with
  | leaf key arguments =>
    obtain ⟨field, hfield, harguments, ⟨_, _, _, hsome, _⟩ | ⟨hterminal, -⟩⟩ := checkNode_ok h
    · cases hsome
    · exact .leaf (fieldOf_ok_iff.mp hfield) (checkArguments_ok_iff.mp harguments) hterminal
  | block key arguments children =>
    obtain ⟨field, hfield, harguments, ⟨child, _, hchild, hsome, hne, hchecked⟩ |
        ⟨hterminal, hchildren⟩⟩ :=
      checkNode_ok h
    · cases hsome
      exact .block (fieldOf_ok_iff.mp hfield) (checkArguments_ok_iff.mp harguments) hchild hne
        (selectable_of_checkNodes hchecked)
    · rcases hchildren with hnone | hempty
      · cases hnone
      · cases hempty
        exact .hollow (fieldOf_ok_iff.mp hfield) (checkArguments_ok_iff.mp harguments) hterminal

theorem selectable_of_checkNodes {typeName : String} {nodes : List Node}
    (h : checkNodes types typeName nodes = .ok ()) :
    ∀ node ∈ nodes, types.Selectable typeName node := by
  cases nodes with
  | nil => exact nofun
  | cons node rest =>
    obtain ⟨_, hnode, hrest⟩ := bind_eq_ok.mp h
    exact List.forall_mem_cons.mpr ⟨selectable_of_checkNode hnode, selectable_of_checkNodes hrest⟩

end

/-- A field that refers to no object type is there for a leaf, and for a block with nothing in
it. -/
theorem checkNode_terminal (hs : types.Sound) {arguments : Option Json}
    (hfield : types.HasField typeName key field) (harguments : field.Takes arguments)
    (hterminal : ∀ child, ¬ types.RefersTo field.output child) :
    checkNode types typeName (.leaf key arguments) = .ok () ∧
      checkNode types typeName (.block key arguments []) = .ok () := by
  have hfound : fieldOf types typeName key = .ok field := fieldOf_ok_iff.mpr hfield
  have htaken : checkArguments typeName key arguments field = .ok () :=
    checkArguments_ok_iff.mpr harguments
  have hnone : selectedObject types typeName key field.output false = .ok none :=
    selectedObject_terminal (fieldOf_resolves hs hfound) hterminal
  constructor
  · exact bind_eq_ok.mpr ⟨field, hfound, bind_eq_ok.mpr ⟨(), htaken,
      bind_eq_ok.mpr ⟨none, hnone, rfl⟩⟩⟩
  · exact bind_eq_ok.mpr ⟨field, hfound, bind_eq_ok.mpr ⟨(), htaken,
      bind_eq_ok.mpr ⟨none, hnone, rfl⟩⟩⟩

/-- No valid node is rejected: whatever its field refers to resolves in a table without problems. -/
theorem checkNode_of_selectable (hs : types.Sound) {node : Node}
    (h : types.Selectable typeName node) :
    checkNode types typeName node = .ok () := by
  induction h with
  | leaf hfield harguments hterminal => exact (checkNode_terminal hs hfield harguments hterminal).1
  | hollow hfield harguments hterminal =>
    exact (checkNode_terminal hs hfield harguments hterminal).2
  | @block typeName key child field arguments children hfield harguments hchild hne _ ih =>
    have hfound : fieldOf types typeName key = .ok field := fieldOf_ok_iff.mpr hfield
    have htaken : checkArguments typeName key arguments field = .ok () :=
      checkArguments_ok_iff.mpr harguments
    have hselected : selectedObject types typeName key field.output (!children.isEmpty) =
        .ok (some child) := by
      rw [List.isEmpty_eq_false_iff.mpr hne]
      exact selectedObject_object hchild
    exact bind_eq_ok.mpr ⟨field, hfound, bind_eq_ok.mpr ⟨(), htaken,
      bind_eq_ok.mpr ⟨some child, hselected, checkNodes_ok_iff.mpr ih⟩⟩⟩

theorem checkSelection_ok_iff (hs : types.Sound) {parent expr : String} (hr : types.Resolves expr)
    {nodes : List Node} :
    types.checkSelection parent key expr nodes = .ok () ↔ types.Selects expr nodes := by
  constructor
  · intro h
    rcases checkSelection_ok h with ⟨root, hroot, hne, hchecked⟩ | ⟨hterminal, rfl⟩
    · exact .object hroot hne (selectable_of_checkNodes hchecked)
    · exact .terminal hterminal
  · intro h
    cases h with
    | object hroot hne hnodes =>
      have hchecked :=
        checkNodes_ok_iff.mpr fun node hnode => checkNode_of_selectable hs (hnodes node hnode)
      unfold TypeTable.checkSelection
      rw [List.isEmpty_eq_false_iff.mpr hne]
      exact bind_eq_ok.mpr ⟨_, selectedObject_object hroot, hchecked⟩
    | terminal hterminal => exact bind_eq_ok.mpr ⟨none, selectedObject_terminal hr hterminal, rfl⟩

end SelectionCheck

namespace Node.Regroups

variable {types : TypeTable} {nodes others : List Node}

theorem symm (h : Regroups nodes others) : Regroups others nodes := by
  induction h with
  | siblings h => exact .siblings fun node => (h node).symm
  | inside front back _ ih => exact .inside front back ih
  | trans _ _ ih ih' => exact .trans ih' ih

theorem ne_nil (h : Regroups nodes others) (hne : nodes ≠ []) : others ≠ [] := by
  induction h with
  | siblings h =>
    obtain ⟨node, hnode⟩ := List.exists_mem_of_ne_nil _ hne
    exact List.ne_nil_of_mem ((h node).mp hnode)
  | inside _ _ _ _ => simp
  | trans _ _ ih ih' => exact ih' (ih hne)

/-- A block stays selectable when its children are regrouped, and so do the nodes around it. -/
theorem selectable (h : Regroups nodes others) {typeName : String}
    (hnodes : ∀ node ∈ nodes, types.Selectable typeName node) :
    ∀ node ∈ others, types.Selectable typeName node := by
  induction h generalizing typeName with
  | siblings h => exact fun node hnode => hnodes node ((h node).mpr hnode)
  | @inside front back children others key arguments hregroups ih =>
    have hblock : types.Selectable typeName (.block key arguments others) := by
      have hmem : .block key arguments children ∈ front ++ .block key arguments children :: back :=
        List.mem_append_right front List.mem_cons_self
      cases hnodes _ hmem with
      | hollow hfield harguments hterminal =>
        have hnil : others = [] := by
          by_contra hne
          exact hregroups.symm.ne_nil hne rfl
        rw [hnil]
        exact .hollow hfield harguments hterminal
      | block hfield harguments hchild hne hchildren =>
        exact .block hfield harguments hchild (hregroups.ne_nil hne) (ih hchildren)
    intro node hnode
    rcases List.mem_append.mp hnode with hfront | hrest
    · exact hnodes node (List.mem_append_left _ hfront)
    · rcases List.mem_cons.mp hrest with rfl | hback
      · exact hblock
      · exact hnodes node (List.mem_append_right front (List.mem_cons_of_mem _ hback))
  | trans _ _ ih ih' => exact ih' (ih hnodes)

theorem selects (h : Regroups nodes others) {expr : String} (hselects : types.Selects expr nodes) :
    types.Selects expr others := by
  cases hselects with
  | object hroot hne hnodes => exact .object hroot (h.ne_nil hne) (h.selectable hnodes)
  | terminal hterminal =>
    have hnil : others = [] := by
      by_contra hne
      exact h.symm.ne_nil hne rfl
    rw [hnil]
    exact .terminal hterminal

end Node.Regroups

/-- The check accepts exactly what can be selected from the type of the operation. Whatever order
the nodes side by side stand in, and however often each of them does, they are accepted or refused
alike. -/
theorem selection_accepted_iff {draft : SchemaDraft} {schema : Schema}
    (hok : draft.build = .ok schema) {o : Operation} (ho : o ∈ schema.operations)
    (nodes : List Node) :
    (schema.types.checkSelection o.kind.sectionName o.name o.returnType nodes = .ok () ↔
      schema.types.Selects o.returnType nodes) ∧
    ∀ others, Node.Regroups nodes others →
      (schema.types.checkSelection o.kind.sectionName o.name o.returnType nodes = .ok () ↔
        schema.types.checkSelection o.kind.sectionName o.name o.returnType others = .ok ()) := by
  have hsound := Schema.sound_types hok
  have hresolves := (Schema.operation_resolves hok ho).1
  have hcheck : ∀ nodes,
      schema.types.checkSelection o.kind.sectionName o.name o.returnType nodes = .ok () ↔
      schema.types.Selects o.returnType nodes :=
    fun nodes => SelectionCheck.checkSelection_ok_iff hsound hresolves
  refine ⟨hcheck nodes, ?_⟩
  intro others hregroups
  rw [hcheck, hcheck]
  exact ⟨hregroups.selects, hregroups.symm.selects⟩

def catalogDraft : SchemaDraft :=
  SchemaDraft.empty.addAll [
    .ok (.type "Books" (.scalar "[Book!]" none)),
    .ok (.type "Book" (.object (.ofList [
      ("title", ⟨none, "String!"⟩),
      ("price", ⟨some (.ofList [("currency", "String!"), ("day?", "String")]), "Float"⟩),
      ("sequel?", ⟨none, "Book"⟩)]))),
    .ok (.operation .query "books" ⟨none, "Books!"⟩)]

def priceNode : Node := .leaf "price" (some (.object [("currency", .string "EUR")]))

def catalogNodes : List Node :=
  [.leaf "title" none, priceNode, .block "sequel" none [.leaf "title" none]]

def regroupedNodes : List Node :=
  [.block "sequel" none [.leaf "title" none, .leaf "title" none], priceNode, .leaf "title" none,
    .leaf "title" none]

theorem catalog_regroups : Node.Regroups catalogNodes regroupedNodes := by
  have houter : Node.Regroups catalogNodes
      [.block "sequel" none [.leaf "title" none], priceNode, .leaf "title" none,
        .leaf "title" none] := by
    apply Node.Regroups.siblings
    intro node
    simp only [catalogNodes, List.mem_cons, List.not_mem_nil]
    tauto
  have hinner : Node.Regroups [.leaf "title" none] [.leaf "title" none, .leaf "title" none] := by
    apply Node.Regroups.siblings
    intro node
    simp
  exact houter.trans (.inside [] [priceNode, .leaf "title" none, .leaf "title" none] hinner)

theorem catalog_accepted :
    ∃ schema, catalogDraft.build = .ok schema ∧ ∃ o ∈ schema.operations,
      schema.types.Selects o.returnType catalogNodes ∧
      schema.types.checkSelection o.kind.sectionName o.name o.returnType regroupedNodes =
        .ok () := by
  obtain ⟨operations, hok, o, ho, hkind, hname, hreturn⟩ :
      ∃ operations,
        catalogDraft.build = .ok ⟨catalogDraft.types, catalogDraft.sections, operations⟩ ∧
        ∃ o ∈ operations, o.kind = .query ∧ o.name = "books" ∧ o.returnType = "Books!" :=
    SchemaDraft.only_operation (by decide +kernel) (by decide +kernel)
  have hcheck : catalogDraft.types.checkSelection o.kind.sectionName o.name o.returnType
      catalogNodes = .ok () := by
    rw [hkind, hname, hreturn]
    exact toOption_eq_some.mp (by decide +kernel)
  obtain ⟨hselects, hregroups⟩ := selection_accepted_iff hok ho catalogNodes
  exact ⟨_, hok, o, ho, hselects.mp hcheck, (hregroups regroupedNodes catalog_regroups).mp hcheck⟩

end GraphQLClient
