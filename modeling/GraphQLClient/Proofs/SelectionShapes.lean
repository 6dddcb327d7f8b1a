import GraphQLClient.Proofs.AcceptedSelections

/-!
# The shape of accepted selections

Wherever an accepted selection has a node for a field with an object in it, the node has children,
and a server finds them in braces. A node for any other field has no children, but the check does
not tell an empty list of them from none, and the document then has braces with nothing in them.
-/
namespace GraphQLClient

open Outcome

namespace Document

variable {types : TypeTable} {rest : List Char} {node : Node}

def OpensSelection (rest : List Char) : Prop :=
  ∃ inner c more, skipIgnored rest = '{' :: inner ∧ skipIgnored inner = c :: more ∧
    Text.isNameStart c = true

/-- Braces follow with nothing in them, which is no selection to a server. -/
def OpensEmptyBraces (rest : List Char) : Prop :=
  ∃ inner more, skipIgnored rest = '{' :: inner ∧ skipIgnored inner = '}' :: more

theorem OpensSelection.not_empty (h : OpensSelection rest) : ¬ OpensEmptyBraces rest := by
  obtain ⟨inner, c, more, hbrace, hname, hc⟩ := h
  rintro ⟨inner', more', hbrace', hclose⟩
  cases hbrace.symm.trans hbrace'
  cases hname.symm.trans hclose
  cases hc

theorem EndsNode.not_empty (h : EndsNode rest) : ¬ OpensEmptyBraces rest := by
  obtain ⟨c, more, hskip, hc⟩ := h
  rintro ⟨inner, _, hbrace, -⟩
  cases hskip.symm.trans hbrace
  rcases hc with hc | hc
  · cases hc
  · exact absurd hc (by decide)

theorem opensSelection_nodes (level : Nat) {nodes : List Node} (hne : nodes ≠ [])
    (hkeys : ∀ node ∈ nodes, BeginsName node.key) (rest : List Char) :
    OpensSelection (" \x7b".toList ++ (printNodes level nodes ++ rest)) := by
  obtain ⟨first, others, rfl⟩ := List.exists_cons_of_ne_nil hne
  obtain ⟨c, more, hskip, hc⟩ :=
    skipIgnored_nodes level (hkeys first List.mem_cons_self) others rest
  exact ⟨_, c, more, rfl, hskip, hc⟩

section Parts

variable (level : Nat)

theorem endsNode_selectionPart (hnone : node.children? = none) (hrest : EndsNode rest) :
    EndsNode (selectionPart level rest node) := by
  cases node with
  | leaf key arguments => exact hrest
  | block key arguments children => cases hnone

theorem opensEmptyBraces_selectionPart (hempty : node.children? = some []) (rest : List Char) :
    OpensEmptyBraces (selectionPart level rest node) := by
  cases node with
  | leaf key arguments => cases hempty
  | block key arguments children =>
    cases hempty
    exact ⟨closing level rest, rest, rfl, skipIgnored_indent level (by decide) rest⟩

theorem opensSelection_selectionPart {children : List Node} (hsome : node.children? = some children)
    (hne : children ≠ []) (hkeys : ∀ child ∈ children, BeginsName child.key) (rest : List Char) :
    OpensSelection (selectionPart level rest node) := by
  cases node with
  | leaf key arguments => cases hsome
  | block key arguments given =>
    cases hsome
    exact opensSelection_nodes (level + 1) hne hkeys (closing level rest)

end Parts

theorem endsNode_closingPart : EndsNode (closingPart []) := ⟨'}', [], rfl, Or.inr rfl⟩

theorem opensSelection_closingPart {nodes : List Node} (hne : nodes ≠ [])
    (hkeys : ∀ node ∈ nodes, BeginsName node.key) : OpensSelection (closingPart nodes) := by
  obtain ⟨first, others, rfl⟩ := List.exists_cons_of_ne_nil hne
  rw [closingPart_cons]
  exact opensSelection_nodes 2 hne hkeys _

/-- The children of a node for a field of this type, and what stands behind its arguments. Fields
with an object have a selection. Others have none, or one that is empty. -/
structure Shaped (types : TypeTable) (expr : String) (children? : Option (List Node))
    (behind : List Char) :
    Prop where
  object : (∃ child, types.RefersTo expr child) →
    (∃ children, children? = some children ∧ children ≠ []) ∧ OpensSelection behind
  terminal : (∀ child, ¬ types.RefersTo expr child) →
    children? = none ∧ EndsNode behind ∨ children? = some [] ∧ OpensEmptyBraces behind

theorem Shaped.opensEmptyBraces_iff {expr : String} {children? : Option (List Node)}
    {behind : List Char} (h : Shaped types expr children? behind) :
    OpensEmptyBraces behind ↔ children? = some [] := by
  by_cases hobject : ∃ child, types.RefersTo expr child
  · obtain ⟨⟨children, rfl, hne⟩, hopens⟩ := h.object hobject
    simp [hopens.not_empty, hne]
  · rcases h.terminal (not_exists.mp hobject) with ⟨rfl, hends⟩ | ⟨rfl, hempty⟩
    · simp [hends.not_empty]
    · simp [hempty]

theorem shaped_of_checkNode (hnamed : types.Named) {typeName : String}
    (h : SelectionCheck.checkNode types typeName node = .ok ()) (level : Nat)
    (hrest : EndsNode rest) :
    ∃ field, SelectionCheck.fieldOf types typeName node.key = .ok field ∧
      Shaped types field.output node.children? (selectionPart level rest node) := by
  obtain ⟨field, hfield, -, ⟨child, children, hchild, hsome, hne, hchecked⟩ |
      ⟨hterminal, hchildren⟩⟩ :=
    SelectionCheck.checkNode_ok h
  · refine ⟨field, hfield, ?_, fun hterminal => absurd hchild (hterminal child)⟩
    intro _
    have hkeys := beginsName_of_checkNodes hnamed hchecked
    exact ⟨⟨children, hsome, hne⟩, opensSelection_selectionPart level hsome hne hkeys rest⟩
  · refine ⟨field, hfield, fun ⟨child, hchild⟩ => absurd hchild (hterminal child), ?_⟩
    intro _
    rcases hchildren with hnone | hempty
    · exact Or.inl ⟨hnone, endsNode_selectionPart level hnone hrest⟩
    · exact Or.inr ⟨hempty, opensEmptyBraces_selectionPart level hempty rest⟩

/-- At every depth of an accepted selection a field with an object has a selection with fields in
it, in the nodes and in the document, and the document is the same around its arguments whatever
they are. Any other field has no selection but for an empty list of children, and empty braces are
found where there is one. -/
theorem accepted_selection_shaped {draft : SchemaDraft} {schema : Schema} {o : Operation}
    {nodes : List Node} (hbuild : draft.build = .ok schema)
    (hcheck : schema.types.checkSelection o.kind.sectionName o.name o.returnType nodes = .ok ()) :
    (∃ behind, (print o.kind o.name o.variableTypes nodes).toList = beforeSelection o ++ behind ∧
      ((∃ root, schema.types.RefersTo o.returnType root) → nodes ≠ [] ∧ OpensSelection behind) ∧
      ((∀ root, ¬ schema.types.RefersTo o.returnType root) → nodes = [] ∧ EndsNode behind)) ∧
    ∀ place node, nodes = Node.Place.fill place node →
      ∃ root parent field before behind, schema.types.RefersTo o.returnType root ∧
        place.SelectsFrom schema.types root parent ∧
        SelectionCheck.fieldOf schema.types parent node.key = .ok field ∧
        (∀ given,
          (print o.kind o.name o.variableTypes (place.fill (node.withArguments given))).toList =
          before ++ (node.key.toList ++ (printArguments given ++ behind))) ∧
        Shaped schema.types field.output node.children? behind ∧
        (OpensEmptyBraces behind ↔ node.children? = some []) := by
  have hnamed : schema.types.Named :=
    SchemaCheck.named_of_errors_eq_nil (SchemaDraft.build_eq_ok hbuild).1
  constructor
  · refine ⟨closingPart nodes, print_eq o nodes, ?_⟩
    rcases SelectionCheck.checkSelection_ok hcheck with
      ⟨root, hroot, hne, hchecked⟩ | ⟨hterminal, rfl⟩
    · have hkeys := beginsName_of_checkNodes hnamed hchecked
      exact ⟨fun _ => ⟨hne, opensSelection_closingPart hne hkeys⟩,
        fun hterminal => absurd hroot (hterminal root)⟩
    · exact ⟨fun ⟨root, hroot⟩ => absurd hroot (hterminal root), fun _ =>
        ⟨rfl, endsNode_closingPart⟩⟩
  · rintro place node rfl
    obtain ⟨root, hroot, -, hchecked⟩ :=
      (SelectionCheck.checkSelection_ok hcheck).resolve_right fun h => place.fill_ne_nil node h.2
    obtain ⟨parent, hplace, hnode⟩ := SelectionCheck.checkNodes_fill hchecked
    obtain ⟨before, level, after, hafter, htext⟩ := print_fill hnamed o hchecked
    obtain ⟨field, hfield, hshaped⟩ := shaped_of_checkNode hnamed hnode level hafter
    refine ⟨root, parent, field, before, selectionPart level after node, hroot, hplace, hfield, ?_,
      hshaped, hshaped.opensEmptyBraces_iff⟩
    intro given
    rw [htext, printNode_withArguments]

def authorDraft : SchemaDraft :=
  SchemaDraft.empty.addAll [
    .ok (.type "Writer" (.scalar "User!" none)),
    .ok (.type "Post" (.object (.ofList [("title", ⟨none, "String!"⟩),
      ("author?", ⟨none, "Writer"⟩)]))),
    .ok (.type "User" (.object (.ofList [("id", ⟨none, "ID!"⟩), ("posts", ⟨none, "[Post!]!"⟩)]))),
    .ok (.operation .query "user" ⟨none, "User"⟩)]

theorem author_operation : ∃ operations, authorDraft.build =
      .ok ⟨authorDraft.types, authorDraft.sections, operations⟩ ∧
    ∃ o ∈ operations, o.kind = .query ∧ o.name = "user" ∧ o.returnType = "User" :=
  SchemaDraft.only_operation (by decide +kernel) (by decide +kernel)

def authorPlace : Node.Place :=
  .inside [] [.leaf "id" none] "posts" none (.here [.leaf "title" none] [])

def authorNode : Node := .block "author" none [.leaf "id" none]

theorem author_shaped :
    ∃ schema, authorDraft.build = .ok schema ∧ ∃ o ∈ schema.operations,
      schema.types.checkSelection o.kind.sectionName o.name o.returnType
        (authorPlace.fill authorNode) =
        .ok () ∧
      ∃ before behind, OpensSelection behind ∧ ∀ given,
        (print o.kind o.name o.variableTypes (authorPlace.fill
          (authorNode.withArguments given))).toList =
          before ++ ("author".toList ++ (printArguments given ++ behind)) := by
  obtain ⟨operations, hok, o, ho, hkind, hname, hreturn⟩ := author_operation
  have hcheck : authorDraft.types.checkSelection o.kind.sectionName o.name o.returnType
      (authorPlace.fill authorNode) = .ok () := by
    rw [hkind, hname, hreturn]
    exact toOption_eq_some.mp (by decide +kernel)
  obtain ⟨root, parent, field, before, behind, -, -, -, htext, hshaped, -⟩ :=
    (accepted_selection_shaped hok hcheck).2 authorPlace authorNode rfl
  refine ⟨_, hok, o, ho, hcheck, before, behind, ?_, htext⟩
  by_cases hobject : ∃ child, authorDraft.types.RefersTo field.output child
  · exact (hshaped.object hobject).2
  · rcases hshaped.terminal (not_exists.mp hobject) with ⟨hnone, -⟩ | ⟨hempty, -⟩
    · cases hnone
    · cases hempty

/-- An `id` is no object, but it may have an empty list of children, and is printed with empty
braces. -/
theorem empty_children_accepted :
    ∃ schema, authorDraft.build = .ok schema ∧ ∃ o ∈ schema.operations,
      schema.types.checkSelection o.kind.sectionName o.name o.returnType [.block "id" none []] =
        .ok () ∧
      (∃ field, SelectionCheck.fieldOf schema.types "User" "id" = .ok field ∧
        ∀ child, ¬ schema.types.RefersTo field.output child) ∧
      (print o.kind o.name o.variableTypes [.block "id" none []]).toList =
        beforeSelection o ++ " \x7b\n    id \x7b\n    \x7d\n  \x7d\n\x7d".toList := by
  obtain ⟨operations, hok, o, ho, hkind, hname, hreturn⟩ := author_operation
  have hcheck : authorDraft.types.checkSelection OperationKind.query.sectionName "user" "User"
      [.block "id" none []] = .ok () := toOption_eq_some.mp (by decide +kernel)
  have hfield : SelectionCheck.fieldOf authorDraft.types "User" "id" = .ok ⟨none, "ID!"⟩ := rfl
  have hterminal : (authorDraft.types.resolve "ID!" "ID!").map Resolved.object? = .ok none := by
    decide +kernel
  obtain ⟨r, hr, hnone⟩ := map_eq_ok.mp hterminal
  refine ⟨_, hok, o, ho, ?_, ⟨_, hfield, TypeTable.not_refersTo hr hnone⟩, ?_⟩
  · rw [hkind, hname, hreturn]
    exact hcheck
  · rw [print_eq]
    exact congrArg (beforeSelection o ++ ·) (by decide)

end Document

end GraphQLClient
