import GraphQLClient.Proofs.ArgumentReading
import GraphQLClient.Proofs.DocumentUnambiguity
import GraphQLClient.Proofs.RegistrationSoundness

/-!
# Accepted selections

In a schema without problems, a selection that passes the check gives its arguments under names. At
every depth a server reads them back, out of a document that is the same around them whatever they
are.
-/
namespace GraphQLClient

open Outcome

namespace Node

def withArguments (node : Node) (given : Option Json) : Node :=
  ofParts node.key given node.children?

inductive Place where
  | here (front back : List Node)
  | inside (front back : List Node) (key : String) (arguments : Option Json) (place : Place)

def Place.fill : Place → Node → List Node
  | here front back, node => front ++ node :: back
  | inside front back key arguments place, node =>
    front ++ .block key arguments (place.fill node) :: back

namespace Place

variable {node : Node} {front back : List Node}

@[simp] theorem mem_here : node ∈ (here front back).fill node :=
  List.mem_append_right front List.mem_cons_self

theorem mem_back {other : Node} (h : other ∈ back) : other ∈ (here front back).fill node :=
  List.mem_append_right front (List.mem_cons_of_mem node h)

@[simp] theorem mem_inside {key : String} {arguments : Option Json} {place : Place} :
    .block key arguments (place.fill node) ∈ (inside front back key arguments place).fill node :=
  List.mem_append_right front List.mem_cons_self

@[simp] theorem fill_ne_nil (place : Place) (node : Node) : place.fill node ≠ [] := by
  cases place with
  | here front back => exact List.ne_nil_of_mem mem_here
  | inside front back key arguments place => exact List.ne_nil_of_mem mem_inside

end Place

end Node

/-- A key that a document may contain, be it with the marker of an optional field. -/
def BeginsName (key : String) : Prop := ∃ c more, key.toList = c :: more ∧ Text.isNameStart c = true

theorem beginsName_of_isName {name : String} (h : Text.isName name = true) : BeginsName name := by
  obtain ⟨c, more, hname, hc, -⟩ := Text.isNameList_eq_true h
  exact ⟨c, more, hname, hc⟩

theorem beginsName_of_baseName {declared : String} (h : BeginsName (Text.baseName declared)) :
    BeginsName declared := by
  obtain ⟨c, more, hbase, hc⟩ := h
  unfold Text.baseName Text.splitOptional at hbase
  split_ifs at hbase
  · rw [String.toList_ofList] at hbase
    have hfront := List.dropLast_prefix declared.toList
    rw [hbase] at hfront
    obtain ⟨tail, htail⟩ := hfront
    exact ⟨c, more ++ tail, htail.symm, hc⟩
  · exact ⟨c, more, hbase, hc⟩

namespace TypeTable

variable {types : TypeTable} {expr name : String}

def RefersTo (types : TypeTable) (expr name : String) : Prop :=
  ∃ r, types.resolve expr expr = .ok r ∧ r.object? = some name

theorem refersTo_iff {location : String} {r : Resolved} (hr : types.resolve expr location = .ok r) :
    types.RefersTo expr name ↔ r.object? = some name := by
  have hself := resolve_relocate hr expr
  constructor
  · rintro ⟨r', hr', hname⟩
    cases hself.symm.trans hr'
    exact hname
  · exact fun hname => ⟨r, hself, hname⟩

theorem RefersTo.unique {other : String} (h : types.RefersTo expr name)
    (h' : types.RefersTo expr other) :
    name = other := by
  obtain ⟨r, hr, hname⟩ := h
  exact Option.some.inj (hname.symm.trans ((refersTo_iff hr).mp h'))

theorem not_refersTo {location : String} {r : Resolved} (hr : types.resolve expr location = .ok r)
    (hnone : r.object? = none) (name : String) : ¬ types.RefersTo expr name := by
  rw [refersTo_iff hr, hnone]
  nofun

end TypeTable

/-- The object type that the node in a place selects from, when the whole is selected from
`typeName`. -/
inductive Node.Place.SelectsFrom (types : TypeTable) : String → Place → String → Prop where
  | here {typeName : String} {front back : List Node} :
      SelectsFrom types typeName (.here front back) typeName
  | inside {typeName key child parent : String} {field : FieldDefinition} {front back : List Node}
      {arguments : Option Json} {place : Place}
      (hfield : SelectionCheck.fieldOf types typeName key = .ok field)
      (hchild : types.RefersTo field.output child) (hplace : SelectsFrom types child place parent) :
      SelectsFrom types typeName (.inside front back key arguments place) parent

structure TypeTable.Named (types : TypeTable) : Prop where
  key : ∀ {typeName key field}, SelectionCheck.fieldOf types typeName key = .ok field →
    BeginsName key
  argument : ∀ {typeName key field input}, SelectionCheck.fieldOf types typeName key = .ok field →
    field.input = some input → ∀ argument ∈ InputDefinition.fields input,
    Text.isName argument.name = true

namespace SchemaCheck

variable {types : TypeTable} {sections : OperationSections}

theorem isName_of_fieldNameErrors {location name : String}
    (h : fieldNameErrors location name = []) :
    Text.isName name = true := by
  unfold fieldNameErrors at h
  split_ifs at h with hname
  exact hname

theorem isName_of_inputErrors {location : String} {input : InputDefinition}
    (h : inputErrors types location input = []) :
    ∀ argument ∈ InputDefinition.fields input, Text.isName argument.name = true := by
  intro argument hmem
  have hnone := List.flatMap_eq_nil_iff.mp h argument hmem
  exact isName_of_fieldNameErrors (List.append_eq_nil_iff.mp hnone).1

theorem names_of_fieldErrors {typeName declared : String} {field : FieldDefinition}
    (h : fieldErrors types typeName declared field = []) :
    Text.isName (Text.baseName declared) = true ∧ ∀ input, field.input = some input →
      ∀ argument ∈ InputDefinition.fields input, Text.isName argument.name = true := by
  simp only [fieldErrors, List.append_eq_nil_iff] at h
  obtain ⟨⟨hname, harguments⟩, -⟩ := h
  refine ⟨isName_of_fieldNameErrors hname, ?_⟩
  intro input hinput
  rw [hinput] at harguments
  exact isName_of_inputErrors harguments

theorem fieldOf_declared (h : errors types sections = []) {typeName key : String}
    {field : FieldDefinition} (hfield : SelectionCheck.fieldOf types typeName key = .ok field) :
    ∃ declared, fieldErrors types typeName declared field = [] ∧
      (key = declared ∨ key = Text.baseName declared) := by
  unfold SelectionCheck.fieldOf at hfield
  split at hfield
  · cases hfield
  rename_i object hobject
  split at hfield
  · cases hfield
  rename_i hkey
  cases hfield
  obtain ⟨declared, hmem, hspelling⟩ := TypeTable.field?_mem hkey
  have hentry := OrderedMap.get?_eq_some_iff.mp (TypeTable.get?_of_object? hobject)
  have hnone : typeErrors types typeName (.object object) = [] := (errors_eq_nil h).1 _ hentry
  simp only [typeErrors, definitionErrors, List.append_eq_nil_iff, List.flatMap_eq_nil_iff] at hnone
  exact ⟨declared, hnone.2 (declared, field) hmem, hspelling⟩

theorem named_of_errors_eq_nil (h : errors types sections = []) : types.Named := by
  constructor
  · intro typeName key field hfield
    obtain ⟨declared, hnone, hspelling⟩ := fieldOf_declared h hfield
    have hname := beginsName_of_isName (names_of_fieldErrors hnone).1
    rcases hspelling with rfl | rfl
    · exact beginsName_of_baseName hname
    · exact hname
  · intro typeName key field input hfield hinput
    obtain ⟨declared, hnone, -⟩ := fieldOf_declared h hfield
    exact (names_of_fieldErrors hnone).2 input hinput

end SchemaCheck

namespace SelectionCheck

variable {types : TypeTable} {typeName key : String} {field : FieldDefinition} {node : Node}

theorem checkArguments_ok {given : Option Json}
    (h : checkArguments typeName key given field = .ok ()) :
    ∃ entries, argumentEntries given = .ok entries ∧
      ∀ name ∈ Entries.keys entries, ∃ input, field.input = some input ∧
        ∃ argument ∈ InputDefinition.fields input, argument.name = name := by
  simp only [checkArguments] at h
  split at h
  · exact ⟨[], rfl, fun _ hname => absurd hname List.not_mem_nil⟩
  · cases h
  rename_i declared hinput
  split at h
  · cases h
  rename_i entries hentries
  refine ⟨entries, hentries, ?_⟩
  intro name hname
  split at h
  · cases h
  rename_i hknown
  have hsome := List.find?_eq_none.mp hknown name hname
  rw [Bool.not_eq_true, Option.isNone_eq_false_iff] at hsome
  obtain ⟨argument, hargument⟩ := Option.isSome_iff_exists.mp hsome
  exact ⟨declared, hinput, argument, InputDefinition.field?_eq_some hargument⟩

/-- Nodes are given exactly where there is an object to select from. -/
theorem selectedObject_cases {parent field expr : String} {given : Bool} {selected : Option String}
    (h : selectedObject types parent field expr given = .ok selected) :
    (∃ object, given = true ∧ selected = some object ∧ types.RefersTo expr object) ∨
      (given = false ∧ selected = none ∧ ∀ name, ¬ types.RefersTo expr name) := by
  obtain ⟨r, hr, h⟩ := bind_eq_ok.mp h
  cases hobject : r.object? with
  | some object =>
    rw [hobject] at h
    cases given with
    | true =>
      cases h
      exact Or.inl ⟨object, rfl, rfl, (TypeTable.refersTo_iff hr).mpr hobject⟩
    | false => cases h
  | none =>
    rw [hobject] at h
    cases given with
    | true => cases h
    | false =>
      cases h
      exact Or.inr ⟨rfl, rfl, TypeTable.not_refersTo hr hobject⟩

theorem checkSelection_ok {parent field expr : String} {nodes : List Node}
    (h : types.checkSelection parent field expr nodes = .ok ()) :
    (∃ object, types.RefersTo expr object ∧ nodes ≠ [] ∧ checkNodes types object nodes = .ok ()) ∨
      ((∀ name, ¬ types.RefersTo expr name) ∧ nodes = []) := by
  obtain ⟨selected, hselected, h⟩ := bind_eq_ok.mp h
  rcases selectedObject_cases hselected with ⟨object, hgiven, rfl, hrefers⟩ |
    ⟨hgiven, rfl, hterminal⟩
  · have hne : nodes ≠ [] := by simpa using hgiven
    exact Or.inl ⟨object, hrefers, hne, h⟩
  · have hnil : nodes = [] := by simpa using hgiven
    exact Or.inr ⟨hterminal, hnil⟩

/-- The field of an accepted node is there, takes its arguments, and refers to the object type that
its children are accepted for. A field that refers to none may have an empty list of them. -/
theorem checkNode_ok (h : checkNode types typeName node = .ok ()) :
    ∃ field, fieldOf types typeName node.key = .ok field ∧
      checkArguments typeName node.key node.arguments field = .ok () ∧
      ((∃ child children, types.RefersTo field.output child ∧ node.children? = some children ∧
          children ≠ [] ∧ checkNodes types child children = .ok ()) ∨
        ((∀ name, ¬ types.RefersTo field.output name) ∧
          (node.children? = none ∨ node.children? = some []))) := by
  cases node with
  | leaf key arguments =>
    simp only [checkNode, bind_eq_ok] at h
    obtain ⟨field, hfield, _, harguments, selected, hselected, -⟩ := h
    rcases selectedObject_cases hselected with ⟨_, hgiven, -, -⟩ | ⟨-, -, hterminal⟩
    · cases hgiven
    · exact ⟨field, hfield, harguments, Or.inr ⟨hterminal, Or.inl rfl⟩⟩
  | block key arguments children =>
    simp only [checkNode, bind_eq_ok] at h
    obtain ⟨field, hfield, _, harguments, hchildren⟩ := h
    rcases checkSelection_ok (bind_eq_ok.mpr hchildren) with
      ⟨child, hrefers, hne, hchecked⟩ | ⟨hterminal, rfl⟩
    · exact ⟨field, hfield, harguments, Or.inl ⟨child, children, hrefers, rfl, hne, hchecked⟩⟩
    · exact ⟨field, hfield, harguments, Or.inr ⟨hterminal, Or.inr rfl⟩⟩

theorem checkNode_block {arguments : Option Json} {children : List Node} (hne : children ≠ [])
    (h : checkNode types typeName (.block key arguments children) = .ok ()) :
    ∃ field child, fieldOf types typeName key = .ok field ∧ types.RefersTo field.output child ∧
      checkNodes types child children = .ok () := by
  obtain ⟨field, hfield, -, ⟨child, _, hrefers, hsome, -, hchecked⟩ | ⟨-, hnone | hempty⟩⟩ :=
    checkNode_ok h
  · cases hsome
    exact ⟨field, child, hfield, hrefers, hchecked⟩
  · cases hnone
  · cases hempty
    exact absurd rfl hne

theorem checkNodes_mem {nodes : List Node} (h : checkNodes types typeName nodes = .ok ())
    (hnode : node ∈ nodes) : checkNode types typeName node = .ok () := by
  induction nodes with
  | nil => cases hnode
  | cons first rest ih =>
    simp only [checkNodes, bind_eq_ok] at h
    obtain ⟨_, hfirst, hrest⟩ := h
    rcases List.mem_cons.mp hnode with rfl | hmem
    · exact hfirst
    · exact ih hrest hmem

theorem checkNodes_fill {place : Node.Place}
    (h : checkNodes types typeName (place.fill node) = .ok ()) :
    ∃ parent, place.SelectsFrom types typeName parent ∧ checkNode types parent node = .ok () := by
  induction place generalizing typeName with
  | here front back => exact ⟨typeName, .here, checkNodes_mem h Node.Place.mem_here⟩
  | inside front back key arguments place ih =>
    have hblock := checkNodes_mem h Node.Place.mem_inside
    obtain ⟨field, child, hfield, hchild, hchildren⟩ :=
      checkNode_block (place.fill_ne_nil node) hblock
    obtain ⟨parent, hplace, hnode⟩ := ih hchildren
    exact ⟨parent, .inside hfield hchild hplace, hnode⟩

end SelectionCheck

namespace Document

variable {types : TypeTable} {rest : List Char}

@[simp] theorem printNodes_append (level : Nat) (front back : List Node) :
    printNodes level (front ++ back) = printNodes level front ++ printNodes level back := by
  induction front with
  | nil => rfl
  | cons node front ih => simp [printNodes, ih]

theorem skipIgnored_indent (level : Nat) {c : Char} (hc : BeginsToken c) (more : List Char) :
    skipIgnored ('\n' :: (indent level ++ c :: more)) = c :: more := by
  have hspaces : ∀ n, skipIgnored (List.replicate n ' ' ++ c :: more) = c :: more := by
    intro n
    induction n with
    | zero => exact skipIgnored_token hc more
    | succ n ih => exact (skipIgnored_blank rfl _).trans ih
  exact (skipIgnored_blank rfl _).trans (hspaces _)

def EndsNode (rest : List Char) : Prop :=
  ∃ c more, skipIgnored rest = c :: more ∧ (Text.isNameStart c = true ∨ c = '}')

theorem EndsNode.opensNoArguments (h : EndsNode rest) : OpensNoArguments rest := by
  obtain ⟨c, more, hskip, hc | rfl⟩ := h
  · refine ⟨c, more, hskip, ?_⟩
    rintro rfl
    cases hc
  · exact ⟨'}', more, hskip, by decide⟩

theorem endsNode_closing (level : Nat) (rest : List Char) : EndsNode (closing level rest) :=
  ⟨'}', rest, skipIgnored_indent level (by decide) rest, Or.inr rfl⟩

/-- A node begins with its key, on its own line. -/
theorem skipIgnored_nodes (level : Nat) {node : Node} (hkey : BeginsName node.key)
    (nodes : List Node) (rest : List Char) :
    ∃ c more, skipIgnored (printNodes level (node :: nodes) ++ rest) = c :: more ∧
      Text.isNameStart c = true := by
  obtain ⟨c, more, hkey, hc⟩ := hkey
  rw [printNodes_cons, printNode_eq, hkey]
  exact ⟨c, _, skipIgnored_indent level (beginsToken_of_isNameStart hc) _, hc⟩

theorem endsNode_nodes (level : Nat) {nodes : List Node}
    (hkeys : ∀ node ∈ nodes, BeginsName node.key) (hrest : EndsNode rest) :
    EndsNode (printNodes level nodes ++ rest) := by
  cases nodes with
  | nil => exact hrest
  | cons node nodes =>
    obtain ⟨c, more, hskip, hc⟩ :=
      skipIgnored_nodes level (hkeys node List.mem_cons_self) nodes rest
    exact ⟨c, more, hskip, Or.inl hc⟩

theorem opensNoArguments_selectionPart (level : Nat) (node : Node) (hrest : EndsNode rest) :
    OpensNoArguments (selectionPart level rest node) := by
  cases node with
  | leaf key arguments => exact hrest.opensNoArguments
  | block key arguments children => exact ⟨'{', _, rfl, by decide⟩

theorem printNode_withArguments (level : Nat) (node : Node) (given : Option Json)
    (rest : List Char) :
    printNode level (node.withArguments given) ++ rest =
      node.key.toList ++ (printArguments given ++ selectionPart level rest node) := by
  rw [printNode_eq]
  cases node <;> rfl

theorem beginsName_of_checkNodes (hnamed : types.Named) {typeName : String} {nodes : List Node}
    (h : SelectionCheck.checkNodes types typeName nodes = .ok ()) :
    ∀ node ∈ nodes, BeginsName node.key := by
  intro node hnode
  obtain ⟨field, hfield, -⟩ := SelectionCheck.checkNode_ok (SelectionCheck.checkNodes_mem h hnode)
  exact hnamed.key hfield

/-- What stands around a node of an accepted selection is the same for all nodes in its place. -/
theorem printNodes_fill (hnamed : types.Named) {node : Node} {typeName : String}
    {place : Node.Place} (h : SelectionCheck.checkNodes types typeName (place.fill node) = .ok ())
    (level : Nat) (hrest : EndsNode rest) :
    ∃ before inner after, EndsNode after ∧ ∀ other,
      printNodes level (place.fill other) ++ rest = before ++ (printNode inner other ++ after) := by
  induction place generalizing typeName level rest with
  | here front back =>
    -- A leaf without arguments ends with its key, so the key of the next node must not look like
    -- arguments.
    have hback : ∀ other ∈ back, BeginsName other.key := fun other hother =>
      beginsName_of_checkNodes hnamed h other (Node.Place.mem_back hother)
    refine ⟨printNodes level front ++ '\n' :: indent level, level, printNodes level back ++ rest,
      endsNode_nodes level hback hrest, ?_⟩
    intro other
    rw [Node.Place.fill, printNodes_append, List.append_assoc, printNodes_cons]
    simp
  | inside front back key arguments place ih =>
    have hblock := SelectionCheck.checkNodes_mem h Node.Place.mem_inside
    obtain ⟨field, child, -, -, hchildren⟩ :=
      SelectionCheck.checkNode_block (place.fill_ne_nil node) hblock
    obtain ⟨before, inner, after, hafter, htext⟩ := ih hchildren (level + 1)
      (endsNode_closing level (printNodes level back ++ rest))
    refine ⟨printNodes level front ++ '\n' :: (indent level ++
      (key.toList ++ (printArguments arguments ++ (" \x7b".toList ++ before)))),
      inner, after, hafter, ?_⟩
    intro other
    rw [Node.Place.fill, printNodes_append, List.append_assoc, printNodes_cons, printNode_eq,
      selectionPart, htext other]
    simp [Node.key, Node.arguments]

def beforeSelection (o : Operation) : List Char :=
  o.kind.keyword.toList ++ ' ' :: (o.name.toList ++
    (parenthesized (o.variableTypes.entries.map printDeclaration) ++ ' ' :: ("\x7b\n  ".toList ++
      (o.name.toList ++ parenthesized (o.variableTypes.entries.map printPassing)))))

theorem print_eq (o : Operation) (nodes : List Node) :
    (print o.kind o.name o.variableTypes nodes).toList =
      beforeSelection o ++ closingPart nodes := by
  rw [print, String.toList_ofList, printList_eq, beforeSelection]
  simp only [List.append_assoc, List.cons_append]

theorem print_fill (hnamed : types.Named) (o : Operation) {node : Node} {typeName : String}
    {place : Node.Place} (h : SelectionCheck.checkNodes types typeName (place.fill node) = .ok ()) :
    ∃ before level after, EndsNode after ∧ ∀ other,
      (print o.kind o.name o.variableTypes (place.fill other)).toList =
        before ++ (printNode level other ++ after) := by
  obtain ⟨before, level, after, hafter, htext⟩ :=
    printNodes_fill hnamed h 2 (endsNode_closing 1 "\n\x7d".toList)
  refine ⟨beforeSelection o ++ (" \x7b".toList ++ before), level, after, hafter, ?_⟩
  intro other
  obtain ⟨first, rest, hcons⟩ := List.exists_cons_of_ne_nil (place.fill_ne_nil other)
  rw [print_eq, hcons, closingPart_cons, ← hcons, htext other]
  simp only [List.append_assoc]

/-- At every place of an accepted selection the arguments have names, and the document is the same
around them for all arguments. When the keys further inside are names too, a server reads the
arguments back and stops at their end. It takes a text that looks like a variable for the variable,
and says all others. -/
theorem accepted_arguments_read_back {draft : SchemaDraft} {schema : Schema} {o : Operation}
    {place : Node.Place} {node : Node} (hbuild : draft.build = .ok schema)
    (hcheck : schema.types.checkSelection o.kind.sectionName o.name o.returnType (place.fill node) =
      .ok ()) :
    ∃ entries before after, SelectionCheck.argumentEntries node.arguments = .ok entries ∧
      (∀ name ∈ Entries.keys entries, Text.isName name = true) ∧
      (∀ given,
        (print o.kind o.name o.variableTypes (place.fill (node.withArguments given))).toList =
        before ++ (node.key.toList ++ (printArguments given ++ after))) ∧
      (Json.allFields Json.hasNames entries = true →
        readArguments? (printArguments node.arguments ++ after) =
          some (Literal.ofFields entries, after)) ∧
      (Json.allFields isConstant entries = true →
        Literal.toFields? (Literal.ofFields entries) = some entries) := by
  have hnamed : schema.types.Named :=
    SchemaCheck.named_of_errors_eq_nil (SchemaDraft.build_eq_ok hbuild).1
  obtain ⟨object, -, -, hnodes⟩ :=
    (SelectionCheck.checkSelection_ok hcheck).resolve_right fun h => place.fill_ne_nil node h.2
  obtain ⟨parent, -, hnode⟩ := SelectionCheck.checkNodes_fill hnodes
  obtain ⟨field, hfield, harguments, -⟩ := SelectionCheck.checkNode_ok hnode
  obtain ⟨entries, hentries, hdeclared⟩ := SelectionCheck.checkArguments_ok harguments
  have hnames : ∀ name ∈ Entries.keys entries, Text.isName name = true := by
    intro name hname
    obtain ⟨input, hinput, argument, hargument, rfl⟩ := hdeclared name hname
    exact hnamed.argument hfield hinput argument hargument
  obtain ⟨before, level, after, hafter, htext⟩ := print_fill hnamed o hnodes
  refine ⟨entries, before, selectionPart level after node, hentries, hnames, ?_, ?_,
    toFields?_ofFields entries⟩
  · intro given
    rw [htext, printNode_withArguments]
  · intro hinside
    have hkeys : Json.hasNames (.object entries) = true :=
      List.all_eq_true.mpr fun entry hentry => hnames _ (List.mem_map_of_mem hentry)
    exact readArguments?_printArguments hentries hkeys hinside
      (opensNoArguments_selectionPart level node hafter)

def searchDraft : SchemaDraft := SchemaDraft.empty.addAll [
  .ok (.type "Filter" (.object (.ofList [("a?", ⟨none, "Int"⟩), ("b?", ⟨none, "Int"⟩)]))),
  .ok (.type "Shop" (.object (.ofList [
    ("find", ⟨some (.ofList [("where?", "Filter"), ("text?", "String")]), "Int"⟩),
    ("main", ⟨none, "Shop"⟩)]))),
  .ok (.operation .query "shop" ⟨none, "Shop"⟩)]

def honestEntries : List (String × Json) :=
  [("where", .object [("a", .number (.int 1)), ("b", .number (.int 2))])]

theorem search_operation : ∃ operations, searchDraft.build =
      .ok ⟨searchDraft.types, searchDraft.sections, operations⟩ ∧
    ∃ o ∈ operations, o.kind = .query ∧ o.name = "shop" ∧ o.returnType = "Shop" :=
  SchemaDraft.only_operation (by decide +kernel) (by decide +kernel)

theorem search_read_back :
    ∃ schema, searchDraft.build = .ok schema ∧ ∃ o ∈ schema.operations, ∃ before after,
      (print o.kind o.name o.variableTypes
          [.block "main" none [.leaf "find" (some (.object honestEntries))]]).toList =
        before ++ ("find(where: \x7ba: 1, b: 2\x7d)".toList ++ after) ∧
      readArguments? ("(where: \x7ba: 1, b: 2\x7d)".toList ++ after) =
        some (Literal.ofFields honestEntries, after) ∧
      Literal.toFields? (Literal.ofFields honestEntries) = some honestEntries := by
  obtain ⟨operations, hok, o, ho, hkind, hname, hreturn⟩ := search_operation
  have hcheck : searchDraft.types.checkSelection o.kind.sectionName o.name o.returnType
      ((Node.Place.inside [] [] "main" none (.here [] [])).fill
        (.leaf "find" (some (.object honestEntries)))) = .ok () := by
    rw [hkind, hname, hreturn]
    exact toOption_eq_some.mp (by decide +kernel)
  obtain ⟨entries, before, after, hentries, -, htext, hread, hback⟩ :=
    accepted_arguments_read_back hok hcheck
  obtain rfl : honestEntries = entries := Except.ok.inj hentries
  refine ⟨_, hok, o, ho, before, after, ?_, hread (by decide), hback (by decide)⟩
  exact htext (some (.object honestEntries))

def forgedEntries : List (String × Json) := [("where", .object [("a: 1, b", .number (.int 2))])]

def variableEntries : List (String × Json) := [("text", .string "$x")]

/-- Keys further inside are not checked, and a text with the look of a variable is no text to a
server. -/
theorem accepted_arguments_misread :
    ∃ schema, searchDraft.build = .ok schema ∧ ∃ o ∈ schema.operations,
      ∀ entries ∈ [forgedEntries, variableEntries],
        schema.types.checkSelection o.kind.sectionName o.name o.returnType
          [.leaf "find" (some (.object entries))] = .ok () ∧
        ∀ after, ∃ fields,
          readArguments? (printArguments (some (.object entries)) ++ after) = some (fields, after) ∧
            Literal.toFields? fields ≠ some entries := by
  obtain ⟨operations, hok, o, ho, hkind, hname, hreturn⟩ := search_operation
  have hforged : printArguments (some (.object forgedEntries)) =
      printArguments (some (.object honestEntries)) := by decide
  refine ⟨_, hok, o, ho, ?_⟩
  simp only [List.forall_mem_cons]
  refine ⟨⟨?_, ?_⟩, ⟨?_, ?_⟩, nofun⟩
  · rw [hkind, hname, hreturn]
    exact toOption_eq_some.mp (by decide +kernel)
  · intro after
    rw [hforged]
    refine ⟨Literal.ofFields honestEntries,
      readArguments?_object (List.cons_ne_nil _ _) (by decide) (by decide) after, ?_⟩
    rw [toFields?_ofFields honestEntries (by decide)]
    simp [honestEntries, forgedEntries]
  · rw [hkind, hname, hreturn]
    exact toOption_eq_some.mp (by decide +kernel)
  · intro after
    refine ⟨_, readArguments?_object (List.cons_ne_nil _ _) (by decide) (by decide) after, ?_⟩
    intro h
    cases h

end Document

end GraphQLClient
