import GraphQLClient.Proofs.DeclaredNames
import GraphQLClient.Proofs.DefaultSelections
import GraphQLClient.Proofs.SelectionShapes
import GraphQLClient.Proofs.ValidSelections

/-!
# The keys of accepted selections

Wherever a node of an accepted selection stands, its key belongs to a field that is declared there.
Mostly it is the name of the field, but the lookup of a field tries declarations as they are written
before it leaves the markers aside. So the marked spelling of an optional field passes too, and is
printed, though a server cannot read it.
-/
namespace GraphQLClient

open Outcome

/-- Keys are found by the names of the declared fields, and by what they were declared as. -/
theorem ObjectDefinition.field?_isSome_iff {object : ObjectDefinition} {key : String} :
    (object.field? key).isSome = true ↔
      ∃ declared ∈ object.keys, key = Text.baseName declared ∨ key = declared := by
  constructor
  · intro h
    obtain ⟨field, hfield⟩ := Option.isSome_iff_exists.mp h
    obtain ⟨declared, hmem, hspelling⟩ := TypeTable.field?_mem hfield
    exact ⟨declared, List.mem_map_of_mem hmem, hspelling.symm⟩
  · rintro ⟨declared, hdeclared, hspelling⟩
    unfold field?
    cases hget : object.get? key with
    | some found => rfl
    | none =>
      have hother : key ≠ declared := by
        rintro rfl
        exact Entries.get?_eq_none_iff.mp hget hdeclared
      obtain ⟨entry, hentry, rfl⟩ := List.mem_map.mp hdeclared
      have hbase := (hspelling.resolve_right hother).symm
      rw [Option.isSome_map, List.find?_isSome]
      exact ⟨entry, hentry, beq_iff_eq.mpr hbase⟩

/-- A key that is found is the name of the field, or else the declaration itself with its marker. -/
theorem Text.spelling_cases {declared key : String} (h : key = declared ∨ key = baseName declared) :
    key = baseName declared ∨ key = declared ∧ key = baseName declared ++ "?" := by
  rcases h with rfl | rfl
  · rcases splitOptional_cases key with hplain | ⟨-, hmarked⟩
    · exact Or.inl (congrArg Prod.fst hplain).symm
    · exact Or.inr ⟨rfl, hmarked⟩
  · exact Or.inl rfl

/-- At every depth of an accepted selection the key of a node spells a field of the object type
selected from there, and stands in the document as it is. Either it is the name of the field, or it
is a marked spelling, of which a server reads the name and not the marker; whatever is found in the
object type has one of these two spellings. -/
theorem accepted_keys_declared {draft : SchemaDraft} {schema : Schema} {o : Operation}
    {place : Node.Place} {node : Node} (hbuild : draft.build = .ok schema)
    (hcheck : schema.types.checkSelection o.kind.sectionName o.name o.returnType (place.fill node) =
      .ok ()) :
    ∃ root parent object declared field before behind, schema.types.RefersTo o.returnType root ∧
      place.SelectsFrom schema.types root parent ∧ schema.types.object? parent = some object ∧
      (declared, field) ∈ object.entries ∧ object.field? node.key = some field ∧
      Text.isName (Text.baseName declared) = true ∧
      (node.key = Text.baseName declared ∨ node.key = declared ∧
        node.key = Text.baseName declared ++ "?" ∧
        Document.readName? (node.key.toList ++ behind) =
          some (Text.baseName declared, '?' :: behind)) ∧
      (∀ key, (object.field? key).isSome = true ↔
        ∃ other ∈ object.keys, key = Text.baseName other ∨ key = other) ∧
      (Document.print o.kind o.name o.variableTypes (place.fill node)).toList =
        before ++ (node.key.toList ++ behind) := by
  have hchecked := (SchemaDraft.build_eq_ok hbuild).1
  obtain ⟨root, hroot, -, hnodes⟩ :=
    (SelectionCheck.checkSelection_ok hcheck).resolve_right fun h => place.fill_ne_nil node h.2
  obtain ⟨parent, hplace, hnode⟩ := SelectionCheck.checkNodes_fill hnodes
  obtain ⟨field, hfield, -⟩ := SelectionCheck.checkNode_ok hnode
  obtain ⟨object, hobject, hfound⟩ := SelectionCheck.fieldOf_ok_iff.mp hfield
  obtain ⟨declared, hmem, hspelling⟩ := TypeTable.field?_mem hfound
  have hname := SchemaCheck.isName_of_object? hchecked hobject hmem
  obtain ⟨before, level, after, -, hfill⟩ :=
    Document.print_fill (SchemaCheck.named_of_errors_eq_nil hchecked) o hnodes
  have htext : (Document.print o.kind o.name o.variableTypes (place.fill node)).toList =
      before ++ (node.key.toList ++ (Document.printArguments node.arguments ++
        Document.selectionPart level after node)) := by
    rw [hfill, Document.printNode_eq]
  refine ⟨root, parent, object, declared, field, before, _, hroot, hplace, hobject,
    hmem, hfound, hname, ?_,
    fun key => ObjectDefinition.field?_isSome_iff, htext⟩
  refine (Text.spelling_cases hspelling).imp_right ?_
  rintro ⟨hdeclared, hmarked⟩
  refine ⟨hdeclared, hmarked, ?_⟩
  rw [hmarked]
  exact Document.readName?_marked hname _

theorem author_key_declared :
    ∃ schema, Document.authorDraft.build = .ok schema ∧ ∃ o ∈ schema.operations,
      schema.types.checkSelection o.kind.sectionName o.name o.returnType
        (Document.authorPlace.fill Document.authorNode) = .ok () ∧
      ∃ root parent object declared, Document.authorPlace.SelectsFrom schema.types root parent ∧
        schema.types.object? parent = some object ∧ declared ∈ object.keys ∧
        Document.authorNode.key = Text.baseName declared := by
  obtain ⟨operations, hok, o, ho, hkind, hname, hreturn⟩ := Document.author_operation
  have hcheck : Document.authorDraft.types.checkSelection o.kind.sectionName o.name o.returnType
      (Document.authorPlace.fill Document.authorNode) = .ok () := by
    rw [hkind, hname, hreturn]
    exact toOption_eq_some.mp (by decide +kernel)
  obtain ⟨root, parent, object, declared, field, _, _, -, hplace, hobject, hmem, -,
      -, hspelling, -⟩ :=
    accepted_keys_declared hok hcheck
  refine ⟨_, hok, o, ho, hcheck, root, parent, object, declared, hplace, hobject,
    List.mem_map_of_mem hmem, ?_⟩
  rcases hspelling with hbase | ⟨-, hmarked, -⟩
  · exact hbase
  · have hkey : Text.isName Document.authorNode.key = true := by decide
    rw [hmarked] at hkey
    exact absurd hkey (Text.not_isName_marked _)

def memberDraft : SchemaDraft :=
  SchemaDraft.empty.addAll [
    .ok (.type "User" (.object (.ofList [("id", ⟨none, "ID!"⟩), ("nick?", ⟨none, "String"⟩)]))),
    .ok (.operation .query "user" ⟨none, "User"⟩)]

/-- The marked spelling is the name of no field, but it is accepted and printed. -/
theorem marked_key_accepted :
    ∃ schema, memberDraft.build = .ok schema ∧ ∃ o ∈ schema.operations,
      schema.types.RefersTo o.returnType "User" ∧
      schema.types.checkSelection o.kind.sectionName o.name o.returnType [.leaf "nick?" none] =
        .ok () ∧
      (∃ object, schema.types.object? "User" = some object ∧
        ∀ declared ∈ object.keys, Text.baseName declared ≠ "nick?") ∧
      (Document.print o.kind o.name o.variableTypes [.leaf "nick?" none]).toList =
        Document.beforeSelection o ++ " \x7b\n    nick?\n  \x7d\n\x7d".toList := by
  obtain ⟨operations, hok, o, ho, hkind, hname, hreturn⟩ :
      ∃ operations, memberDraft.build = .ok ⟨memberDraft.types, memberDraft.sections, operations⟩ ∧
        ∃ o ∈ operations, o.kind = .query ∧ o.name = "user" ∧ o.returnType = "User" :=
    SchemaDraft.only_operation (by decide +kernel) (by decide +kernel)
  have hcheck : memberDraft.types.checkSelection OperationKind.query.sectionName "user" "User"
      [.leaf "nick?" none] = .ok () := toOption_eq_some.mp (by decide +kernel)
  have hroot : (memberDraft.types.resolve "User" "User").map Resolved.object? =
      .ok (some "User") := by
    decide +kernel
  have hfields : (memberDraft.types.object? "User").map OrderedMap.keys = some ["id", "nick?"] := by
    decide +kernel
  obtain ⟨r, hr, huser⟩ := map_eq_ok.mp hroot
  obtain ⟨object, hobject, hkeys⟩ := Option.map_eq_some_iff.mp hfields
  refine ⟨_, hok, o, ho, ?_, ?_, ⟨object, hobject, ?_⟩, ?_⟩
  · rw [hreturn]
    exact ⟨r, hr, huser⟩
  · rw [hkind, hname, hreturn]
    exact hcheck
  · rw [hkeys]
    decide
  · rw [Document.print_eq]
    exact congrArg (Document.beforeSelection o ++ ·) (by decide)

end GraphQLClient
