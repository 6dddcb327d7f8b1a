import GraphQLClient.Proofs.DistinctDeclarations
import GraphQLClient.Proofs.NestedValues
import GraphQLClient.Proofs.ReorderedLiterals

/-!
# Written literals read back

Every part of a declaration reads back from what is written for it. The literal of a list of
declarations therefore declares the same, types before operations, and becomes the same schema or is
refused for the same reasons.
-/
namespace GraphQLClient

/-- No codec, no type under the name of a section, and no object with the mark of an enum. -/
def Declaration.isWritable : Declaration → Bool
  | .type name definition =>
    (OperationKind.ofSectionName? name).isNone &&
      match definition with
      | .object fields => !fields.contains SchemaLiteral.enumKey
      | .scalar _ own => own.isNone
      | .enumeration _ => true
  | .operation _ _ _ => true
  | .codec _ _ => false

namespace SchemaLiteral

open SchemaDraft

structure Writable (declarations : List Declaration) : Prop where
  each : declarations.all Declaration.isWritable = true
  types : (Entries.keys (declarations.filterMap Declaration.type?)).Nodup
  operations : ∀ kind, (Entries.keys (declarations.filterMap (Declaration.operation? kind))).Nodup

theorem Writable.type {declarations : List Declaration} (h : Writable declarations)
    {entry : String × TypeDefinition} (hentry : entry ∈ declarations.filterMap Declaration.type?) :
    (Declaration.type entry.1 entry.2).isWritable = true := by
  obtain ⟨declaration, hmem, htype⟩ := List.mem_filterMap.mp hentry
  cases declaration with
  | type name definition =>
    cases htype
    exact List.all_eq_true.mp h.each _ hmem
  | _ => cases htype

theorem readInputEntries_write (location : String) (entries : List (String × String)) :
    readInputEntries location (entries.map fun entry => (entry.1, .string entry.2)) =
      .ok entries := by
  induction entries with
  | nil => rfl
  | cons entry rest ih =>
    simp only [List.map_cons, readInputEntries, ih]
    rfl

theorem readInput_write (location : String) (input : InputDefinition) :
    readInput location (writeInput input) = .ok input := by
  have hread := readInputEntries_write location input.entries
  simp only [writeInput, readInput, hread]
  exact congrArg Except.ok input.ofList_entries

theorem readField_write (location : String) (field : FieldDefinition) :
    readField location (writeField field) = .ok field := by
  obtain ⟨input, output⟩ := field
  cases input with
  | none => rfl
  | some input =>
    simp only [writeField, readField, readInput_write]
    rfl

theorem readFields_write (typeName : String) (entries : List (String × FieldDefinition)) :
    readFields typeName (entries.map fun entry => (entry.1, writeField entry.2)) = .ok entries := by
  induction entries with
  | nil => rfl
  | cons entry rest ih =>
    simp only [List.map_cons, readFields, readField_write, ih]
    rfl

theorem readStrings_write (values : List String) :
    readStrings? (values.map .string) = some values := by
  induction values with
  | nil => rfl
  | cons value rest ih => simp only [List.map_cons, readStrings?, ih, Option.map_some]

theorem get?_writeFields {key : String} {fields : ObjectDefinition}
    (h : fields.contains key = false) :
    Entries.get? key (fields.entries.map fun entry => (entry.1, writeField entry.2)) = none := by
  have hkey := OrderedMap.contains_eq_false_iff.mp h
  rw [Entries.get?_eq_none_iff]
  simpa [OrderedMap.keys, Entries.keys] using hkey

theorem readType_write {name : String} {definition : TypeDefinition}
    (h : (Declaration.type name definition).isWritable = true) :
    readType name (writeType definition) = .ok definition := by
  have hdefinition := (Bool.and_eq_true_iff.mp h).2
  cases definition with
  | object fields =>
    have hmarker := get?_writeFields (Bool.not_eq_true' _ ▸ hdefinition)
    have hread := readFields_write name fields.entries
    simp only [writeType, readType, hmarker, Option.isSome_none,
      Bool.false_eq_true, if_false, hread]
    exact congrArg (Except.ok ∘ TypeDefinition.object) fields.ofList_entries
  | scalar aliasExpr own =>
    cases own with
    | none => rfl
    | some codec => cases hdefinition
  | enumeration values =>
    have hread := readStrings_write values
    simp [writeType, readType, readEnum, Entries.get?, enumKey, hread]

theorem readOperation_write (kind : OperationKind) (name : String)
    (signature : OperationSignature) :
    readOperation kind name (writeOperation signature) = .ok signature := by
  obtain ⟨input, output⟩ := signature
  cases input with
  | none => rfl
  | some input =>
    have hread := readInput_write (Operation.location kind name) input
    simp only [writeInput] at hread
    simp only [writeOperation, writeInput, readOperation, if_true, hread]
    rfl

theorem readEntry_write {name : String} {definition : TypeDefinition}
    (h : (Declaration.type name definition).isWritable = true) :
    readEntry name (writeType definition) = [.ok (.type name definition)] := by
  have hname := Option.isNone_iff_eq_none.mp (Bool.and_eq_true_iff.mp h).1
  simp only [readEntry, hname, readType_write h, Except.map]

theorem readSection_write (kind : OperationKind) (operations : List (String × OperationSignature)) :
    ((writeSection kind operations).flatMap fun entry => readEntry entry.1 entry.2) =
      operations.map fun entry => .ok (.operation kind entry.1 entry.2) := by
  cases operations with
  | nil => rfl
  | cons first rest =>
    simp only [writeSection, List.isEmpty_cons, Bool.false_eq_true, if_false,
      List.flatMap_singleton, readEntry, OperationKind.ofSectionName?_sectionName,
      readSection, List.map_map]
    apply List.map_congr_left
    intro entry _
    simp only [Function.comp_apply, readOperation_write, Except.map]

theorem read_write {declarations : List Declaration} (h : Writable declarations) :
    read (write declarations) =
      ((declarations.filterMap Declaration.type?).map fun entry => .ok (.type entry.1 entry.2)) ++
        OperationKind.all.flatMap fun kind =>
          (declarations.filterMap (Declaration.operation? kind)).map fun entry =>
            .ok (.operation kind entry.1 entry.2) := by
  rw [write, read, List.flatMap_append, List.flatMap_map, List.flatMap_assoc]
  congr 1
  · rw [List.map_eq_flatMap]
    exact List.flatMap_congr fun entry hentry => readEntry_write (h.type hentry)
  · apply List.flatMap_congr
    intro kind _
    exact readSection_write kind _

/-! The declarations read back are those written, kind by kind. -/

variable {declarations : List Declaration}

theorem types_of_read_write (h : Writable declarations) :
    (read (write declarations)).filterMap typeOf? = declarations.filterMap Declaration.type? := by
  rw [read_write h, List.filterMap_append, List.filterMap_flatMap, List.filterMap_map]
  have htypes : (typeOf? ∘ fun entry => .ok (.type entry.1 entry.2)) = some := rfl
  have hoperations : ∀ kind,
      (((declarations.filterMap (Declaration.operation? kind)).map fun entry =>
      .ok (.operation kind entry.1 entry.2)).filterMap typeOf?) = [] := by
    intro kind
    rw [List.filterMap_map, List.filterMap_eq_nil_iff]
    exact fun _ _ => rfl
  simp only [htypes, hoperations, List.filterMap_some, OperationKind.all, List.flatMap_cons,
    List.flatMap_nil, List.append_nil]

theorem operations_of_read_write (h : Writable declarations) (kind : OperationKind) :
    (read (write declarations)).filterMap (operationOf? kind) =
      declarations.filterMap (Declaration.operation? kind) := by
  have htypes : ((declarations.filterMap Declaration.type?).map fun entry =>
      .ok (.type entry.1 entry.2)).filterMap (operationOf? kind) = [] := by
    rw [List.filterMap_map, List.filterMap_eq_nil_iff]
    exact fun _ _ => rfl
  have hsame : ∀ operations : List (String × OperationSignature), (operations.map fun entry =>
      .ok (.operation kind entry.1 entry.2)).filterMap (operationOf? kind) = operations := by
    intro operations
    simp [List.filterMap_map, Function.comp_def, operationOf?, Except.toOption,
      Declaration.operation?]
  have hother : ∀ (other : OperationKind) (operations : List (String × OperationSignature)),
      other ≠ kind → (operations.map fun entry => .ok (.operation other entry.1 entry.2)).filterMap
        (operationOf? kind) = [] := by
    intro other operations hne
    simp [List.filterMap_map, operationOf?, Except.toOption, Declaration.operation?, hne]
  rw [read_write h, List.filterMap_append, htypes, List.nil_append, List.filterMap_flatMap]
  cases kind <;>
    simp only [OperationKind.all, List.flatMap_cons, List.flatMap_nil, hsame, hother,
      ne_eq, reduceCtorEq, not_false_eq_true, List.append_nil, List.nil_append]

theorem errors_of_read_write (h : Writable declarations) :
    (read (write declarations)).filterMap errorOf? = [] := by
  rw [read_write h, List.filterMap_eq_nil_iff]
  intro entry hentry
  rcases List.mem_append.mp hentry with hentry | hentry
  · obtain ⟨_, -, rfl⟩ := List.mem_map.mp hentry
    rfl
  · obtain ⟨kind, -, hentry⟩ := List.mem_flatMap.mp hentry
    obtain ⟨_, -, rfl⟩ := List.mem_map.mp hentry
    rfl

/-! No key is written twice. -/

theorem distinct_object {α : Type} {entries : List (String × α)} {f : α → Json}
    (hkeys : (Entries.keys entries).Nodup)
    (hvalues : ∀ entry ∈ entries, (f entry.2).all Json.hasDistinctKeys = true) :
    (Json.object (entries.map fun entry => (entry.1, f entry.2))).all Json.hasDistinctKeys =
      true := by
  have hsame : Entries.keys (entries.map fun entry => (entry.1, f entry.2)) =
      Entries.keys entries := by
    simp [Entries.keys]
  refine Bool.and_eq_true_iff.mpr ⟨?_, Json.allFields_iff.mpr ?_⟩
  · rw [Json.hasDistinctKeys, hsame]
    exact decide_eq_true hkeys
  · intro entry hentry
    obtain ⟨written, hmem, rfl⟩ := List.mem_map.mp hentry
    exact hvalues written hmem

theorem distinct_writeInput (input : InputDefinition) :
    (writeInput input).all Json.hasDistinctKeys = true :=
  distinct_object input.nodup_keys fun _ _ => rfl

theorem distinct_writeField (field : FieldDefinition) :
    (writeField field).all Json.hasDistinctKeys = true := by
  unfold writeField
  split
  · rfl
  · rename_i input _
    simp [Json.all, Json.allItems, Json.hasDistinctKeys, distinct_writeInput input]

theorem distinct_writeOperation (signature : OperationSignature) :
    (writeOperation signature).all Json.hasDistinctKeys = true := by
  unfold writeOperation
  split
  · rfl
  · rename_i input _
    simp [Json.all, Json.allItems, Json.hasDistinctKeys, distinct_writeInput input]

theorem distinct_writeType (definition : TypeDefinition) :
    (writeType definition).all Json.hasDistinctKeys = true := by
  cases definition with
  | object fields =>
    exact distinct_object fields.nodup_keys fun entry _ => distinct_writeField entry.2
  | scalar aliasExpr own => rfl
  | enumeration values =>
    have hvalues : Json.allItems Json.hasDistinctKeys (values.map .string) = true := by
      rw [Json.allItems_iff]
      intro item hitem
      obtain ⟨value, -, rfl⟩ := List.mem_map.mp hitem
      rfl
    simp [writeType, Json.all, Json.allFields, Json.hasDistinctKeys, Entries.keys, enumKey, hvalues]

theorem keys_writeSection (kind : OperationKind) (operations : List (String × OperationSignature)) :
    (Entries.keys (writeSection kind operations)).Sublist [kind.sectionName] := by
  cases operations with
  | nil => exact List.nil_sublist _
  | cons first rest => exact List.Sublist.refl _

theorem nodup_keys_write (h : Writable declarations) :
    (Entries.keys (((declarations.filterMap Declaration.type?).map fun entry =>
        (entry.1, writeType entry.2)) ++
      OperationKind.all.flatMap fun kind =>
        writeSection kind (declarations.filterMap (Declaration.operation? kind)))).Nodup := by
  rw [Entries.keys, List.map_append, List.map_map, List.map_flatMap, List.nodup_append]
  have hsections : ((OperationKind.all.flatMap fun kind => Entries.keys
      (writeSection kind (declarations.filterMap (Declaration.operation? kind))))).Sublist
        (OperationKind.all.map OperationKind.sectionName) := by
    simp only [OperationKind.all, List.flatMap_cons, List.flatMap_nil, List.append_nil]
    exact (keys_writeSection _ _).append ((keys_writeSection _ _).append (keys_writeSection _ _))
  refine ⟨h.types, hsections.nodup (by decide), ?_⟩
  rintro name hname _ hsection rfl
  obtain ⟨entry, hentry, rfl⟩ := List.mem_map.mp hname
  obtain ⟨kind, -, hkind⟩ := List.mem_map.mp (hsections.subset hsection)
  have hnone := Option.isNone_iff_eq_none.mp (Bool.and_eq_true_iff.mp (h.type hentry)).1
  simp only [Function.comp_apply] at hkind
  rw [← hkind, OperationKind.ofSectionName?_sectionName] at hnone
  cases hnone

theorem distinct_write (h : Writable declarations) :
    (write declarations).all Json.hasDistinctKeys = true := by
  refine Bool.and_eq_true_iff.mpr ⟨decide_eq_true (nodup_keys_write h), Json.allFields_iff.mpr ?_⟩
  intro entry hentry
  rcases List.mem_append.mp hentry with hentry | hentry
  · obtain ⟨written, -, rfl⟩ := List.mem_map.mp hentry
    exact distinct_writeType written.2
  · obtain ⟨kind, -, hentry⟩ := List.mem_flatMap.mp hentry
    unfold writeSection at hentry
    split at hentry
    · cases hentry
    · cases List.mem_singleton.mp hentry
      exact distinct_object (h.operations kind) fun operation _ =>
        distinct_writeOperation operation.2

end SchemaLiteral

namespace SchemaDraft

open SchemaLiteral

variable {declarations : List Declaration}

theorem distinct_of_writable (h : Writable declarations) : Distinct (declarations.map .ok) := by
  refine ⟨?_, ?_, ?_⟩
  · rw [List.filterMap_map]
    exact h.types
  · intro kind
    rw [List.filterMap_map]
    exact h.operations kind
  · intro scalar codec hmem
    obtain ⟨declaration, hdeclaration, heq⟩ := List.mem_map.mp hmem
    cases heq
    cases List.all_eq_true.mp h.each _ hdeclaration

theorem ofJson_write (h : Writable declarations) :
    ofJson (write declarations) = empty.addAll (declarations.map .ok) := by
  have hread := holds_addAll (distinct_read (distinct_write h))
  apply hread.eq (holds_addAll (distinct_of_writable h))
  · rw [types_of_read_write h, List.filterMap_map]
    rfl
  · intro kind
    rw [operations_of_read_write h, List.filterMap_map]
    rfl
  · rw [errors_of_read_write h, List.filterMap_map]
    exact (List.filterMap_eq_nil_iff.mpr fun _ _ => rfl).symm

end SchemaDraft

/-- A written literal repeats no key, and reading it gives the schema, or the list of errors, that
the declarations give one by one. -/
theorem literal_agrees_with_declarations {declarations : List Declaration}
    (h : SchemaLiteral.Writable declarations) :
    (SchemaLiteral.write declarations).all Json.hasDistinctKeys = true ∧
      Schema.ofJson (SchemaLiteral.write declarations) =
        (declarations.foldl SchemaDraft.declare .empty).build := by
  refine ⟨SchemaLiteral.distinct_write h, ?_⟩
  rw [Schema.ofJson, SchemaDraft.ofJson_write h, SchemaDraft.addAll, List.foldl_map]
  rfl

/-- Operations stand among the types, and `Shelf` is used before it is declared. -/
def libraryDeclarations : List Declaration := [
  .operation .query "book" ⟨some (.ofList [("isbn", "Isbn!"), ("shelf?", "Shelf")]), "Book"⟩,
  .type "Book" (.object (.ofList [
    ("title", ⟨none, "String!"⟩), ("copies", ⟨some (.ofList [("on?", "Shelf")]), "Int!"⟩),
    ("loans?", ⟨some .empty, "Int"⟩)])),
  .operation .mutation "close" ⟨none, "void"⟩,
  .type "Isbn" (.scalar "String" none),
  .operation .query "books" ⟨some .empty, "[Book!]!"⟩,
  .type "Shelf" (.enumeration ["NEW", "OLD"])]

def libraryOutline : Schema.Outline where
  types := [
    ("Book",
      "\x7b\"title\":\"String!\",\"copies\":[\x7b\"on?\":\"Shelf\"\x7d,\"Int!\"],\"loans?\":[\x7b\x7d,\"Int\"]\x7d"),
    ("Isbn", "\"String\""),
    ("Shelf", "\x7b\"__graphQLType\":\"enum\",\"values\":[\"NEW\",\"OLD\"]\x7d")]
  operations := [("Query.book", [("isbn", "Isbn!"), ("shelf", "Shelf")], "Book"),
    ("Query.books", [], "[Book!]!"), ("Mutation.close", [], "void")]

def damagedDeclarations : List Declaration := [
  .operation .mutation "close" ⟨none, "Key"⟩,
  .type "Book" (.object (.ofList [("copies", ⟨some (.ofList [("on?", "Shelf")]), "Int!"⟩)])),
  .type "2nd" (.enumeration ["NEW"])]

theorem library_agrees :
    (∃ schema, Schema.ofJson (SchemaLiteral.write libraryDeclarations) = .ok schema ∧
      (libraryDeclarations.foldl SchemaDraft.declare .empty).build = .ok schema ∧
      schema.outline = libraryOutline) ∧
    ∃ errors, Schema.ofJson (SchemaLiteral.write damagedDeclarations) = .error errors ∧
      (damagedDeclarations.foldl SchemaDraft.declare .empty).build = .error errors ∧
      errors.map SchemaError.message = ["'Shelf' is unresolvable (in Book.copies(on))",
        "Invalid definition of '2nd': type names must match [_A-Za-z][_0-9A-Za-z]*",
        "'Key' is unresolvable (in Mutation.close)"] := by
  constructor
  · have hwritable : SchemaLiteral.Writable libraryDeclarations := by
      refine ⟨by decide +kernel, by decide +kernel, ?_⟩
      intro kind
      cases kind <;> decide +kernel
    have hseen : Schema.outlineOf (libraryDeclarations.foldl SchemaDraft.declare .empty).build =
        .ok libraryOutline := by decide +kernel
    obtain ⟨schema, hschema, houtline⟩ := Schema.accepted_of_outline hseen
    have hagrees := (literal_agrees_with_declarations hwritable).2
    exact ⟨schema, hagrees.trans hschema, hschema, houtline⟩
  · have hwritable : SchemaLiteral.Writable damagedDeclarations := by
      refine ⟨by decide +kernel, by decide +kernel, ?_⟩
      intro kind
      cases kind <;> decide +kernel
    have hseen : Schema.outlineOf (damagedDeclarations.foldl SchemaDraft.declare .empty).build =
        .error ["'Shelf' is unresolvable (in Book.copies(on))",
          "Invalid definition of '2nd': type names must match [_A-Za-z][_0-9A-Za-z]*",
          "'Key' is unresolvable (in Mutation.close)"] := by decide +kernel
    obtain ⟨errors, herrors, hmessages⟩ := Schema.refused_of_outline hseen
    have hagrees := (literal_agrees_with_declarations hwritable).2
    exact ⟨errors, hagrees.trans herrors, herrors, hmessages⟩

end GraphQLClient
