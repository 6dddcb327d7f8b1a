import GraphQLClient.Proofs.AcceptedSelections
import GraphQLClient.Proofs.HeaderReading
import GraphQLClient.Proofs.InputFields

/-!
# Declared names

Names come into a schema in many places, and nearly all of them are checked. Only the marker of an
optional field is let through behind the name of an operation, where it spoils every document of the
operation.
-/
namespace GraphQLClient

open Outcome

def TypeDefinition.names : TypeDefinition → List String
  | .object fields => fields.entries.flatMap fun (declared, field) =>
    Text.baseName declared :: (field.input.map InputDefinition.names).getD []
  | .scalar _ _ => []
  | .enumeration values => values

/-- All that a schema gives a name to, without markers. -/
def Schema.names (schema : Schema) : List String :=
  (schema.types.entries.flatMap fun (name, definition) => name :: definition.names) ++
    schema.sections.toList.flatMap fun (_, name, signature) =>
      Text.baseName name :: (signature.input.map InputDefinition.names).getD []

namespace SchemaCheck

variable {types : TypeTable} {sections : OperationSections}

theorem isName_of_enumValueErrors {name : String} {earlier values : List String}
    (h : enumValueErrors name earlier values = []) :
    ∀ value ∈ values, Text.isName value = true := by
  induction values generalizing earlier with
  | nil => exact nofun
  | cons value rest ih =>
    obtain ⟨hvalue, hrest⟩ := List.append_eq_nil_iff.mp h
    refine List.forall_mem_cons.mpr ⟨?_, ih hrest⟩
    split_ifs at hvalue with hname
    simpa using hname

theorem isName_of_input {input : Option InputDefinition} {location : String}
    (h : (match input with
      | some input => inputErrors types location input
      | none => []) = []) :
    ∀ name ∈ (input.map InputDefinition.names).getD [], Text.isName name = true := by
  intro name hname
  cases input with
  | none => cases hname
  | some input =>
    obtain ⟨field, hfield, rfl⟩ := List.mem_map.mp hname
    exact isName_of_inputErrors h field hfield

theorem isName_of_definitionErrors {name : String} {definition : TypeDefinition}
    (h : definitionErrors types name definition = []) :
    ∀ inner ∈ definition.names, Text.isName inner = true := by
  cases definition with
  | object fields =>
    intro inner hinner
    obtain ⟨⟨declared, field⟩, hentry, hinner⟩ := List.mem_flatMap.mp hinner
    have hnone := List.flatMap_eq_nil_iff.mp h _ hentry
    simp only [fieldErrors, List.append_eq_nil_iff] at hnone
    obtain ⟨⟨hname, hinput⟩, -⟩ := hnone
    rcases List.mem_cons.mp hinner with rfl | hinner
    · exact isName_of_fieldNameErrors hname
    · exact isName_of_input hinput inner hinner
  | scalar aliasExpr codec =>
    intro inner hinner
    cases hinner
  | enumeration values => exact isName_of_enumValueErrors (List.append_eq_nil_iff.mp h).2

theorem isName_of_operationErrors {kind : OperationKind} {name : String}
    {signature : OperationSignature} (h : operationErrors types kind name signature = []) :
    Text.isName (Text.baseName name) = true ∧
      ∀ inner ∈ (signature.input.map InputDefinition.names).getD [], Text.isName inner = true := by
  simp only [operationErrors, List.append_eq_nil_iff] at h
  exact ⟨isName_of_fieldNameErrors h.1.1, isName_of_input h.1.2⟩

end SchemaCheck

/-- All names of a schema are names, at whatever place they were declared. -/
theorem Schema.isName_of_mem_names {draft : SchemaDraft} {schema : Schema}
    (hok : draft.build = .ok schema) : ∀ name ∈ schema.names, Text.isName name = true := by
  obtain ⟨htypes, hoperations⟩ := SchemaCheck.errors_eq_nil (SchemaDraft.build_eq_ok hok).1
  intro name hname
  rcases List.mem_append.mp hname with hname | hname
  · obtain ⟨⟨typeName, definition⟩, hentry, hname⟩ := List.mem_flatMap.mp hname
    obtain ⟨htype, hdefinition⟩ := List.append_eq_nil_iff.mp (htypes _ hentry)
    rcases List.mem_cons.mp hname with rfl | hname
    · exact (SchemaCheck.typeNameErrors_eq_nil htype).2.2
    · exact SchemaCheck.isName_of_definitionErrors hdefinition name hname
  · obtain ⟨⟨kind, operation, signature⟩, hentry, hname⟩ := List.mem_flatMap.mp hname
    obtain ⟨hoperation, hinput⟩ := SchemaCheck.isName_of_operationErrors (hoperations _ hentry)
    rcases List.mem_cons.mp hname with rfl | hname
    · exact hoperation
    · exact hinput name hname

theorem Text.splitOptional_cases (declared : String) :
    splitOptional declared = (declared, false) ∨
      (splitOptional declared).2 = true ∧ declared = baseName declared ++ "?" := by
  unfold baseName splitOptional
  split_ifs with hmarker
  · refine Or.inr ⟨rfl, String.toList_injective ?_⟩
    have hsplit := List.dropLast_append_getLast? '?' hmarker
    simpa using hsplit.symm
  · exact Or.inl rfl

theorem Text.not_isName_marked (name : String) : ¬ isName (name ++ "?") = true := by
  intro h
  have hchar := isNameChar_of_isNameList h '?' (by simp)
  cases hchar

theorem InputField.DeclaredAs.exists_print {field : InputField} {type : String}
    (h : field.DeclaredAs type) :
    ∃ t : TypeRef, Text.isName t.core = true ∧ type = t.print := by
  cases h with
  | @required t _ hparse =>
    have hcore := TypeExpr.parse_core_isName hparse
    exact ⟨t, hcore, (TypeExpr.print_of_parse hparse).symm⟩
  | @optional t _ hparse =>
    have hcore := TypeExpr.parse_core_isName hparse
    exact ⟨t.toNullable, hcore, rfl⟩

namespace Schema

variable {draft : SchemaDraft} {schema : Schema} {o : Operation}

theorem isName_of_declares (hok : draft.build = .ok schema) {signature : OperationSignature}
    (hdeclares : schema.Declares o signature) :
    Text.isName (Text.baseName o.name) = true ∧
      ∀ field ∈ InputDefinition.fields o.input, Text.isName field.name = true := by
  have hnone := (SchemaCheck.errors_eq_nil (SchemaDraft.build_eq_ok hok).1).2 _ hdeclares.listed
  obtain ⟨hname, hinput⟩ := SchemaCheck.isName_of_operationErrors hnone
  refine ⟨hname, ?_⟩
  intro field hfield
  rw [hdeclares.input] at hfield
  cases hsignature : signature.input with
  | none =>
    rw [hsignature] at hfield
    cases hfield
  | some input =>
    rw [hsignature] at hfield hinput
    exact hinput _ (List.mem_map_of_mem hfield)

theorem exists_variables (hok : draft.build = .ok schema) (ho : o ∈ schema.operations) :
    ∃ vs : List Document.Variable, (∀ v ∈ vs, v.IsNamed) ∧
      vs.map Document.Variable.entry = o.variableTypes.entries := by
  obtain ⟨signature, hdeclares⟩ := exists_declares hok ho
  obtain ⟨pairs, hpairs, hheader⟩ := hdeclares.header
  have hentries : ∀ entry ∈ o.variableTypes.entries,
      ∃ v : Document.Variable, v.IsNamed ∧ v.entry = entry := by
    rintro ⟨name, type⟩ hentry
    rw [hheader] at hentry
    have hmem := OrderedMap.mem_of_get?_ofList (OrderedMap.get?_eq_some_iff.mpr hentry)
    obtain ⟨field, hfield, rfl, hdeclared⟩ := Operation.mem_variablePairs hpairs hmem
    obtain ⟨t, hcore, rfl⟩ := hdeclared.exists_print
    exact ⟨⟨field.name, t⟩, ⟨(isName_of_declares hok hdeclares).2 field hfield, hcore⟩, rfl⟩
  generalize o.variableTypes.entries = entries at hentries
  induction entries with
  | nil => exact ⟨[], nofun, rfl⟩
  | cons entry entries ih =>
    obtain ⟨⟨v, hv, rfl⟩, hrest⟩ := List.forall_mem_cons.mp hentries
    obtain ⟨vs, hvs, rfl⟩ := ih hrest
    exact ⟨v :: vs, List.forall_mem_cons.mpr ⟨hv, hvs⟩, rfl⟩

end Schema

/-- In a built schema all names are names. The one thing that may stand behind them is a marker
behind the name of an operation. Without it, a server reads the header and the call of every
document of the operation as what they were printed from, and with it none of them. -/
theorem declared_names_printed {draft : SchemaDraft} {schema : Schema}
    (hok : draft.build = .ok schema) :
    (∀ name ∈ schema.names, Text.isName name = true) ∧
    ∀ o ∈ schema.operations,
      (Text.isName o.name = true ↔ (Text.splitOptional o.name).2 = false) ∧
      ∃ vs : List Document.Variable, vs.map Document.Variable.entry = o.variableTypes.entries ∧
        ∀ nodes, Document.readHeader? (Document.print o.kind o.name o.variableTypes nodes).toList =
          if Text.isName o.name then
            some (Document.headerOf o.kind o.name vs, Document.closingPart nodes)
          else none := by
  refine ⟨Schema.isName_of_mem_names hok, ?_⟩
  intro o ho
  obtain ⟨signature, hdeclares⟩ := Schema.exists_declares hok ho
  obtain ⟨hbase, -⟩ := Schema.isName_of_declares hok hdeclares
  obtain ⟨vs, hvs, hentries⟩ := Schema.exists_variables hok ho
  have htext : ∀ nodes, (Document.print o.kind o.name o.variableTypes nodes).toList =
      Document.printList o.kind o.name (vs.map Document.Variable.entry) nodes := by
    intro nodes
    rw [Document.print, String.toList_ofList, hentries]
  rcases Text.splitOptional_cases o.name with hplain | ⟨hmarked, hname⟩
  · have hname : Text.isName o.name = true := by
      rwa [Text.baseName, hplain] at hbase
    refine ⟨iff_of_true hname (congrArg Prod.snd hplain), vs, hentries, ?_⟩
    intro nodes
    rw [htext, if_pos hname, Document.readHeader?_printList hname hvs]
  · have hnot : ¬ Text.isName o.name = true := by
      rw [hname]
      exact Text.not_isName_marked _
    refine ⟨iff_of_false hnot (by simp [hmarked]), vs, hentries, ?_⟩
    intro nodes
    rw [htext, if_neg hnot, hname, Document.readHeader?_marked hbase]

def directoryDraft : SchemaDraft :=
  SchemaDraft.empty.addAll [
    .ok (.type "Role" (.enumeration ["ADMIN", "GUEST"])),
    .ok (.type "User" (.object (.ofList [
      ("id", ⟨none, "ID!"⟩), ("role?", ⟨some (.ofList [("at?", "Int")]), "Role"⟩)]))),
    .ok (.operation .query "users" ⟨some (.ofList [("ids", "[ID!]!"), ("role?", "Role!")]),
      "[User!]"⟩)]

theorem directory_printed :
    ∃ schema, directoryDraft.build = .ok schema ∧
      (∀ name ∈ schema.names, Text.isName name = true) ∧
      ∃ o ∈ schema.operations, Text.isName o.name = true ∧
        Document.print o.kind o.name o.variableTypes [] =
          "query users($ids: [ID!]!, $role: Role) \x7b\n  users(ids: $ids, role: $role)\n\x7d" ∧
        ∃ vs : List Document.Variable,
          vs.map Document.Variable.entry = [("ids", "[ID!]!"), ("role", "Role")] ∧
          Document.readHeader? (Document.print o.kind o.name o.variableTypes []).toList =
            some (Document.headerOf .query "users" vs, "\n\x7d".toList) := by
  have hviews : (SchemaDraft.compileAll directoryDraft.types directoryDraft.sections.toList).map
      (·.map fun o => (o.kind, o.name, o.variableTypes.entries)) =
        .ok [(.query, "users", [("ids", "[ID!]!"), ("role", "Role")])] := by decide +kernel
  obtain ⟨operations, hok, o, ho, hview⟩ :=
    SchemaDraft.exists_operation (by decide +kernel) hviews (List.mem_singleton_self _)
  simp only [Prod.mk.injEq] at hview
  obtain ⟨hkind, hname, hentries⟩ := hview
  have hisName : Text.isName o.name = true := by
    rw [hname]
    decide
  obtain ⟨hnames, hoperations⟩ := declared_names_printed hok
  obtain ⟨-, vs, hvs, hread⟩ := hoperations o ho
  have hheader := hread []
  rw [if_pos hisName, hkind, hname] at hheader
  refine ⟨_, hok, hnames, o, ho, hisName, ?_, vs, hvs.trans hentries, ?_⟩
  · rw [Document.print, hkind, hname, hentries]
    decide
  · rw [hkind, hname]
    exact hheader

def markedDraft : SchemaDraft :=
  SchemaDraft.empty.addAll [.ok (.operation .query "count?" ⟨none, "Int"⟩)]

theorem marked_not_printed :
    ∃ schema, markedDraft.build = .ok schema ∧ ∃ o ∈ schema.operations, o.name = "count?" ∧
      Text.isName o.name = false ∧
      Document.print o.kind o.name o.variableTypes [] = "query count? \x7b\n  count?\n\x7d" ∧
      Document.readHeader? (Document.print o.kind o.name o.variableTypes []).toList = none := by
  have hviews : (SchemaDraft.compileAll markedDraft.types markedDraft.sections.toList).map
      (·.map fun o => (o.kind, o.name, o.variableTypes.entries)) =
        .ok [(.query, "count?", [])] := by
    decide +kernel
  obtain ⟨operations, hok, o, ho, hview⟩ :=
    SchemaDraft.exists_operation (by decide +kernel) hviews (List.mem_singleton_self _)
  simp only [Prod.mk.injEq] at hview
  obtain ⟨hkind, hname, hentries⟩ := hview
  have hprint : Document.print o.kind o.name o.variableTypes [] =
      "query count? \x7b\n  count?\n\x7d" := by
    rw [Document.print, hkind, hname, hentries]
    decide
  refine ⟨_, hok, o, ho, hname, ?_, hprint, ?_⟩
  · rw [hname]
    decide
  · rw [hprint]
    decide

end GraphQLClient
