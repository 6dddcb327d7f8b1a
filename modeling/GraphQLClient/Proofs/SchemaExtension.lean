import GraphQLClient.Proofs.DeclarationOrder
import GraphQLClient.Proofs.FurtherDeclarations
import GraphQLClient.Proofs.LargerTables

/-!
# Extending a schema

Declarations under further names leave a schema as it is. What is wrong with the whole is wrong with
one of them, and without problems the whole answers for the operations of the schema as the schema
did.
-/
namespace GraphQLClient

namespace SchemaDraft.Enlarges

variable {schema : Schema} {further : List Entry} {base whole : SchemaDraft} {error : SchemaError}

theorem within (h : Enlarges schema further schema.toDraft whole) :
    schema.types.Within whole.types := h.types.kept

section Checked

variable (h : Enlarges schema further schema.toDraft whole) (hbuild : base.build = .ok schema)
include h hbuild

/-- A scalar of the schema leads somewhere, in the whole as well. -/
theorem blamed_isAbout (hblamed : whole.types.BlamesScalar error) : error.IsAbout further := by
  obtain ⟨scalar, ⟨⟨aliasExpr, codec, hget⟩, hnowhere⟩, hplace⟩ := hblamed
  rcases h.types.added _ _ hget with hold | ⟨-, hplaces⟩
  · obtain ⟨-, hvoid, hname, hresolves⟩ := SchemaCheck.scalar_resolves (build_eq_ok hbuild).1 hold
    obtain ⟨links, target, hchain, hlen, -⟩ := hresolves.chain hname hvoid
    have hlong := hnowhere links target (h.within.aliasChain hchain)
    omega
  · exact hplaces.isAbout hplace

/-- Nothing is wrong with the types of the schema in the whole either. -/
theorem typeErrors_eq_nil {name : String} {definition : TypeDefinition}
    (hget : schema.types.get? name = some definition) :
    SchemaCheck.typeErrors whole.types name definition = [] := by
  obtain ⟨htypes, -⟩ := SchemaCheck.errors_eq_nil (build_eq_ok hbuild).1
  exact h.within.typeErrors (htypes (name, definition) (OrderedMap.get?_eq_some_iff.mp hget))

theorem operationErrors_eq_nil {kind : OperationKind} {name : String}
    {signature : OperationSignature}
    (hget : (schema.sections.operations kind).get? name = some signature) :
    SchemaCheck.operationErrors whole.types kind name signature = [] := by
  obtain ⟨-, hoperations⟩ := SchemaCheck.errors_eq_nil (build_eq_ok hbuild).1
  have hmem : (kind, name, signature) ∈ schema.sections.toList :=
    OperationSections.mem_toList_of_get? hget
  exact h.within.operationErrors (hoperations (kind, name, signature) hmem)

theorem typeErrors_isAbout {name : String} {definition : TypeDefinition}
    (hget : whole.types.get? name = some definition)
    (herror : error ∈ SchemaCheck.typeErrors whole.types name definition) :
    error.IsAbout further := by
  rcases h.types.added _ _ hget with hold | ⟨-, hplaces⟩
  · rw [h.typeErrors_eq_nil hbuild hold] at herror
    cases herror
  · rcases SchemaCheck.typeErrors_place herror with hplace | hblamed
    · exact hplaces.isAbout hplace
    · exact h.blamed_isAbout hbuild hblamed

theorem operationErrors_isAbout {kind : OperationKind} {name : String}
    {signature : OperationSignature}
    (hget : (whole.sections.operations kind).get? name = some signature)
    (herror : error ∈ SchemaCheck.operationErrors whole.types kind name signature) :
    error.IsAbout further := by
  rcases (h.operations kind).added _ _ hget with hold | ⟨-, hplaces⟩
  · rw [h.operationErrors_eq_nil hbuild hold] at herror
    cases herror
  · rcases SchemaCheck.operationErrors_place herror with hplace | hblamed
    · exact hplaces.isAbout hplace
    · exact h.blamed_isAbout hbuild hblamed

theorem problems_isAbout : ∀ error ∈ whole.problems, error.IsAbout further := by
  intro error herror
  rcases List.mem_append.mp herror with hown | hchecked
  · exact h.errors error hown
  rcases List.mem_append.mp hchecked with htype | hoperation
  · obtain ⟨⟨name, definition⟩, hentry, htype⟩ := List.mem_flatMap.mp htype
    exact h.typeErrors_isAbout hbuild (OrderedMap.get?_eq_some_iff.mpr hentry) htype
  · obtain ⟨⟨kind, name, signature⟩, hentry, hoperation⟩ := List.mem_flatMap.mp hoperation
    exact h.operationErrors_isAbout hbuild (OperationSections.mem_toList hentry) hoperation

end Checked

end SchemaDraft.Enlarges

namespace Schema

variable {schema : Schema}

structure Conserves (schema extended : Schema) : Prop where
  definitions : ∀ name definition, schema.types.get? name = some definition →
    extended.types.get? name = some definition
  resolve : ∀ expr ∈ schema.expressions, ∀ location,
    extended.types.resolve expr location = schema.types.resolve expr location
  operations : ∀ o ∈ schema.operations, o ∈ extended.operations
  operation? : ∀ kind name o, schema.operation? kind name = some o →
    extended.operation? kind name = some o
  allFields : ∀ o ∈ schema.operations,
    extended.types.allFields o.returnType = schema.types.allFields o.returnType
  checkSelection : ∀ o ∈ schema.operations, ∀ parent field nodes,
    extended.types.checkSelection parent field o.returnType nodes =
      schema.types.checkSelection parent field o.returnType nodes
  serializeVariables : ∀ o ∈ schema.operations, ∀ values,
    extended.types.serializeVariables o values = schema.types.serializeVariables o values
  parseOutput : ∀ o ∈ schema.operations, ∀ value,
    extended.types.parseOutput o.returnType value = schema.types.parseOutput o.returnType value

theorem operation?_of_mem {base : SchemaDraft} (hbuild : base.build = .ok schema) {o : Operation}
    (ho : o ∈ schema.operations) : schema.operation? o.kind o.name = some o := by
  have hcompiled := (SchemaDraft.build_eq_ok hbuild).2
  cases hfound : schema.operation? o.kind o.name with
  | none =>
    have hnot := List.find?_eq_none.mp hfound o ho
    simp at hnot
  | some found =>
    have hsame := List.find?_some hfound
    simp only [Bool.and_eq_true, beq_iff_eq] at hsame
    rw [SchemaDraft.operation_unique hcompiled (List.mem_of_find?_eq_some hfound)
      ho hsame.1 hsame.2]

end Schema

namespace SchemaDraft.Enlarges

variable {schema extended : Schema} {further : List Entry} {base : SchemaDraft}

/-- An operation of the schema compiles to the same in what it was extended to. -/
theorem mem_operations (h : Enlarges schema further schema.toDraft extended.toDraft)
    (hbuild : base.build = .ok schema) (hextended : extended.toDraft.build = .ok extended)
    {o : Operation} (ho : o ∈ schema.operations) : o ∈ extended.operations := by
  obtain ⟨hchecked, hcompiled⟩ := build_eq_ok hbuild
  obtain ⟨kind, name, signature, hmem, hcompile⟩ := mem_compileAll hcompiled ho
  have hresolves := SchemaCheck.resolves_signature hchecked hmem signature.output
    (List.mem_append_right _ (List.mem_singleton_self _))
  rw [← h.within.compile kind name hresolves] at hcompile
  have hkept : (kind, name, signature) ∈ extended.sections.toList :=
    OperationSections.mem_toList_of_get? ((h.operations kind).kept _ _
      (OperationSections.mem_toList hmem))
  have hmap := map_compile (build_eq_ok hextended).2
  have hin : (.ok o : Except SchemaError Operation) ∈ extended.operations.map .ok := by
    rw [← hmap, ← hcompile]
    exact List.mem_map_of_mem hkept
  obtain ⟨other, hother, heq⟩ := List.mem_map.mp hin
  cases heq
  exact hother

theorem conserves {whole : SchemaDraft} (h : Enlarges schema further schema.toDraft whole)
    (hbuild : base.build = .ok schema) (hextended : whole.build = .ok extended) :
    schema.Conserves extended := by
  obtain rfl := eq_toDraft_of_build hextended
  have hwithin : schema.types.Within extended.types := h.within
  have hsound := Schema.sound_types hbuild
  have hoperation := fun {o} (ho : o ∈ schema.operations) => Schema.operation_resolves hbuild ho
  constructor
  · exact hwithin
  · intro expr hexpr location
    exact hwithin.resolve (Schema.expressions_resolve hbuild expr hexpr) location
  · intro o ho
    exact h.mem_operations hbuild hextended ho
  · intro kind name o ho
    have hmem := List.mem_of_find?_eq_some ho
    have hsame := List.find?_some ho
    simp only [Bool.and_eq_true, beq_iff_eq] at hsame
    rw [← hsame.1, ← hsame.2]
    exact Schema.operation?_of_mem hextended (h.mem_operations hbuild hextended hmem)
  · intro o ho
    exact hwithin.allFields hsound (hoperation ho).1
  · intro o ho parent field nodes
    exact hwithin.checkSelection hsound (hoperation ho).1 parent field nodes
  · intro o ho values
    exact hwithin.serializeVariables hsound (hoperation ho).2 values
  · intro o ho value
    exact hwithin.walk hsound .parse (hoperation ho).1 value

end SchemaDraft.Enlarges

/-- Further declarations under names that a schema lacks, anywhere among those of the schema:
nothing in the whole is wrong with the declarations of the schema, every error is about the further
ones, and a whole that builds conserves the schema. -/
theorem extension_conservative (entries further all : List SchemaDraft.Entry)
    (hall : Interleaves entries further all) (schema : Schema)
    (hbuild : (SchemaDraft.empty.addAll entries).build = .ok schema)
    (hnew : ∀ declaration, .ok declaration ∈ further → schema.Lacks declaration) :
    (∀ name definition, schema.types.get? name = some definition →
      SchemaCheck.typeErrors (SchemaDraft.empty.addAll all).types name definition = []) ∧
    (∀ kind name signature, (schema.sections.operations kind).get? name = some signature →
      SchemaCheck.operationErrors (SchemaDraft.empty.addAll all).types kind name signature = []) ∧
    (∀ errors, (SchemaDraft.empty.addAll all).build = .error errors →
      ∀ error ∈ errors, error.IsAbout further) ∧
    ∀ extended, (SchemaDraft.empty.addAll all).build = .ok extended →
    schema.Conserves extended := by
  have henlarged := SchemaDraft.enlarges_of_build hbuild hall hnew
  refine ⟨?_, ?_, ?_, ?_⟩
  · intro name definition hget
    exact henlarged.typeErrors_eq_nil hbuild hget
  · intro kind name signature hget
    exact henlarged.operationErrors_eq_nil hbuild hget
  · intro errors herrors
    rcases (SchemaDraft.empty.addAll all).build_cases with ⟨-, herror⟩ | ⟨-, operations, -, hok⟩
    · cases herrors.symm.trans herror
      exact henlarged.problems_isAbout hbuild
    · cases herrors.symm.trans hok
  · intro extended hextended
    exact henlarged.conserves hbuild hextended

def stallEntries : List SchemaDraft.Entry := [
  .ok (.type "Price" (.scalar "String" (some (.tagged "EUR ")))),
  .ok (.type "Fruit" (.object (.ofList [("name", ⟨none, "String!"⟩),
    ("price?", ⟨none, "Price"⟩)]))),
  .ok (.operation .query "fruit" ⟨some (.ofList [("below?", "Price")]), "Fruit"⟩)]

def cartEntries : List SchemaDraft.Entry := [
  .ok (.type "Cart" (.object (.ofList [("fruits", ⟨none, "[Fruit!]!"⟩),
    ("note?", ⟨none, "Note"⟩)]))),
  .ok (.type "Note" (.scalar "String" none)),
  .ok (.codec "Note" (.tagged "note:")),
  .ok (.operation .mutation "fill" ⟨some (.ofList [("note?", "Note")]), "Cart"⟩)]

def brokenEntries : List SchemaDraft.Entry := [
  .ok (.type "Cart" (.object (.ofList [("owner", ⟨none, "Owner"⟩), ("sum", ⟨none, "Sum"⟩)]))),
  .ok (.type "Sum" (.scalar "Total" none)),
  .ok (.type "Total" (.scalar "Sum" none)),
  .error (.invalidOperation .query "carts" .malformed)]

/-- The carts may stand in front of the fruit as well as behind it. -/
theorem stall_extended :
    ∃ schema, (SchemaDraft.empty.addAll stallEntries).build = .ok schema ∧
      (∃ extended, (SchemaDraft.empty.addAll (cartEntries ++ stallEntries)).build = .ok extended ∧
        schema.Conserves extended) ∧
      ∃ errors, (SchemaDraft.empty.addAll (stallEntries ++ brokenEntries)).build = .error errors ∧
        errors.map SchemaError.place = ["Query.carts", "Cart.owner", "Sum", "Sum", "Total"] ∧
        ∀ error ∈ errors, error.IsAbout brokenEntries := by
  let stall := SchemaDraft.empty.addAll stallEntries
  let carts := SchemaDraft.empty.addAll (cartEntries ++ stallEntries)
  let broken := SchemaDraft.empty.addAll (stallEntries ++ brokenEntries)
  have hstall : stall.build = .ok stall.schema := SchemaDraft.build_eq_schema (by decide +kernel)
  have hcarts : carts.build = .ok carts.schema := SchemaDraft.build_eq_schema (by decide +kernel)
  have hplaces : broken.problems.map SchemaError.place =
      ["Query.carts", "Cart.owner", "Sum", "Sum", "Total"] := by decide +kernel
  have hnewCarts := @Schema.lacks_of_all stall.schema cartEntries (by decide +kernel)
  have hnewBroken := @Schema.lacks_of_all stall.schema brokenEntries (by decide +kernel)
  obtain ⟨-, -, -, hconserves⟩ := extension_conservative stallEntries cartEntries _
    (interleaves_append cartEntries stallEntries).symm stall.schema hstall hnewCarts
  obtain ⟨-, -, habout, -⟩ := extension_conservative stallEntries brokenEntries _
    (interleaves_append stallEntries brokenEntries) stall.schema hstall hnewBroken
  refine ⟨_, hstall, ⟨_, hcarts, hconserves _ hcarts⟩, ?_⟩
  rcases broken.build_cases with ⟨-, herror⟩ | ⟨hnone, -⟩
  · exact ⟨_, herror, hplaces, habout _ herror⟩
  · rw [hnone] at hplaces
    cases hplaces

end GraphQLClient
