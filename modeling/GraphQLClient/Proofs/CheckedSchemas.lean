import GraphQLClient.Proofs.ListItems
import GraphQLClient.Proofs.OrderedMaps
import GraphQLClient.Schema.Basic

/-!
# Checked schemas

A draft becomes a schema exactly when nothing is wrong with it, and then every type expression in it
resolves, also those that come up only later, such as the names of list items.
-/
namespace GraphQLClient

open Outcome

def expressionsOf (input : Option InputDefinition) (output : String) : List String :=
  (input.map OrderedMap.values).getD [] ++ [output]

def TypeDefinition.expressions : TypeDefinition → List String
  | .object fields => fields.values.flatMap fun field => expressionsOf field.input field.output
  | .scalar aliasExpr _ => [aliasExpr]
  | .enumeration _ => []

def Schema.expressions (schema : Schema) : List String :=
  schema.types.values.flatMap TypeDefinition.expressions ++
    schema.sections.toList.flatMap fun (_, _, signature) =>
      expressionsOf signature.input signature.output

namespace TypeTable

variable {types : TypeTable}

structure Sound (types : TypeTable) : Prop where
  void_undeclared : types.get? voidName = none
  expressions_resolve : ∀ {name definition}, types.get? name = some definition →
    ∀ expr ∈ definition.expressions, types.Resolves expr

theorem Resolves.resolve {expr : String} (h : types.Resolves expr) (location : String) :
    ∃ r, types.resolve expr location = .ok r :=
  h.imp fun _ hr => hr location

theorem Resolves.chain {name : String} (hname : Text.isName name) (hvoid : name ≠ voidName)
    (h : types.Resolves name) :
    ∃ links target, AliasChain types name links target ∧ links.length ≤ maxAliases ∧
      links.countP AliasLink.isList ≤ 1 := by
  obtain ⟨_, hself⟩ := TypeExpr.parse_of_isName hname
  obtain ⟨_, hparse, hrest⟩ := resolves_iff.mp h
  cases hself.symm.trans hparse
  obtain ⟨links, target, hchain, hlen, hcount⟩ := hrest.resolve_left hvoid
  exact ⟨links, target, hchain, hlen, (Nat.le_add_left _ _).trans hcount⟩

/-- The items of a list are of a type that resolves by itself, though it was not checked so. -/
theorem resolves_element (hs : types.Sound) {expr location element : String} {r : Resolved}
    (h : types.resolve expr location = .ok r) (he : r.element = some element) :
    types.Resolves element := by
  obtain ⟨item, hitem, -⟩ := resolve_element hs.void_undeclared h he
  exact ⟨item, hitem⟩

/-- A scalar is checked under its own name, which settles its alias. -/
theorem resolves_alias (hv : types.get? voidName = none) {name aliasExpr : String}
    {codec : Option Codec} (hname : Text.isName name) (hb : BuiltinScalar.ofName? name = none)
    (hget : types.get? name = some (.scalar aliasExpr codec)) (h : types.Resolves name) :
    types.Resolves aliasExpr := by
  obtain ⟨span, hself⟩ := TypeExpr.parse_of_isName hname
  obtain ⟨declared, hparse, hrest⟩ := resolves_iff.mp h
  cases hself.symm.trans hparse
  have hne : name ≠ voidName := by
    rintro rfl
    simp [hv] at hget
  obtain ⟨links, target, hc, hlen, hcount⟩ := hrest.resolve_left hne
  cases hc with
  | builtin hs => simp [hb] at hs
  | object _ hget' => simp [hget] at hget'
  | enumeration _ hget' => simp [hget] at hget'
  | scalar _ hget' hnext hc =>
    cases hget.symm.trans hget'
    refine resolves_iff.mpr ⟨_, hnext, Or.inr ⟨_, target, hc, ?_, ?_⟩⟩
    · simp only [List.length_cons] at hlen
      omega
    · rw [AliasLink.countP_isList_cons] at hcount
      exact (Nat.le_add_left _ _).trans hcount

end TypeTable

namespace SchemaCheck

variable {types : TypeTable} {sections : OperationSections}

theorem resolves_of_exprErrors {expr location : String} {voidAllowed : Bool}
    (h : exprErrors types expr location voidAllowed = []) : types.Resolves expr := by
  unfold exprErrors at h
  split at h
  · rename_i r hr
    exact TypeTable.resolves_of_resolve location hr
  · cases h

theorem resolves_of_inputErrors {location : String} {input : InputDefinition}
    (h : inputErrors types location input = []) : ∀ expr ∈ input.values, types.Resolves expr := by
  intro expr hexpr
  obtain ⟨name, hmem⟩ := OrderedMap.mem_values_iff.mp hexpr
  have hfield : InputField.ofEntry (name, expr) ∈ InputDefinition.fields input :=
    List.mem_map_of_mem hmem
  have hnone := List.flatMap_eq_nil_iff.mp h _ hfield
  exact resolves_of_exprErrors (List.append_eq_nil_iff.mp hnone).2

/-- Fields and operations are checked alike: the names, the input, the output. -/
theorem resolves_expressionsOf {input : Option InputDefinition} {output location : String}
    {voidAllowed : Bool}
    (hinput : (match input with
      | some input => inputErrors types location input
      | none => []) = [])
    (houtput : exprErrors types output location voidAllowed = []) :
    ∀ expr ∈ expressionsOf input output, types.Resolves expr := by
  intro expr hexpr
  rcases List.mem_append.mp hexpr with hexpr | hexpr
  · cases input with
    | none => cases hexpr
    | some input => exact resolves_of_inputErrors hinput expr hexpr
  · cases List.mem_singleton.mp hexpr
    exact resolves_of_exprErrors houtput

theorem typeNameErrors_eq_nil {name : String} (h : typeNameErrors name = []) :
    BuiltinScalar.ofName? name = none ∧ name ≠ voidName ∧ Text.isName name := by
  unfold typeNameErrors at h
  split_ifs at h with h₁ h₂ h₃
  simp only [Bool.or_eq_true, not_or, Option.not_isSome_iff_eq_none, beq_iff_eq] at h₁
  exact ⟨h₁.1, h₁.2, by simpa using h₃⟩

theorem errors_eq_nil (h : errors types sections = []) :
    (∀ entry ∈ types.entries, typeErrors types entry.1 entry.2 = []) ∧
      ∀ entry ∈ sections.toList, operationErrors types entry.1 entry.2.1 entry.2.2 = [] := by
  obtain ⟨htypes, hoperations⟩ := List.append_eq_nil_iff.mp h
  exact ⟨List.flatMap_eq_nil_iff.mp htypes, List.flatMap_eq_nil_iff.mp hoperations⟩

theorem sound_of_errors_eq_nil (h : errors types sections = []) : types.Sound := by
  have htypes : ∀ {name definition}, types.get? name = some definition →
      typeErrors types name definition = [] :=
    fun hget => (errors_eq_nil h).1 _ (OrderedMap.get?_eq_some_iff.mp hget)
  have hvoid : types.get? voidName = none := by
    by_contra hne
    obtain ⟨definition, hget⟩ := Option.ne_none_iff_exists'.mp hne
    exact (typeNameErrors_eq_nil (List.append_eq_nil_iff.mp (htypes hget)).1).2.1 rfl
  refine ⟨hvoid, ?_⟩
  intro name definition hget expr hexpr
  obtain ⟨hname, hdefinition⟩ := List.append_eq_nil_iff.mp (htypes hget)
  obtain ⟨hb, -, hname⟩ := typeNameErrors_eq_nil hname
  cases definition with
  | object fields =>
    obtain ⟨field, hfield, hexpr⟩ := List.mem_flatMap.mp hexpr
    obtain ⟨declared, hentry⟩ := OrderedMap.mem_values_iff.mp hfield
    have hnone := List.flatMap_eq_nil_iff.mp hdefinition _ hentry
    obtain ⟨hfront, houtput⟩ := List.append_eq_nil_iff.mp hnone
    exact resolves_expressionsOf (List.append_eq_nil_iff.mp hfront).2 houtput expr hexpr
  | scalar aliasExpr codec =>
    cases List.mem_singleton.mp hexpr
    exact types.resolves_alias hvoid hname hb hget (resolves_of_exprErrors hdefinition)
  | enumeration values => cases hexpr

theorem scalar_resolves (h : errors types sections = []) {name aliasExpr : String}
    {codec : Option Codec} (hget : types.get? name = some (.scalar aliasExpr codec)) :
    BuiltinScalar.ofName? name = none ∧ name ≠ voidName ∧ Text.isName name ∧
    types.Resolves name := by
  have hnone := (errors_eq_nil h).1 _ (OrderedMap.get?_eq_some_iff.mp hget)
  obtain ⟨hnamed, hdefinition⟩ := List.append_eq_nil_iff.mp hnone
  obtain ⟨hb, hvoid, hname⟩ := typeNameErrors_eq_nil hnamed
  exact ⟨hb, hvoid, hname, resolves_of_exprErrors hdefinition⟩

theorem resolves_signature (h : errors types sections = []) {kind : OperationKind} {name : String}
    {signature : OperationSignature} (hmem : (kind, name, signature) ∈ sections.toList) :
    ∀ expr ∈ expressionsOf signature.input signature.output, types.Resolves expr := by
  have hnone := (errors_eq_nil h).2 _ hmem
  obtain ⟨hfront, houtput⟩ := List.append_eq_nil_iff.mp hnone
  exact resolves_expressionsOf (List.append_eq_nil_iff.mp hfront).2 houtput

end SchemaCheck

namespace Operation

variable {types : TypeTable} {kind : OperationKind} {name : String} {signature : OperationSignature}

theorem variablePairs_ok (location : String) {fields : List InputField}
    (h : ∀ field ∈ fields, types.Resolves field.expr) :
    ∃ pairs, variablePairs location fields = .ok pairs := by
  induction fields with
  | nil => exact ⟨[], rfl⟩
  | cons field rest ih =>
    obtain ⟨pairs, hpairs⟩ := ih fun other hother => h other (List.mem_cons_of_mem _ hother)
    obtain ⟨declared, hparse, -⟩ := TypeTable.resolves_iff.mp (h field List.mem_cons_self)
    simp only [variablePairs, variableType, TypeRef.parse, hparse, hpairs]
    exact ⟨_, rfl⟩

/-- A checked operation always compiles. -/
theorem compile_ok (kind : OperationKind) (name : String)
    (h : ∀ expr ∈ expressionsOf signature.input signature.output, types.Resolves expr) :
    ∃ o, compile types kind name signature = .ok o := by
  have hinput : ∀ field ∈ InputDefinition.fields (signature.input.getD .empty),
      types.Resolves field.expr := by
    intro field hfield
    obtain ⟨⟨declared, expr⟩, hmem, rfl⟩ := List.mem_map.mp hfield
    refine h expr (List.mem_append_left _ ?_)
    cases hi : signature.input with
    | none => rw [hi] at hmem; cases hmem
    | some input =>
      rw [hi] at hmem
      exact OrderedMap.mem_values_iff.mpr ⟨declared, hmem⟩
  obtain ⟨pairs, hpairs⟩ := variablePairs_ok (location kind name) hinput
  obtain ⟨r, hr⟩ := (h signature.output (List.mem_append_right _ List.mem_cons_self)).resolve
    (location kind name)
  simp only [compile, hpairs, hr]
  exact ⟨_, rfl⟩

theorem compile_eq_ok {o : Operation} (h : compile types kind name signature = .ok o) :
    ∃ pairs result, variablePairs (location kind name)
        (InputDefinition.fields (signature.input.getD .empty)) = .ok pairs ∧
      types.resolve signature.output (location kind name) = .ok result ∧
      o = {
        kind := kind
        name := name
        variableTypes := .ofList pairs
        returnType := signature.output
        required := InputDefinition.requiredNames (signature.input.getD .empty)
        optional := InputDefinition.optionalNames (signature.input.getD .empty)
        terminal := result.isTerminal
        shortcuts := .ofList (shortcutPairs (signature.input.getD .empty))
        input := signature.input.getD .empty } := by
  simp only [compile, bind_eq_ok, pure_eq_ok] at h
  obtain ⟨pairs, hpairs, result, hresult, rfl⟩ := h
  exact ⟨pairs, result, hpairs, hresult, rfl⟩

end Operation

namespace SchemaDraft

/-- What was wrong with the declarations themselves, then what the checker finds. -/
def problems (draft : SchemaDraft) : List SchemaError :=
  draft.errors ++ SchemaCheck.errors draft.types draft.sections

theorem compileAll_ok (types : TypeTable)
    (signatures : List (OperationKind × String × OperationSignature))
    (h : ∀ entry ∈ signatures, ∀ expr ∈ expressionsOf entry.2.2.input entry.2.2.output,
      types.Resolves expr) : ∃ operations, compileAll types signatures = .ok operations := by
  induction signatures with
  | nil => exact ⟨[], rfl⟩
  | cons entry rest ih =>
    obtain ⟨kind, name, signature⟩ := entry
    obtain ⟨o, ho⟩ := Operation.compile_ok kind name (h _ List.mem_cons_self)
    obtain ⟨operations, hoperations⟩ :=
      ih fun other hother => h other (List.mem_cons_of_mem _ hother)
    simp only [compileAll, ho, hoperations]
    exact ⟨_, rfl⟩

theorem mem_compileAll {types : TypeTable}
    {signatures : List (OperationKind × String × OperationSignature)} {operations : List Operation}
    (h : compileAll types signatures = .ok operations) {o : Operation} (ho : o ∈ operations) :
    ∃ kind name signature, (kind, name, signature) ∈ signatures ∧
      Operation.compile types kind name signature = .ok o := by
  induction signatures generalizing operations with
  | nil => cases h; cases ho
  | cons entry rest ih =>
    obtain ⟨kind, name, signature⟩ := entry
    simp only [compileAll, bind_eq_ok, pure_eq_ok] at h
    obtain ⟨first, hfirst, others, hothers, rfl⟩ := h
    rcases List.mem_cons.mp ho with rfl | ho
    · exact ⟨kind, name, signature, List.mem_cons_self, hfirst⟩
    · obtain ⟨kind', name', signature', hmem, hcompile⟩ := ih hothers ho
      exact ⟨kind', name', signature', List.mem_cons_of_mem _ hmem, hcompile⟩

/-- Only problems keep a draft from becoming a schema, and all of them are reported. -/
theorem build_cases (draft : SchemaDraft) :
    (draft.problems ≠ [] ∧ draft.build = .error draft.problems) ∨
      (draft.problems = [] ∧ ∃ operations,
        compileAll draft.types draft.sections.toList = .ok operations ∧
        draft.build = .ok ⟨draft.types, draft.sections, operations⟩) := by
  by_cases hnone : draft.problems = []
  · have hchecked := (List.append_eq_nil_iff.mp hnone).2
    obtain ⟨operations, hoperations⟩ := compileAll_ok draft.types draft.sections.toList
      fun _ hentry => SchemaCheck.resolves_signature hchecked hentry
    refine Or.inr ⟨hnone, operations, hoperations, ?_⟩
    rw [problems] at hnone
    simp only [build, hnone, hoperations]
  · refine Or.inl ⟨hnone, ?_⟩
    unfold build
    split
    · rename_i heq
      exact absurd heq hnone
    · rfl

theorem build_eq_ok {draft : SchemaDraft} {schema : Schema} (h : draft.build = .ok schema) :
    SchemaCheck.errors schema.types schema.sections = [] ∧
      compileAll schema.types schema.sections.toList = .ok schema.operations := by
  rcases draft.build_cases with ⟨-, herror⟩ | ⟨hnone, operations, hoperations, hok⟩
  · cases h.symm.trans herror
  · cases h.symm.trans hok
    exact ⟨(List.append_eq_nil_iff.mp hnone).2, hoperations⟩

def schema (draft : SchemaDraft) : Schema := draft.build.toOption.getD ⟨.empty, .empty, []⟩

theorem build_eq_schema {draft : SchemaDraft} (h : draft.problems = []) :
    draft.build = .ok draft.schema := by
  rcases draft.build_cases with ⟨hsome, -⟩ | ⟨-, operations, -, hok⟩
  · exact absurd h hsome
  · rw [schema, hok]
    rfl

theorem exists_operation {draft : SchemaDraft} (hnone : draft.problems = []) {α : Type}
    {view : Operation → α} {views : List α}
    (hviews : (compileAll draft.types draft.sections.toList).map (·.map view) = .ok views)
    {a : α} (ha : a ∈ views) :
    ∃ operations, draft.build = .ok ⟨draft.types, draft.sections, operations⟩ ∧
      ∃ o ∈ operations, view o = a := by
  rcases draft.build_cases with ⟨hsome, -⟩ | ⟨-, operations, hoperations, hok⟩
  · exact absurd hnone hsome
  rw [hoperations] at hviews
  have hmap : operations.map view = views := Except.ok.inj hviews
  exact ⟨operations, hok, List.mem_map.mp (hmap ▸ ha)⟩

theorem only_operation {draft : SchemaDraft} (hnone : draft.problems = []) {kind : OperationKind}
    {name returnType : String}
    (hviews : (compileAll draft.types draft.sections.toList).map
      (·.map fun o => (o.kind, o.name, o.returnType)) = .ok [(kind, name, returnType)]) :
    ∃ operations, draft.build = .ok ⟨draft.types, draft.sections, operations⟩ ∧
      ∃ o ∈ operations, o.kind = kind ∧ o.name = name ∧ o.returnType = returnType := by
  obtain ⟨operations, hok, o, ho, hview⟩ :=
    exists_operation hnone hviews (List.mem_singleton_self _)
  simp only [Prod.mk.injEq] at hview
  exact ⟨operations, hok, o, ho, hview⟩

end SchemaDraft

namespace Schema

variable {draft : SchemaDraft} {schema : Schema}

theorem sound_types (h : draft.build = .ok schema) : schema.types.Sound :=
  SchemaCheck.sound_of_errors_eq_nil (SchemaDraft.build_eq_ok h).1

theorem expressions_resolve (h : draft.build = .ok schema) :
    ∀ expr ∈ schema.expressions, schema.types.Resolves expr := by
  intro expr hexpr
  rcases List.mem_append.mp hexpr with hexpr | hexpr
  · obtain ⟨definition, hmem, hexpr⟩ := List.mem_flatMap.mp hexpr
    obtain ⟨name, hentry⟩ := OrderedMap.mem_values_iff.mp hmem
    exact (sound_types h).expressions_resolve (OrderedMap.get?_eq_some_iff.mpr hentry) expr hexpr
  · obtain ⟨⟨kind, name, signature⟩, hmem, hexpr⟩ := List.mem_flatMap.mp hexpr
    exact SchemaCheck.resolves_signature (SchemaDraft.build_eq_ok h).1 hmem expr hexpr

theorem operation_resolves (h : draft.build = .ok schema) {o : Operation}
    (ho : o ∈ schema.operations) :
    schema.types.Resolves o.returnType ∧
      ∀ expr ∈ o.input.values, schema.types.Resolves expr := by
  obtain ⟨hchecked, hcompiled⟩ := SchemaDraft.build_eq_ok h
  obtain ⟨kind, name, signature, hmem, hcompile⟩ := SchemaDraft.mem_compileAll hcompiled ho
  have hall := SchemaCheck.resolves_signature hchecked hmem
  obtain ⟨pairs, result, -, -, rfl⟩ := Operation.compile_eq_ok hcompile
  refine ⟨hall _ (List.mem_append_right _ List.mem_cons_self), ?_⟩
  intro expr hexpr
  refine hall expr (List.mem_append_left _ ?_)
  cases hi : signature.input with
  | none => simp only [hi, Option.getD_none] at hexpr; cases hexpr
  | some input => simpa only [hi, Option.getD_some, Option.map_some] using hexpr

end Schema

end GraphQLClient
