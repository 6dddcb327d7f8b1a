import GraphQLClient.Proofs.AliasMeaning
import GraphQLClient.Proofs.CheckedSchemas

/-!
# What errors are about

Every error of a check names a place in the declaration that is checked, or in a scalar that leads
nowhere.
-/
namespace GraphQLClient

open Outcome

/-- The place in a schema that an error names. -/
def SchemaError.place : SchemaError → String
  | duplicateType name => name
  | reservedTypeName name => name
  | badExpression location _ _ => location
  | unresolvable _ location _ _ => location
  | resolutionDepthExceeded name _ => name
  | nestedList _ location => location
  | invalidDefinition name _ => name
  | invalidOperation kind name _ => Operation.location kind name
  | unknownOperation kind name => Operation.location kind name
  | autoSelectRequiresArguments typeName field => SchemaCheck.fieldLocation typeName field
  | autoSelectCycle typeName _ _ => typeName
  | unknownField typeName field => SchemaCheck.fieldLocation typeName field
  | missingSelection typeName field => SchemaCheck.fieldLocation typeName field
  | unexpectedSelection typeName field => SchemaCheck.fieldLocation typeName field
  | missingArgument typeName field argument =>
    SchemaCheck.argumentLocation (SchemaCheck.fieldLocation typeName field) argument
  | invalidArguments typeName field _ => SchemaCheck.fieldLocation typeName field
  | notAnObject typeName => typeName

def signaturePlaces (location : String) (input : Option InputDefinition) : List String :=
  location :: (input.getD .empty).fields.map fun field =>
    SchemaCheck.argumentLocation location field.name

def TypeDefinition.places (name : String) : TypeDefinition → List String
  | .object fields => name :: fields.entries.flatMap fun (declared, field) =>
    signaturePlaces (SchemaCheck.fieldLocation name (Text.baseName declared)) field.input
  | .scalar _ _ => [name, Trail.scalarLocation name]
  | .enumeration _ => [name]

theorem TypeDefinition.name_mem_places (name : String) (definition : TypeDefinition) :
    name ∈ definition.places name := by
  cases definition <;> exact List.mem_cons_self

namespace TypeTable

variable {types : TypeTable} {error : SchemaError}

/-- The scalar has no chain of aliases that can be followed to its end. -/
def LeadsNowhere (types : TypeTable) (scalar : String) : Prop :=
  (∃ aliasExpr codec, types.get? scalar = some (.scalar aliasExpr codec)) ∧
    ∀ links target, AliasChain types scalar links target → maxAliases < links.length

def BlamesScalar (types : TypeTable) (error : SchemaError) : Prop :=
  ∃ scalar, types.LeadsNowhere scalar ∧ error.place ∈ [scalar, Trail.scalarLocation scalar]

inductive FollowError (types : TypeTable) (declared location : String) (steps : Nat) (trail : Trail)
    (error : SchemaError) : Prop where
  /-- A list comes into the list that is the expression or one of its aliases. -/
  | nested : error.place = location → FollowError types declared location steps trail error
  | undeclared : error.place = trail.location →
      (∀ links target, ¬ AliasChain types trail.current.core links target) →
      FollowError types declared location steps trail error
  | blamed : types.BlamesScalar error → FollowError types declared location steps trail error
  | endless : error.place = declared →
      (∀ links target, AliasChain types trail.current.core links target → steps ≤ links.length) →
      (steps ≠ 0 → ∃ aliasExpr codec,
        types.get? trail.current.core = some (.scalar aliasExpr codec)) →
      FollowError types declared location steps trail error

theorem follow_error {declared : TypeRef} {expr location : String} {steps : Nat} {trail : Trail}
    (h : follow types declared expr location steps trail = .error error) :
    FollowError types declared.core location steps trail error := by
  induction steps generalizing trail with
  | zero =>
    cases h
    exact .endless rfl (fun _ _ _ => Nat.zero_le _) fun hne => absurd rfl hne
  | succ steps ih =>
    simp only [follow] at h
    split at h
    · cases h
    rename_i hb
    split at h
    · rename_i hget
      cases h
      refine .undeclared rfl ?_
      intro links target hchain
      exact hchain.not_of_undeclared hb hget
    · cases h
    · cases h
    rename_i aliasExpr codec hget
    rcases bind_eq_error.mp h with hbad | ⟨next, hparse, h⟩
    · obtain ⟨fault, hfault, rfl⟩ := mapError_eq_error.mp hbad
      refine .blamed ⟨trail.current.core, ⟨⟨aliasExpr, codec, hget⟩, ?_⟩, ?_⟩
      · intro links target hchain
        obtain ⟨next, hnext⟩ := hchain.alias_parses hb hget
        cases hfault.symm.trans hnext
      · exact List.mem_cons_of_mem _ List.mem_cons_self
    · have hstep : types.AliasTo trail.current.core next.core :=
        ⟨hb, aliasExpr, codec, next, hget, mapError_eq_ok.mp hparse, rfl⟩
      split at h
      · rename_i moved hmoved
        have hcurrent : moved.current = next := Trail.advance?_current hmoved
        cases ih h with
        | nested hplace => exact .nested hplace
        | blamed hblamed => exact .blamed hblamed
        | undeclared hplace hnone =>
          -- The undeclared name stands in the alias of the scalar that was passed last.
          refine .blamed ⟨trail.current.core, ⟨⟨aliasExpr, codec, hget⟩, ?_⟩, ?_⟩
          · intro links target hchain
            obtain ⟨link, rest, -, hrest⟩ := hchain.of_aliasTo hstep
            exact absurd (hcurrent ▸ hrest) (hnone rest target)
          · rw [hplace, (Trail.advance?_cases hmoved).2.1]
            exact List.mem_cons_of_mem _ List.mem_cons_self
        | endless hplace hlong =>
          refine .endless hplace ?_ fun _ => ⟨aliasExpr, codec, hget⟩
          intro links target hchain
          obtain ⟨link, rest, rfl, hrest⟩ := hchain.of_aliasTo hstep
          exact Nat.succ_le_succ (hlong rest target (hcurrent ▸ hrest))
      · cases h
        exact .nested rfl

/-- An expression that does not resolve is at fault itself, or a scalar is that leads nowhere. -/
theorem resolve_error {expr location : String} (h : types.resolve expr location = .error error) :
    error.place = location ∨ types.BlamesScalar error := by
  rcases bind_eq_error.mp h with hbad | ⟨declared, -, h⟩
  · obtain ⟨fault, -, rfl⟩ := mapError_eq_error.mp hbad
    exact Or.inl rfl
  · split_ifs at h with hvoid
    · exact absurd h pure_ne_error
    · cases follow_error h with
      | nested hplace => exact Or.inl hplace
      | undeclared hplace => exact Or.inl hplace
      | blamed hblamed => exact Or.inr hblamed
      | endless hplace hlong hscalar =>
        refine Or.inr ⟨declared.core, ⟨hscalar (Nat.succ_ne_zero _), ?_⟩, ?_⟩
        · intro links target hchain
          exact Nat.lt_of_succ_le (hlong links target hchain)
        · rw [hplace]
          exact List.mem_cons_self

end TypeTable

namespace SchemaCheck

variable {types : TypeTable} {error : SchemaError}

theorem exprErrors_place {expr location : String} {voidAllowed : Bool}
    (h : error ∈ exprErrors types expr location voidAllowed) :
    error.place = location ∨ types.BlamesScalar error := by
  unfold exprErrors at h
  split at h
  · split_ifs at h
    · cases List.mem_singleton.mp h
      exact Or.inl rfl
    · cases h
  · rename_i herror
    cases List.mem_singleton.mp h
    exact TypeTable.resolve_error herror

theorem fieldNameErrors_place {location name : String} (h : error ∈ fieldNameErrors location name) :
    error.place = location := by
  unfold fieldNameErrors at h
  split_ifs at h
  · cases h
  · cases List.mem_singleton.mp h
    rfl

theorem typeNameErrors_place {name : String} (h : error ∈ typeNameErrors name) :
    error.place = name := by
  unfold typeNameErrors at h
  split_ifs at h
  · cases List.mem_singleton.mp h
    rfl
  · cases List.mem_singleton.mp h
    rfl
  · cases List.mem_singleton.mp h
    rfl
  · cases h

theorem enumValueErrors_place {name : String} {earlier values : List String}
    (h : error ∈ enumValueErrors name earlier values) : error.place = name := by
  induction values generalizing earlier with
  | nil => cases h
  | cons value rest ih =>
    rcases List.mem_append.mp h with hvalue | hrest
    · split_ifs at hvalue
      · cases List.mem_singleton.mp hvalue
        rfl
      · cases List.mem_singleton.mp hvalue
        rfl
      · cases hvalue
    · exact ih hrest

theorem enumErrors_place {name : String} {values : List String}
    (h : error ∈ enumErrors name values) :
    error.place = name := by
  rcases List.mem_append.mp h with hempty | hvalues
  · split_ifs at hempty
    · cases List.mem_singleton.mp hempty
      rfl
    · cases hempty
  · exact enumValueErrors_place hvalues

def signatureErrors (types : TypeTable) (location name : String) (input : Option InputDefinition)
    (output : String) (voidAllowed : Bool) : List SchemaError :=
  fieldNameErrors location name ++
    (match input with
    | some input => inputErrors types location input
    | none => []) ++
    exprErrors types output location voidAllowed

theorem fieldErrors_eq (types : TypeTable) (typeName declared : String) (field : FieldDefinition) :
    fieldErrors types typeName declared field =
      signatureErrors types (fieldLocation typeName (Text.baseName declared))
        (Text.baseName declared) field.input field.output false := rfl

theorem operationErrors_eq (types : TypeTable) (kind : OperationKind) (name : String)
    (signature : OperationSignature) :
    operationErrors types kind name signature =
      signatureErrors types (Operation.location kind name) (Text.baseName name) signature.input
        signature.output true := rfl

theorem inputErrors_place {location : String} {input : InputDefinition}
    (h : error ∈ inputErrors types location input) :
    error.place ∈ signaturePlaces location (some input) ∨ types.BlamesScalar error := by
  obtain ⟨field, hfield, herror⟩ := List.mem_flatMap.mp h
  have hmem : argumentLocation location field.name ∈ signaturePlaces location (some input) :=
    List.mem_cons_of_mem _ (List.mem_map_of_mem hfield)
  rcases List.mem_append.mp herror with hname | hexpr
  · rw [fieldNameErrors_place hname]
    exact Or.inl hmem
  · rcases exprErrors_place hexpr with hplace | hblamed
    · rw [hplace]
      exact Or.inl hmem
    · exact Or.inr hblamed

theorem signatureErrors_place {location name output : String} {input : Option InputDefinition}
    {voidAllowed : Bool}
    (h : error ∈ signatureErrors types location name input output voidAllowed) :
    error.place ∈ signaturePlaces location input ∨ types.BlamesScalar error := by
  rcases List.mem_append.mp h with hfront | houtput
  · rcases List.mem_append.mp hfront with hname | hinput
    · rw [fieldNameErrors_place hname]
      exact Or.inl List.mem_cons_self
    · cases input with
      | none => cases hinput
      | some input => exact inputErrors_place hinput
  · rcases exprErrors_place houtput with hplace | hblamed
    · rw [hplace]
      exact Or.inl List.mem_cons_self
    · exact Or.inr hblamed

theorem typeErrors_place {name : String} {definition : TypeDefinition}
    (h : error ∈ typeErrors types name definition) :
    error.place ∈ definition.places name ∨ types.BlamesScalar error := by
  rcases List.mem_append.mp h with hname | hdefinition
  · rw [typeNameErrors_place hname]
    exact Or.inl (definition.name_mem_places name)
  · cases definition with
    | object fields =>
      obtain ⟨⟨declared, field⟩, hfield, herror⟩ := List.mem_flatMap.mp hdefinition
      change error ∈ fieldErrors types name declared field at herror
      rw [fieldErrors_eq] at herror
      refine (signatureErrors_place herror).imp_left fun hplace => ?_
      exact List.mem_cons_of_mem _ (List.mem_flatMap.mpr ⟨(declared, field), hfield, hplace⟩)
    | scalar aliasExpr codec =>
      rcases exprErrors_place hdefinition with hplace | hblamed
      · rw [hplace]
        exact Or.inl (List.mem_cons_of_mem _ List.mem_cons_self)
      · exact Or.inr hblamed
    | enumeration values =>
      rw [enumErrors_place hdefinition]
      exact Or.inl List.mem_cons_self

theorem operationErrors_place {kind : OperationKind} {name : String}
    {signature : OperationSignature} (h : error ∈ operationErrors types kind name signature) :
    error.place ∈ signaturePlaces (Operation.location kind name) signature.input ∨
      types.BlamesScalar error := by
  rw [operationErrors_eq] at h
  exact signatureErrors_place h

end SchemaCheck

end GraphQLClient
