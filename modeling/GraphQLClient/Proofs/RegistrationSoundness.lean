import GraphQLClient.Client.Request
import GraphQLClient.Proofs.InputFields
import GraphQLClient.Selection.Basic

/-!
# Registration is sound

In a schema without problems nothing fails to resolve later on: unfolding, checking and converting
fail for reasons of their own only.
-/
namespace GraphQLClient

open Outcome

/-- The two reasons why not all fields of a type can be selected. -/
def SchemaError.isUnfolding : SchemaError → Bool
  | autoSelectRequiresArguments _ _ => true
  | autoSelectCycle _ _ _ => true
  | _ => false

/-- What can be wrong with a selection from a type that resolves. -/
def SchemaError.isSelecting : SchemaError → Bool
  | unknownField _ _ => true
  | missingSelection _ _ => true
  | unexpectedSelection _ _ => true
  | missingArgument _ _ _ => true
  | invalidArguments _ _ _ => true
  | _ => false

namespace TypeTable

variable {types : TypeTable}

theorem object?_of_get? {name : String} {fields : ObjectDefinition}
    (h : types.get? name = some (.object fields)) : types.object? name = some fields := by
  rw [object?, h]

theorem get?_of_object? {name : String} {fields : ObjectDefinition}
    (h : types.object? name = some fields) : types.get? name = some (.object fields) := by
  unfold object? at h
  split at h
  · rename_i hget
    cases h
    exact hget
  · cases h

theorem mem_objectNames {name : String} {fields : ObjectDefinition}
    (h : types.object? name = some fields) : name ∈ types.objectNames := by
  have hentry := OrderedMap.get?_eq_some_iff.mp (get?_of_object? h)
  exact List.mem_filter.mpr ⟨List.mem_map_of_mem hentry, by rw [h]; rfl⟩

theorem object?_of_resolve {expr location name : String} {r : Resolved}
    (h : types.resolve expr location = .ok r) (ho : r.object? = some name) :
    ∃ fields, types.object? name = some fields := by
  have ht : r.target = .object name := by
    unfold Resolved.object? at ho
    split at ho
    · rename_i ht
      cases ho
      exact ht
    · cases ho
  obtain ⟨declared, -, ⟨-, rfl⟩ | ⟨-, links, target, last, hc, -, -, rfl⟩⟩ :=
    resolve_eq_ok_iff.mp h
  · cases ht
  · obtain ⟨fields, hget⟩ := hc.object_declared ht
    exact ⟨fields, object?_of_get? hget⟩

theorem Sound.output_resolves (hs : types.Sound) {name : String} {fields : ObjectDefinition}
    (ho : types.object? name = some fields) {declared : String} {field : FieldDefinition}
    (hf : (declared, field) ∈ fields.entries) : types.Resolves field.output := by
  refine hs.expressions_resolve (get?_of_object? ho) _ (List.mem_flatMap.mpr ⟨field, ?_, ?_⟩)
  · exact OrderedMap.mem_values_iff.mpr ⟨declared, hf⟩
  · exact List.mem_append_right _ (List.mem_singleton_self _)

theorem field?_mem {object : ObjectDefinition} {key : String} {field : FieldDefinition}
    (h : ObjectDefinition.field? object key = some field) :
    ∃ declared, (declared, field) ∈ object.entries ∧
      (key = declared ∨ key = Text.baseName declared) := by
  unfold ObjectDefinition.field? at h
  split at h
  · rename_i hget
    cases h
    exact ⟨key, OrderedMap.get?_eq_some_iff.mp hget, Or.inl rfl⟩
  · obtain ⟨⟨declared, found⟩, hfind, rfl⟩ := Option.map_eq_some_iff.mp h
    have hkey : Text.baseName declared = key := by simpa using List.find?_some hfind
    exact ⟨declared, List.mem_of_find?_eq_some hfind, Or.inr hkey.symm⟩

/-- Why the walk stops at a field, inside it or behind it. -/
theorem unfoldFields_cons_error {root : String} {free : List String} {typeName : String}
    {path : List String} {declared : String} {field : FieldDefinition}
    {fields : List (String × FieldDefinition)} {error : SchemaError}
    (hresolves : types.Resolves field.output)
    (h : types.unfoldFields root free typeName path ((declared, field) :: fields) = .error error) :
    (field.requiresArguments = true ∧
      error = .autoSelectRequiresArguments typeName (Text.baseName declared)) ∨
    types.unfoldFields root free typeName path fields = .error error ∨
    ∃ r child object,
      types.resolve field.output (SchemaCheck.fieldLocation typeName (Text.baseName declared)) =
        .ok r ∧
      r.object? = some child ∧ types.object? child = some object ∧
      ((child ∉ free ∧ error = .autoSelectCycle child root (path ++ [Text.baseName declared])) ∨
        (child ∈ free ∧ types.unfoldFields root (free.erase child) child
          (path ++ [Text.baseName declared]) object.entries = .error error)) := by
  obtain ⟨r, hr⟩ := hresolves.resolve (SchemaCheck.fieldLocation typeName (Text.baseName declared))
  rw [unfoldFields] at h
  split_ifs at h with hrequires
  · exact Or.inl ⟨hrequires, (throw_eq_error.mp h).symm⟩
  rcases bind_eq_error.mp h with h | ⟨r', hr', h⟩
  · cases hr.symm.trans h
  cases hr.symm.trans hr'
  right
  cases hchild : r.object? with
  | none =>
    simp only [hchild] at h
    rcases bind_eq_error.mp h with h | ⟨_, _, h⟩
    · exact Or.inl h
    · exact absurd h pure_ne_error
  | some child =>
    obtain ⟨object, hobject⟩ := object?_of_resolve hr hchild
    simp only [hchild] at h
    split_ifs at h with hfree
    · simp only [hobject] at h
      rcases bind_eq_error.mp h with h | ⟨_, _, h⟩
      · exact Or.inr ⟨r, child, object, hr, hchild, hobject, Or.inr ⟨hfree, h⟩⟩
      rcases bind_eq_error.mp h with h | ⟨_, _, h⟩
      · exact Or.inl h
      · exact absurd h pure_ne_error
    · exact Or.inr ⟨r, child, object, hr, hchild, hobject,
        Or.inl ⟨hfree, (throw_eq_error.mp h).symm⟩⟩

theorem unfoldFields_error (hs : types.Sound) {root : String} {free : List String}
    {typeName : String} {path : List String} {fields : List (String × FieldDefinition)}
    (hfields : ∀ entry ∈ fields, types.Resolves entry.2.output) {error : SchemaError}
    (h : types.unfoldFields root free typeName path fields = .error error) :
    error.isUnfolding := by
  induction free, typeName, path, fields using unfoldFields.induct types root with
  | case1 => simp only [unfoldFields, reduceCtorEq] at h
  | case2 free typeName path declared field rest name hreq =>
    simp only [unfoldFields, hreq, if_true] at h
    cases h
    rfl
  | case3 free typeName path declared field rest name hreq ihrest ihchild =>
    rcases unfoldFields_cons_error (hfields _ List.mem_cons_self) h with
      ⟨-, rfl⟩ | hrest | ⟨r, child, object, -, -, hobject, ⟨-, rfl⟩ | ⟨hfree, hinner⟩⟩
    · rfl
    · exact ihrest (fun entry hentry => hfields entry (List.mem_cons_of_mem _ hentry)) hrest
    · rfl
    · exact ihchild child hfree object (fun entry hentry =>
        hs.output_resolves hobject hentry) hinner

theorem allFields_error (hs : types.Sound) {expr : String} (hr : types.Resolves expr)
    {error : SchemaError} (h : types.allFields expr = .error error) : error.isUnfolding := by
  obtain ⟨r, hr⟩ := hr.resolve expr
  rcases bind_eq_error.mp h with h | ⟨r', hr', h⟩
  · cases hr.symm.trans h
  cases hr.symm.trans hr'
  cases ho : r.object? with
  | none =>
    simp only [ho] at h
    exact absurd h pure_ne_error
  | some root =>
    obtain ⟨object, hobject⟩ := object?_of_resolve hr ho
    simp only [ho, hobject] at h
    exact unfoldFields_error hs (fun entry hentry => hs.output_resolves hobject hentry) h

end TypeTable

namespace SelectionCheck

variable {types : TypeTable}

theorem checkArguments_error {typeName key : String} {given : Option Json} {field : FieldDefinition}
    {error : SchemaError} (h : checkArguments typeName key given field = .error error) :
    error.isSelecting := by
  simp only [checkArguments] at h
  split at h
  · cases h
  · cases h; rfl
  split at h
  · cases h; rfl
  split at h
  · cases h; rfl
  split at h
  · cases h; rfl
  · cases h

theorem selectedObject_error {parent field expr : String} {given : Bool} {error : SchemaError}
    (hr : types.Resolves expr)
    (h : selectedObject types parent field expr given = .error error) : error.isSelecting := by
  obtain ⟨r, hr⟩ := hr.resolve (SchemaCheck.fieldLocation parent field)
  rcases bind_eq_error.mp h with h | ⟨r', hr', h⟩
  · cases hr.symm.trans h
  cases hr.symm.trans hr'
  split at h
  all_goals cases h
  all_goals rfl

theorem selectedObject_ok {parent field expr name : String} {given : Bool}
    (h : selectedObject types parent field expr given = .ok (some name)) :
    ∃ fields, types.object? name = some fields := by
  obtain ⟨r, hr, h⟩ := bind_eq_ok.mp h
  split at h
  · rename_i ho _
    cases h
    exact TypeTable.object?_of_resolve hr ho
  all_goals cases h

theorem fieldOf_error {typeName key : String} {fields : ObjectDefinition}
    (ho : types.object? typeName = some fields) {error : SchemaError}
    (h : fieldOf types typeName key = .error error) : error.isSelecting := by
  simp only [fieldOf, ho] at h
  split at h
  · cases h; rfl
  · cases h

theorem fieldOf_resolves (hs : types.Sound) {typeName key : String} {field : FieldDefinition}
    (h : fieldOf types typeName key = .ok field) : types.Resolves field.output := by
  unfold fieldOf at h
  split at h
  · cases h
  rename_i object ho
  split at h
  · cases h
  rename_i found hfound
  cases h
  obtain ⟨declared, hmem, -⟩ := TypeTable.field?_mem hfound
  exact hs.output_resolves ho hmem

mutual

theorem checkNode_error (hs : types.Sound) {typeName : String} {fields : ObjectDefinition}
    (ho : types.object? typeName = some fields) {node : Node} {error : SchemaError}
    (h : checkNode types typeName node = .error error) : error.isSelecting := by
  cases node with
  | leaf key arguments =>
    simp only [checkNode] at h
    rcases bind_eq_error.mp h with h | ⟨field, hfield, h⟩
    · exact fieldOf_error ho h
    rcases bind_eq_error.mp h with h | ⟨_, _, h⟩
    · exact checkArguments_error h
    rcases bind_eq_error.mp h with h | ⟨_, _, h⟩
    · exact selectedObject_error (fieldOf_resolves hs hfield) h
    · exact absurd h pure_ne_error
  | block key arguments children =>
    simp only [checkNode] at h
    rcases bind_eq_error.mp h with h | ⟨field, hfield, h⟩
    · exact fieldOf_error ho h
    rcases bind_eq_error.mp h with h | ⟨_, _, h⟩
    · exact checkArguments_error h
    rcases bind_eq_error.mp h with h | ⟨selected, hselected, h⟩
    · exact selectedObject_error (fieldOf_resolves hs hfield) h
    cases selected with
    | none => exact absurd h pure_ne_error
    | some name =>
      obtain ⟨inner, hinner⟩ := selectedObject_ok hselected
      exact checkNodes_error hs hinner h

theorem checkNodes_error (hs : types.Sound) {typeName : String} {fields : ObjectDefinition}
    (ho : types.object? typeName = some fields) {nodes : List Node} {error : SchemaError}
    (h : checkNodes types typeName nodes = .error error) : error.isSelecting := by
  cases nodes with
  | nil => simp only [checkNodes, reduceCtorEq] at h
  | cons node rest =>
    simp only [checkNodes] at h
    rcases bind_eq_error.mp h with h | ⟨_, _, h⟩
    · exact checkNode_error hs ho h
    · exact checkNodes_error hs ho h

end

theorem checkSelection_error (hs : types.Sound) {parent field expr : String} {nodes : List Node}
    (hr : types.Resolves expr) {error : SchemaError}
    (h : types.checkSelection parent field expr nodes = .error error) : error.isSelecting := by
  rcases bind_eq_error.mp h with h | ⟨selected, hselected, h⟩
  · exact selectedObject_error hr h
  cases selected with
  | none => exact absurd h pure_ne_error
  | some name =>
    obtain ⟨fields, hfields⟩ := selectedObject_ok hselected
    exact checkNodes_error hs hfields h

end SelectionCheck

namespace TypeTable

variable {types : TypeTable}

theorem resolveAlone_ok {expr : String} (h : types.Resolves expr) :
    ∃ r, types.resolveAlone expr = .ok r ∧ types.resolve expr expr = .ok r := by
  obtain ⟨r, hr⟩ := h.resolve expr
  exact ⟨r, mapError_eq_ok.mpr hr, hr⟩

theorem convert_error {direction : Direction} {r : Resolved} {value : Json} {error : ClientError}
    (h : types.convert direction r value = .error error) : error.code = .scalarError := by
  unfold convert at h
  split at h
  · cases h
  · obtain ⟨reason, -, rfl⟩ := mapError_eq_error.mp h
    rfl

theorem convertAlone_error {direction : Direction} {expr : String} {value : Json}
    {error : ClientError} (hr : types.Resolves expr)
    (h : (do types.convert direction (← types.resolveAlone expr) value) = .error error) :
    error.code = .scalarError := by
  obtain ⟨r, hr, -⟩ := resolveAlone_ok hr
  rcases bind_eq_error.mp h with h | ⟨_, _, h⟩
  · cases hr.symm.trans h
  · exact convert_error h

def walkKnown (types : TypeTable) (direction : Direction) :
    Option String → Json → ClientResult Json
  | some expr, value => types.walk direction expr value
  | none, value => .ok value

@[simp] theorem walkFields_cons (direction : Direction) (object : ObjectDefinition) (key : String)
    (value : Json) (rest : List (String × Json)) :
    types.walkFields direction object ((key, value) :: rest) = (do
      let known := (ObjectDefinition.field? object key).map FieldDefinition.output
      let value ← types.walkKnown direction known value
      return (key, value) :: (← types.walkFields direction object rest)) := by
  simp only [walkFields]
  split
  · rename_i field hfield; rw [hfield]; rfl
  · rename_i hfield; rw [hfield]; rfl

@[simp] theorem serializeVariables_cons (o : Operation) (name : String) (value : Json)
    (rest : List (String × Json)) :
    types.serializeVariables o ((name, value) :: rest) = (do
      let value ← types.walkKnown .serialize (o.inputType? name) value
      return (name, value) :: (← types.serializeVariables o rest)) := by
  simp only [serializeVariables]
  split
  · rename_i expr hexpr; rw [hexpr]; rfl
  · rename_i hexpr; rw [hexpr]; rfl

mutual

theorem walk_error (hs : types.Sound) {direction : Direction} {expr : String} {value : Json}
    (hr : types.Resolves expr) {error : ClientError}
    (h : types.walk direction expr value = .error error) : error.code = .scalarError := by
  obtain ⟨r, hlone, hresolve⟩ := resolveAlone_ok hr
  cases value with
  | null => simp only [walk, reduceCtorEq] at h
  | bool b => simp only [walk] at h; exact convertAlone_error hr h
  | number n => simp only [walk] at h; exact convertAlone_error hr h
  | string s => simp only [walk] at h; exact convertAlone_error hr h
  | array items =>
    simp only [walk] at h
    rcases bind_eq_error.mp h with h | ⟨r', hr', h⟩
    · cases hlone.symm.trans h
    cases hlone.symm.trans hr'
    split at h
    · rename_i element he
      rcases bind_eq_error.mp h with h | ⟨_, _, h⟩
      · exact walkItems_error hs (resolves_element hs hresolve he) h
      · exact absurd h pure_ne_error
    · exact convert_error h
  | object fields =>
    simp only [walk] at h
    rcases bind_eq_error.mp h with h | ⟨r', hr', h⟩
    · cases hlone.symm.trans h
    cases hlone.symm.trans hr'
    split at h
    · split at h
      · rename_i object hobject
        rcases bind_eq_error.mp h with h | ⟨_, _, h⟩
        · exact walkFields_error hs hobject h
        · exact absurd h pure_ne_error
      · exact absurd h pure_ne_error
    · exact convert_error h

theorem walkItems_error (hs : types.Sound) {direction : Direction} {expr : String}
    {items : List Json} (hr : types.Resolves expr) {error : ClientError}
    (h : types.walkItems direction expr items = .error error) : error.code = .scalarError := by
  cases items with
  | nil => simp only [walkItems, reduceCtorEq] at h
  | cons item rest =>
    simp only [walkItems] at h
    rcases bind_eq_error.mp h with h | ⟨_, _, h⟩
    · exact walk_error hs hr h
    rcases bind_eq_error.mp h with h | ⟨_, _, h⟩
    · exact walkItems_error hs hr h
    · exact absurd h pure_ne_error

theorem walkFields_error (hs : types.Sound) {direction : Direction} {name : String}
    {object : ObjectDefinition} (ho : types.object? name = some object)
    {fields : List (String × Json)} {error : ClientError}
    (h : types.walkFields direction object fields = .error error) : error.code = .scalarError := by
  cases fields with
  | nil => simp only [walkFields, reduceCtorEq] at h
  | cons entry rest =>
    obtain ⟨key, value⟩ := entry
    rw [walkFields_cons] at h
    rcases bind_eq_error.mp h with h | ⟨_, _, h⟩
    · cases hfield : ObjectDefinition.field? object key with
      | none => simp only [hfield, Option.map_none, walkKnown, reduceCtorEq] at h
      | some field =>
        rw [hfield] at h
        obtain ⟨declared, hmem, -⟩ := field?_mem hfield
        exact walk_error hs (hs.output_resolves ho hmem) h
    rcases bind_eq_error.mp h with h | ⟨_, _, h⟩
    · exact walkFields_error hs ho h
    · exact absurd h pure_ne_error

end

theorem inputType?_mem {o : Operation} {name expr : String} (h : o.inputType? name = some expr) :
    expr ∈ o.input.values := by
  obtain ⟨field, hfield, rfl⟩ := Option.map_eq_some_iff.mp h
  obtain ⟨⟨declared, written⟩, hmem, rfl⟩ :=
    List.mem_map.mp (InputDefinition.field?_eq_some hfield).1
  exact OrderedMap.mem_values_iff.mpr ⟨declared, hmem⟩

theorem serializeVariables_error (hs : types.Sound) {o : Operation}
    (hinput : ∀ expr ∈ o.input.values, types.Resolves expr) {entries : List (String × Json)}
    {error : ClientError} (h : types.serializeVariables o entries = .error error) :
    error.code = .scalarError := by
  induction entries with
  | nil => simp only [serializeVariables, reduceCtorEq] at h
  | cons entry rest ih =>
    obtain ⟨name, value⟩ := entry
    rw [serializeVariables_cons] at h
    rcases bind_eq_error.mp h with h | ⟨_, _, h⟩
    · cases hexpr : o.inputType? name with
      | none => simp only [hexpr, walkKnown, reduceCtorEq] at h
      | some expr =>
        rw [hexpr] at h
        exact walk_error hs (hinput expr (inputType?_mem hexpr)) h
    rcases bind_eq_error.mp h with h | ⟨_, _, h⟩
    · exact ih h
    · exact absurd h pure_ne_error

end TypeTable

/-- Drafts are what declarations and literals add up to. One without problems becomes a schema, in
which every expression resolves and every later failure is one of the caller's own. -/
theorem registration_sound (draft : SchemaDraft) :
    ((∃ schema, draft.build = .ok schema) ↔ draft.problems = []) ∧
      (∀ errors, draft.build = .error errors → errors = draft.problems) ∧
      ∀ schema, draft.build = .ok schema →
        (∀ expr ∈ schema.expressions, ∀ location,
          ∃ r, schema.types.resolve expr location = .ok r) ∧
        ∀ o ∈ schema.operations,
          (∀ error, schema.types.allFields o.returnType = .error error → error.isUnfolding) ∧
          (∀ parent field nodes error,
            schema.types.checkSelection parent field o.returnType nodes = .error error →
              error.isSelecting) ∧
          (∀ value error, schema.types.parseOutput o.returnType value = .error error →
            error.code = .scalarError) ∧
          ∀ entries error, schema.types.serializeVariables o entries = .error error →
            error.code = .scalarError := by
  refine ⟨⟨?_, ?_⟩, ?_, ?_⟩
  · rintro ⟨schema, hok⟩
    rcases draft.build_cases with ⟨-, herror⟩ | ⟨hnone, -⟩
    · cases hok.symm.trans herror
    · exact hnone
  · intro hnone
    rcases draft.build_cases with ⟨hsome, -⟩ | ⟨-, operations, -, hok⟩
    · exact absurd hnone hsome
    · exact ⟨_, hok⟩
  · intro errors herrors
    rcases draft.build_cases with ⟨-, herror⟩ | ⟨-, operations, -, hok⟩
    · cases herrors.symm.trans herror; rfl
    · cases herrors.symm.trans hok
  · intro schema hok
    have hsound := Schema.sound_types hok
    refine ⟨fun expr hexpr => (Schema.expressions_resolve hok expr hexpr).resolve, ?_⟩
    intro o ho
    obtain ⟨houtput, hinput⟩ := Schema.operation_resolves hok ho
    refine ⟨?_, ?_, ?_, ?_⟩
    · intro error herror
      exact TypeTable.allFields_error hsound houtput herror
    · intro parent field nodes error herror
      exact SelectionCheck.checkSelection_error hsound houtput herror
    · intro value error herror
      exact TypeTable.walk_error hsound houtput herror
    · intro entries error herror
      exact TypeTable.serializeVariables_error hsound hinput herror

def blogDraft : SchemaDraft :=
  SchemaDraft.empty.addAll [
    .ok (.type "Author" (.object (.ofList [("id", ⟨none, "Key!"⟩), ("posts", ⟨none, "Posts!"⟩)]))),
    .ok (.type "Post" (.object (.ofList [
      ("title", ⟨some (.ofList [("limit?", "Int")]), "String"⟩), ("by?", ⟨none, "Author"⟩)]))),
    .ok (.type "Posts" (.scalar "[Post!]" none)),
    .ok (.type "Key" (.scalar "ID" none)),
    .ok (.codec "Key" (Codec.tagged "key:")),
    .ok (.operation .query "author" ⟨some (.ofList [("id", "Key!")]), "Author"⟩)]

theorem blog_registration_sound :
    blogDraft.problems = [] ∧ ∃ schema, blogDraft.build = .ok schema ∧
      "[Post!]" ∈ schema.expressions ∧
      (∃ r, schema.types.resolve "[Post!]" "here" = .ok r) ∧
      ∃ o ∈ schema.operations, o.returnType = "Author" ∧
        ∀ error, schema.types.allFields o.returnType = .error error → error.isUnfolding := by
  have hnone : blogDraft.problems = [] := by decide +kernel
  have hexpr : "[Post!]" ∈ (Schema.mk blogDraft.types blogDraft.sections []).expressions := by
    decide +kernel
  have hreturns : (SchemaDraft.compileAll blogDraft.types blogDraft.sections.toList).map
      (·.map Operation.returnType) = .ok ["Author"] := by decide +kernel
  rcases blogDraft.build_cases with ⟨hsome, -⟩ | ⟨-, operations, hoperations, hok⟩
  · exact absurd hnone hsome
  obtain ⟨hresolve, hlater⟩ := (registration_sound blogDraft).2.2 _ hok
  refine ⟨hnone, _, hok, hexpr, hresolve _ hexpr "here", ?_⟩
  rw [hoperations] at hreturns
  have hmap : operations.map Operation.returnType = ["Author"] := Except.ok.inj hreturns
  have hauthor : "Author" ∈ operations.map Operation.returnType := by simp [hmap]
  obtain ⟨o, ho, hreturn⟩ := List.mem_map.mp hauthor
  exact ⟨o, ho, hreturn, (hlater o ho).1⟩

end GraphQLClient
