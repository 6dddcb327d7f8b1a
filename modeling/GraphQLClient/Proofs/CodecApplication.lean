import GraphQLClient.Proofs.AliasMeaning
import GraphQLClient.Proofs.ScalarRoundTrip

/-!
# Where codecs convert

The codec of a scalar converts its values, except those that the walk enters: where the aliases of
the scalar lead to a list its arrays are converted item by item, and where they lead to an object
its objects are converted field by field, and the codec is passed by.
-/
namespace GraphQLClient

open Outcome

/-- The codec's own result, with its refusal as callers see it. -/
def Codec.outcome (codec : Codec) (direction : Direction) (scalar : String) (value : Json) :
    ClientResult Json :=
  (direction.apply codec value).mapError fun reason =>
    .new .scalarError s!"Cannot {direction.verb} '{scalar}': {reason}"

/-- The walk goes on into the parts of the value, at a name with these aliases and this target. -/
def Json.isEntered (links : List AliasLink) (target : Target) : Json → Bool
  | .array _ => links.any AliasLink.isList
  | .object _ => !target.isTerminal
  | _ => false

structure Operation.Sends (o : Operation) (types : TypeTable) (name : String) (value : Json)
    (outcome : ClientResult Json) : Prop where
  alone : types.serializeVariables o [(name, value)] = outcome.map fun sent => [(name, sent)]
  accepted : ∀ entries sent, Entries.get? name entries = some value →
    types.serializeVariables o entries = .ok sent →
      ∃ own, outcome = .ok own ∧ Entries.get? name sent = some own
  refused : ∀ entries error, Entries.get? name entries = some value → outcome = .error error →
    ∃ refusal, types.serializeVariables o entries = .error refusal ∧ refusal.code = .scalarError

namespace TypeTable

variable {types : TypeTable} {scalar aliasExpr : String} {codec : Codec}

/-- The first scalar on the way is the one that is named. -/
theorem codec?_of_chain (hget : types.get? scalar = some (.scalar aliasExpr (some codec)))
    {links : List AliasLink} {target : Target} (hchain : AliasChain types scalar links target)
    (hb : BuiltinScalar.ofName? scalar = none) {r : Resolved}
    (haliases : r.aliases = links.map AliasLink.scalar) : types.codec? r = some codec := by
  have hown : types.scalarCodec? scalar = some codec := by rw [scalarCodec?, hget]
  cases hchain with
  | builtin hs => cases hb.symm.trans hs
  | object _ hget' => cases hget.symm.trans hget'
  | enumeration _ hget' => cases hget.symm.trans hget'
  | scalar => rw [codec?, haliases, List.map_cons, List.findSome?_cons, hown]

theorem convert_eq_outcome {r : Resolved} (hcodec : types.codec? r = some codec)
    (hcore : r.declared.core = scalar) (direction : Direction) (value : Json) :
    types.convert direction r value = codec.outcome direction scalar value := by
  rw [convert, hcodec, ← hcore]
  rfl

variable {direction : Direction} {expr : String} {r : Resolved}

theorem walk_array (hr : types.resolveAlone expr = .ok r) {element : String}
    (helement : r.element = some element) (items : List Json) :
    types.walk direction expr (.array items) =
      (types.walkItems direction element items).map .array := by
  simp only [walk, hr, helement, bind, Except.bind]
  cases types.walkItems direction element items <;> rfl

theorem walk_object (hr : types.resolveAlone expr = .ok r) {name : String}
    (htarget : r.target = .object name) {object : ObjectDefinition}
    (hobject : types.object? name = some object) (fields : List (String × Json)) :
    types.walk direction expr (.object fields) =
      (types.walkFields direction object fields).map .object := by
  simp only [walk, hr, htarget, hobject, bind, Except.bind]
  cases types.walkFields direction object fields <;> rfl

/-- A value that is not entered is converted as a whole. -/
theorem walk_whole (hr : types.resolveAlone expr = .ok r) {value : Json} (hnull : ¬ value.isNull)
    (harray : ∀ items, value = .array items → r.element = none)
    (hobject : ∀ fields, value = .object fields → r.target.isTerminal) :
    types.walk direction expr value = types.convert direction r value := by
  cases value with
  | null => exact absurd rfl hnull
  | array items => simp only [walk, hr, harray items rfl, bind, Except.bind]
  | object fields =>
    have hterminal := hobject fields rfl
    simp only [walk, hr, bind, Except.bind]
    split
    · rename_i name hname
      rw [hname] at hterminal
      cases hterminal
    · rfl
  | _ =>
    rw [walk_plain _ _ rfl, hr]
    rfl

theorem sends_walk (hsound : types.Sound) {o : Operation}
    (hinput : ∀ input ∈ o.input.values, types.Resolves input) {name : String}
    (hname : o.inputType? name = some expr) (value : Json) :
    o.Sends types name value (types.walk .serialize expr value) := by
  have haccepted : ∀ entries sent, Entries.get? name entries = some value →
      types.serializeVariables o entries = .ok sent →
        ∃ own, types.walk .serialize expr value = .ok own ∧ Entries.get? name sent = some own := by
    intro entries sent hvalue hsent
    obtain ⟨own, hget, hwalk⟩ := serializeVariables_get? hsent hvalue
    rw [hname] at hwalk
    exact ⟨own, hwalk, hget⟩
  refine ⟨?_, haccepted, ?_⟩
  · rw [serializeVariables_cons, hname, walkKnown]
    cases types.walk .serialize expr value <;> rfl
  · intro entries error hvalue herror
    cases hsent : types.serializeVariables o entries with
    | error refusal => exact ⟨refusal, rfl, serializeVariables_error hsound hinput hsent⟩
    | ok sent =>
      obtain ⟨own, hok, -⟩ := haccepted entries sent hvalue hsent
      cases herror.symm.trans hok

end TypeTable

/-- A scalar with a codec, in a schema that builds and as an expression that is no list, has its
aliases up to its target. Values other than null are converted by the codec in both directions
unless they are entered, and those that are entered are converted by the types of their parts
alone. -/
theorem codec_converts (draft : SchemaDraft) (schema : Schema) (hbuild : draft.build = .ok schema)
    (scalar aliasExpr : String) (codec : Codec)
    (hget : schema.types.get? scalar = some (.scalar aliasExpr (some codec)))
    (expr : String) (nullable : Bool) (span : Text.Span)
    (hexpr : TypeExpr.parse expr = .ok ⟨scalar, .single nullable, span⟩) :
    ∃ links target, AliasChain schema.types scalar links target ∧
      (∀ value : Json, ¬ value.isNull → ¬ value.isEntered links target →
        schema.types.parseOutput expr value = codec.outcome .parse scalar value ∧
          ∀ o ∈ schema.operations, ∀ name, o.inputType? name = some expr →
            o.Sends schema.types name value (codec.outcome .serialize scalar value)) ∧
      (∀ link ∈ links, link.isList → ∀ direction items,
        schema.types.walk direction expr (.array items) =
          (schema.types.walkItems direction link.next.core items).map .array) ∧
      ∀ name object, target = .object name → schema.types.object? name = some object →
        ∀ direction fields, schema.types.walk direction expr (.object fields) =
          (schema.types.walkFields direction object fields).map .object := by
  have hchecked := (SchemaDraft.build_eq_ok hbuild).1
  have hsound := Schema.sound_types hbuild
  obtain ⟨hb, hvoid, hname, hself⟩ := SchemaCheck.scalar_resolves hchecked hget
  obtain ⟨links, target, hchain, hlen, hcount⟩ := hself.chain hname hvoid
  have hresolves : schema.types.Resolves expr := TypeTable.resolves_iff.mpr
    ⟨_, hexpr, Or.inr ⟨links, target, hchain, hlen, (Nat.zero_add _).trans_le hcount⟩⟩
  obtain ⟨r, hr, hresolve⟩ := TypeTable.resolveAlone_ok hresolves
  obtain ⟨others, other, hchain', -, hreads⟩ := TypeTable.reads_of_resolve hexpr hvoid hresolve
  obtain ⟨rfl, rfl⟩ := hchain.unique hchain'
  have hwhole : ∀ direction (value : Json), ¬ value.isNull → ¬ value.isEntered links target →
      schema.types.walk direction expr value = codec.outcome direction scalar value := by
    intro direction value hnull hentered
    rw [TypeTable.walk_whole hr hnull, TypeTable.convert_eq_outcome
      (TypeTable.codec?_of_chain hget hchain hb hreads.aliases)
      (congrArg TypeRef.core hreads.declared)]
    · rintro items rfl
      refine (hreads.single ?_).2
      intro t ht hlist
      rcases List.mem_cons.mp ht with rfl | ht
      · cases hlist
      · obtain ⟨link, hmem, rfl⟩ := List.mem_map.mp ht
        exact hentered (List.any_eq_true.mpr ⟨link, hmem, hlist⟩)
    · rintro fields rfl
      rw [hreads.target]
      simpa [Json.isEntered] using hentered
  refine ⟨links, target, hchain, ?_, ?_, ?_⟩
  · intro value hnull hentered
    refine ⟨hwhole .parse value hnull hentered, ?_⟩
    intro o ho name hinput
    rw [← hwhole .serialize value hnull hentered]
    exact TypeTable.sends_walk hsound (Schema.operation_resolves hbuild ho).2 hinput value
  · intro link hmem hlist direction items
    obtain ⟨-, -, helement⟩ :=
      hreads.list link.next (List.mem_cons_of_mem _ (List.mem_map_of_mem hmem)) hlist
    exact TypeTable.walk_array hr helement items
  · intro name object htarget hobject direction fields
    exact TypeTable.walk_object hr (hreads.target.trans htarget) hobject fields

/-- Scalars with codecs whose aliases are a built-in scalar, a list and an object. -/
def diaryDraft : SchemaDraft :=
  SchemaDraft.empty.addAll [
    .ok (.type "Key" (.scalar "ID" (some (.tagged "key:")))),
    .ok (.type "Days" (.scalar "[Int!]" (some .boxed))),
    .ok (.type "Point" (.object (.ofList [("x", ⟨none, "Int"⟩)]))),
    .ok (.type "Spot" (.scalar "Point" (some .boxed))),
    .ok (.operation .query "mark" ⟨some (.ofList [("key", "Key!"), ("on?", "Days")]), "Spot"⟩)]

theorem diary_operation :
    ∃ operations, diaryDraft.build = .ok ⟨diaryDraft.types, diaryDraft.sections, operations⟩ ∧
      ∃ o ∈ operations, o.inputType? "key" = some "Key!" ∧ o.inputType? "on" = some "Days" := by
  have hviews : (SchemaDraft.compileAll diaryDraft.types diaryDraft.sections.toList).map
      (·.map fun o => (o.inputType? "key", o.inputType? "on")) =
        .ok [(some "Key!", some "Days")] := by
    decide +kernel
  obtain ⟨operations, hok, o, ho, hview⟩ :=
    SchemaDraft.exists_operation (by decide +kernel) hviews (List.mem_singleton_self _)
  obtain ⟨hkey, hon⟩ := Prod.mk.inj hview
  exact ⟨operations, hok, o, ho, hkey, hon⟩

/-- Keys lose their tag when they come and get it back when they go, and a key that is no text is
refused. -/
theorem diary_keys_converted :
    ∃ schema, diaryDraft.build = .ok schema ∧
      schema.types.parseOutput "Key!" (.string "key:a") = .ok (.string "a") ∧
      ∃ o ∈ schema.operations,
        schema.types.serializeVariables o [("key", .string "a")] = .ok [("key", .string "key:a")] ∧
          ∃ refusal, schema.types.serializeVariables o [("on", .null), ("key", .bool true)] =
            .error refusal ∧ refusal.code = .scalarError := by
  obtain ⟨operations, hok, o, ho, hkey, -⟩ := diary_operation
  obtain ⟨links, target, -, hconverted, -⟩ :=
    codec_converts diaryDraft _ hok "Key" "ID" (.tagged "key:")
    rfl "Key!" false ⟨0, 3⟩ (by decide +kernel)
  obtain ⟨hparsed, -⟩ := hconverted (.string "key:a") Bool.false_ne_true Bool.false_ne_true
  obtain ⟨-, hsent⟩ := hconverted (.string "a") Bool.false_ne_true Bool.false_ne_true
  obtain ⟨-, hrefused⟩ := hconverted (.bool true) Bool.false_ne_true Bool.false_ne_true
  refine ⟨_, hok, hparsed.trans ?_, o, ho, (hsent o ho "key" hkey).alone.trans ?_, ?_⟩
  · rfl
  · rfl
  · exact (hrefused o ho "key" hkey).refused _ _ rfl rfl

/-- An array at a scalar that stands for a list, and an object at one that stands for an object,
never meet the codec of the scalar. -/
theorem diary_codecs_passed_by :
    ∃ schema, diaryDraft.build = .ok schema ∧
      schema.types.get? "Days" = some (.scalar "[Int!]" (some .boxed)) ∧
      schema.types.parseOutput "Days" (.array [.number (.int 1)]) ≠
        Codec.boxed.outcome .parse "Days" (.array [.number (.int 1)]) ∧
      schema.types.get? "Spot" = some (.scalar "Point" (some .boxed)) ∧
      schema.types.parseOutput "Spot" (.object [("x", .number (.int 1))]) ≠
        Codec.boxed.outcome .parse "Spot" (.object [("x", .number (.int 1))]) ∧
      ∃ o ∈ schema.operations, o.inputType? "on" = some "Days" ∧
        schema.types.serializeVariables o [("on", .array [])] ≠
          (Codec.boxed.outcome .serialize "Days" (.array [])).map fun sent => [("on", sent)] := by
  obtain ⟨operations, hok, o, ho, -, hon⟩ := diary_operation
  have hdays :
      (diaryDraft.types.parseOutput "Days" (.array [.number (.int 1)])).toOption.map Json.text =
        some "[1]" := by decide +kernel
  have hspot : (diaryDraft.types.parseOutput "Spot"
      (.object [("x", .number (.int 1))])).toOption.map Json.text = some "\x7b\"x\":1\x7d" := by
    decide +kernel
  have hwalk : (diaryDraft.types.walk .serialize "Days" (.array [])).toOption.isSome = true := by
    decide +kernel
  refine ⟨_, hok, rfl, ?_, rfl, ?_, o, ho, hon, ?_⟩
  · intro heq
    rw [heq] at hdays
    exact absurd hdays (by decide +kernel)
  · intro heq
    rw [heq] at hspot
    exact absurd hspot (by decide +kernel)
  · intro heq
    rw [TypeTable.serializeVariables_cons, hon, TypeTable.walkKnown] at heq
    obtain ⟨sent, hsent⟩ := Option.isSome_iff_exists.mp hwalk
    rw [toOption_eq_some.mp hsent] at heq
    cases heq

end GraphQLClient
