import GraphQLClient.Proofs.RegistrationSoundness

/-!
# Variables come back as they were given

When every codec undoes its own work, a response value that repeats what was sent is parsed to what
the caller gave. Both walks must take the same branch at every value, although the second one sees
what the first one made of it.
-/
namespace GraphQLClient

open Outcome

/-- Neither null nor a container, so never walked into. -/
def Json.isPlain : Json → Bool
  | .bool _ => true
  | .number _ => true
  | .string _ => true
  | _ => false

/-- Only plain values are sent, and each is parsed to the value it was made from. -/
def Codec.Reversible (codec : Codec) : Prop :=
  ∀ value sent, codec.serializeValue value = .ok sent →
    sent.isPlain ∧ codec.parseValue sent = .ok value

theorem Codec.tagged_reversible (tag : String) : (Codec.tagged tag).Reversible := by
  intro value sent h
  have hadd : addTag tag value = .ok sent := h
  unfold addTag at hadd
  split at hadd
  · rename_i s
    cases hadd
    refine ⟨rfl, ?_⟩
    change removeTag tag (.string (tag ++ s)) = .ok (.string s)
    simp [removeTag]
  · cases hadd

namespace TypeTable

variable {types : TypeTable}

def Reversible (types : TypeTable) : Prop :=
  ∀ scalar codec, types.scalarCodec? scalar = some codec → codec.Reversible

theorem Reversible.codec (h : types.Reversible) {r : Resolved} {codec : Codec}
    (hcodec : types.codec? r = some codec) : codec.Reversible := by
  obtain ⟨scalar, -, hscalar⟩ := List.exists_of_findSome?_eq_some hcodec
  exact h scalar codec hscalar

theorem walk_plain (direction : Direction) (expr : String) {value : Json} (h : value.isPlain) :
    types.walk direction expr value = (do
      types.convert direction (← types.resolveAlone expr) value) := by
  cases value with
  | bool b => simp only [walk]
  | number n => simp only [walk]
  | string s => simp only [walk]
  | null => cases h
  | array items => cases h
  | object fields => cases h

/-- Conversion leaves a value alone, or makes a plain one of it and can go back. -/
theorem Reversible.convert (h : types.Reversible) {r : Resolved} {value sent : Json}
    (hsent : types.convert .serialize r value = .ok sent) :
    (types.codec? r = none ∧ sent = value) ∨
      (sent.isPlain ∧ types.convert .parse r sent = .ok value) := by
  cases hcodec : types.codec? r with
  | none =>
    simp only [TypeTable.convert, hcodec] at hsent
    cases hsent
    exact Or.inl ⟨rfl, rfl⟩
  | some codec =>
    simp only [TypeTable.convert, hcodec] at hsent
    obtain ⟨hplain, hparse⟩ := h.codec hcodec value sent (mapError_eq_ok.mp hsent)
    refine Or.inr ⟨hplain, ?_⟩
    simp only [TypeTable.convert, hcodec]
    exact mapError_eq_ok.mpr hparse

/-- A value that neither walk enters comes back. -/
theorem Reversible.walk_converted (h : types.Reversible) {expr : String} {r : Resolved}
    (hr : types.resolveAlone expr = .ok r) {value sent : Json}
    (hwalk : ∀ direction, types.walk direction expr value = types.convert direction r value)
    (hsent : types.walk .serialize expr value = .ok sent) :
    types.walk .parse expr sent = .ok value := by
  rw [hwalk] at hsent
  rcases h.convert hsent with ⟨hnone, rfl⟩ | ⟨hplain, hparse⟩
  · rw [hwalk]
    simp only [TypeTable.convert, hnone]
  · rw [walk_plain _ _ hplain, hr]
    exact hparse

theorem Reversible.walk_plain (h : types.Reversible) {expr : String} {value sent : Json}
    (hplain : value.isPlain) (hsent : types.walk .serialize expr value = .ok sent) :
    types.walk .parse expr sent = .ok value := by
  have hsent' := hsent
  rw [TypeTable.walk_plain _ _ hplain] at hsent'
  obtain ⟨r, hr, -⟩ := bind_eq_ok.mp hsent'
  refine h.walk_converted hr ?_ hsent
  intro direction
  rw [TypeTable.walk_plain _ _ hplain, hr]
  rfl

theorem walkKnown_round_trip {known : Option String} {value sent : Json}
    (hwalk : ∀ expr, types.walk .serialize expr value = .ok sent →
      types.walk .parse expr sent = .ok value)
    (hsent : types.walkKnown .serialize known value = .ok sent) :
    types.walkKnown .parse known sent = .ok value := by
  cases known with
  | none =>
    cases hsent
    rfl
  | some expr => exact hwalk expr hsent

mutual

theorem Reversible.walk (h : types.Reversible) {expr : String} {value sent : Json}
    (hsent : types.walk .serialize expr value = .ok sent) :
    types.walk .parse expr sent = .ok value := by
  cases value with
  | null =>
    simp only [TypeTable.walk] at hsent
    cases hsent
    simp only [TypeTable.walk]
  | bool b => exact h.walk_plain rfl hsent
  | number n => exact h.walk_plain rfl hsent
  | string s => exact h.walk_plain rfl hsent
  | array items =>
    have hwalk := hsent
    simp only [TypeTable.walk] at hwalk
    obtain ⟨r, hr, hwalk⟩ := bind_eq_ok.mp hwalk
    cases helement : r.element with
    | some element =>
      simp only [helement] at hwalk
      obtain ⟨sentItems, hitems, hwalk⟩ := bind_eq_ok.mp hwalk
      cases hwalk
      have hback := h.walkItems hitems
      simp only [TypeTable.walk, hr, helement, hback, bind, Except.bind, pure, Except.pure]
    | none =>
      refine h.walk_converted hr ?_ hsent
      intro direction
      simp only [TypeTable.walk, hr, helement, bind, Except.bind]
  | object fields =>
    have hwalk := hsent
    simp only [TypeTable.walk] at hwalk
    obtain ⟨r, hr, hwalk⟩ := bind_eq_ok.mp hwalk
    by_cases htarget : ∃ name, r.target = .object name
    · obtain ⟨name, htarget⟩ := htarget
      simp only [htarget] at hwalk
      cases hobject : types.object? name with
      | some object =>
        simp only [hobject] at hwalk
        obtain ⟨sentFields, hfields, hwalk⟩ := bind_eq_ok.mp hwalk
        cases hwalk
        have hback := h.walkFields hfields
        simp only [TypeTable.walk, hr, htarget, hobject, hback, bind,
          Except.bind, pure, Except.pure]
      | none =>
        simp only [hobject] at hwalk
        cases hwalk
        simp only [TypeTable.walk, hr, htarget, hobject, bind, Except.bind, pure, Except.pure]
    · refine h.walk_converted hr ?_ hsent
      intro direction
      simp only [TypeTable.walk, hr, bind, Except.bind]
      split
      · rename_i name hname
        exact absurd ⟨name, hname⟩ htarget
      · rfl

theorem Reversible.walkItems (h : types.Reversible) {expr : String} {items sent : List Json}
    (hsent : types.walkItems .serialize expr items = .ok sent) :
    types.walkItems .parse expr sent = .ok items := by
  cases items with
  | nil =>
    simp only [TypeTable.walkItems] at hsent
    cases hsent
    simp only [TypeTable.walkItems]
  | cons item rest =>
    simp only [TypeTable.walkItems] at hsent
    obtain ⟨sentItem, hitem, hsent⟩ := bind_eq_ok.mp hsent
    obtain ⟨sentRest, hrest, hsent⟩ := bind_eq_ok.mp hsent
    cases hsent
    simp only [TypeTable.walkItems]
    exact bind_eq_ok.mpr ⟨item, h.walk hitem, bind_eq_ok.mpr ⟨rest, h.walkItems hrest, rfl⟩⟩

theorem Reversible.walkFields (h : types.Reversible) {object : ObjectDefinition}
    {fields sent : List (String × Json)}
    (hsent : types.walkFields .serialize object fields = .ok sent) :
    types.walkFields .parse object sent = .ok fields := by
  cases fields with
  | nil =>
    simp only [TypeTable.walkFields] at hsent
    cases hsent
    simp only [TypeTable.walkFields]
  | cons entry rest =>
    obtain ⟨key, value⟩ := entry
    rw [walkFields_cons] at hsent
    obtain ⟨sentValue, hvalue, hsent⟩ := bind_eq_ok.mp hsent
    obtain ⟨sentRest, hrest, hsent⟩ := bind_eq_ok.mp hsent
    cases hsent
    have hback := walkKnown_round_trip (fun _ hwalk => h.walk hwalk) hvalue
    rw [walkFields_cons]
    exact bind_eq_ok.mpr ⟨value, hback, bind_eq_ok.mpr ⟨rest, h.walkFields hrest, rfl⟩⟩

end

theorem serializeVariables_keys {o : Operation} {entries sent : List (String × Json)}
    (hsent : types.serializeVariables o entries = .ok sent) :
    Entries.keys sent = Entries.keys entries := by
  induction entries generalizing sent with
  | nil => cases hsent; rfl
  | cons entry rest ih =>
    obtain ⟨name, value⟩ := entry
    rw [serializeVariables_cons] at hsent
    obtain ⟨sentValue, -, hsent⟩ := bind_eq_ok.mp hsent
    obtain ⟨sentRest, hrest, hsent⟩ := bind_eq_ok.mp hsent
    cases hsent
    exact congrArg (name :: ·) (ih hrest)

theorem serializeVariables_get? {o : Operation} {entries sent : List (String × Json)}
    (hsent : types.serializeVariables o entries = .ok sent) {name : String} {value : Json}
    (hvalue : Entries.get? name entries = some value) :
    ∃ sentValue, Entries.get? name sent = some sentValue ∧
      types.walkKnown .serialize (o.inputType? name) value = .ok sentValue := by
  induction entries generalizing sent with
  | nil => cases hvalue
  | cons entry rest ih =>
    obtain ⟨first, firstValue⟩ := entry
    rw [serializeVariables_cons] at hsent
    obtain ⟨sentFirst, hfirst, hsent⟩ := bind_eq_ok.mp hsent
    obtain ⟨sentRest, hrest, hsent⟩ := bind_eq_ok.mp hsent
    cases hsent
    by_cases hname : first = name
    · subst hname
      simp only [Entries.get?, if_true, Option.some.injEq] at hvalue ⊢
      exact ⟨sentFirst, rfl, hvalue ▸ hfirst⟩
    · simp only [Entries.get?, hname, if_false] at hvalue ⊢
      exact ih hrest hvalue

end TypeTable

/-- Variables keep their names and their order, and a response value that repeats one of them is
parsed, at the declared type of its input field, to what the caller gave. -/
theorem variables_round_trip (types : TypeTable) (hcodecs : types.Reversible) (o : Operation)
    (entries sent : List (String × Json)) (hsent : types.serializeVariables o entries = .ok sent) :
    Entries.keys sent = Entries.keys entries ∧
      ∀ name expr value, o.inputType? name = some expr → Entries.get? name entries = some value →
        ∃ sentValue, Entries.get? name sent = some sentValue ∧
          types.parseOutput expr sentValue = .ok value := by
  refine ⟨TypeTable.serializeVariables_keys hsent, ?_⟩
  intro name expr value hexpr hvalue
  obtain ⟨sentValue, hget, hwalk⟩ := TypeTable.serializeVariables_get? hsent hvalue
  rw [hexpr] at hwalk
  exact ⟨sentValue, hget, hcodecs.walk hwalk⟩

def Declaration.codec? : Declaration → Option Codec
  | .type _ (.scalar _ own) => own
  | .codec _ own => some own
  | _ => none

theorem TypeTable.empty_reversible : TypeTable.Reversible .empty := by
  intro scalar codec hscalar
  cases hscalar

theorem TypeTable.Reversible.insert {types : TypeTable} (h : types.Reversible) {name : String}
    {definition : TypeDefinition}
    (hcodec : ∀ aliasExpr codec, definition = .scalar aliasExpr (some codec) → codec.Reversible) :
    TypeTable.Reversible (types.insert name definition) := by
  intro scalar codec hscalar
  unfold scalarCodec? at hscalar
  rw [OrderedMap.get?_insert] at hscalar
  by_cases hname : name = scalar
  · rw [if_pos hname] at hscalar
    split at hscalar
    · rename_i aliasExpr own hsome
      subst hscalar
      exact hcodec aliasExpr codec (Option.some.inj hsome)
    · cases hscalar
  · rw [if_neg hname] at hscalar
    exact h scalar codec hscalar

namespace SchemaDraft

theorem declare_reversible {draft : SchemaDraft} (h : draft.types.Reversible)
    {declaration : Declaration}
    (hcodec : ∀ codec, declaration.codec? = some codec → codec.Reversible) :
    (draft.declare declaration).types.Reversible := by
  cases declaration with
  | type name definition =>
    simp only [declare]
    split_ifs
    · exact h
    · apply h.insert
      rintro aliasExpr codec rfl
      exact hcodec codec rfl
  | operation kind name signature =>
    simp only [declare]
    split_ifs
    · exact h
    · exact h
  | codec scalar codec =>
    simp only [declare]
    split
    · apply h.insert
      intro _ _ hscalar
      cases hscalar
      exact hcodec codec rfl
    · exact h
    · exact h

/-- The codecs of a schema are those of its declarations. -/
theorem addAll_reversible {draft : SchemaDraft} (h : draft.types.Reversible)
    {entries : List (Except SchemaError Declaration)}
    (hcodecs : ∀ declaration, .ok declaration ∈ entries →
      ∀ codec, declaration.codec? = some codec → codec.Reversible) :
    (draft.addAll entries).types.Reversible := by
  induction entries generalizing draft with
  | nil => exact h
  | cons entry rest ih =>
    refine ih ?_ fun declaration hmem => hcodecs declaration (List.mem_cons_of_mem _ hmem)
    cases entry with
    | error error => exact h
    | ok declaration => exact declare_reversible h (hcodecs declaration List.mem_cons_self)

end SchemaDraft

def orderDeclarations : List Declaration := [
  .type "Key" (.scalar "ID" none),
  .codec "Key" (.tagged "key:"),
  .type "Keys" (.scalar "[Key!]" none),
  .type "Line" (.object (.ofList [
    ("item", ⟨none, "Key!"⟩), ("related?", ⟨none, "Keys"⟩), ("next?", ⟨none, "Line"⟩)])),
  .operation .mutation "place" ⟨some (.ofList [("line", "Line!"), ("note?", "String")]), "Key"⟩]

def orderDraft : SchemaDraft := SchemaDraft.empty.addAll (orderDeclarations.map .ok)

def orderLine : Json :=
  .object [("item", .string "a"), ("related", .array [.string "b", .null]),
    ("next", .object [("item", .null), ("related", .string "c"), ("free", .number (.int 1))])]

theorem order_round_trip :
    ∃ schema, orderDraft.build = .ok schema ∧ schema.types.Reversible ∧
      ∃ o ∈ schema.operations, ∃ sent sentLine,
        schema.types.serializeVariables o [("line", orderLine)] = .ok sent ∧
          Entries.get? "line" sent = some sentLine ∧
          (sentLine.get? "item").bind Json.string? = some "key:a" ∧
          schema.types.parseOutput "Line!" sentLine = .ok orderLine := by
  have hreversible : orderDraft.types.Reversible := by
    refine SchemaDraft.addAll_reversible TypeTable.empty_reversible ?_
    intro declaration hmem codec hcodec
    simp only [orderDeclarations, List.map_cons, List.map_nil, List.mem_cons, Except.ok.injEq,
      List.not_mem_nil, or_false] at hmem
    rcases hmem with rfl | rfl | rfl | rfl | rfl
    all_goals cases hcodec
    exact Codec.tagged_reversible "key:"
  have hnone : orderDraft.problems = [] := by decide +kernel
  let sentItem (o : Operation) : Option String := do
    let sent ← (orderDraft.types.serializeVariables o [("line", orderLine)]).toOption
    let sentLine ← Entries.get? "line" sent
    (← sentLine.get? "item").string?
  have hviews : (SchemaDraft.compileAll orderDraft.types orderDraft.sections.toList).map
      (·.map fun o => (o.inputType? "line", sentItem o)) =
        .ok [(some "Line!", some "key:a")] := by
    decide +kernel
  obtain ⟨operations, hok, o, ho, hview⟩ :=
    SchemaDraft.exists_operation hnone hviews (List.mem_singleton_self _)
  obtain ⟨htype, hitem⟩ := Prod.mk.inj hview
  obtain ⟨sent, hsent, hitem⟩ := Option.bind_eq_some_iff.mp hitem
  obtain ⟨sentLine, hline, hitem⟩ := Option.bind_eq_some_iff.mp hitem
  have hserialized := toOption_eq_some.mp hsent
  obtain ⟨sentLine', hline', hback⟩ := (variables_round_trip orderDraft.types hreversible o
    [("line", orderLine)] sent hserialized).2 "line" "Line!" orderLine htype rfl
  cases hline.symm.trans hline'
  exact ⟨_, hok, hreversible, o, ho, sent, sentLine, hserialized, hline, hitem, hback⟩

end GraphQLClient
