import GraphQLClient.Proofs.CheckedSchemas
import GraphQLClient.Proofs.RequestOrigins

/-!
# Routes to a request

An input may be given in advance and then added to, or all at once. A single field may be given as
an object, by its name or by its shortcut. Routes that give the same input lead to requests with the
same body, or are refused alike, for the selection of all fields as for a chosen one.
-/
namespace GraphQLClient

open Outcome

namespace Entries

variable {α : Type} {entries other all : List (String × α)}

/-- `all` has the entries of `other` over those of `entries`: known names keep their places and new
ones follow. -/
structure Overrides (entries other all : List (String × α)) : Prop where
  keys : keys all = keys entries ++ (keys other).filter (· ∉ keys entries)
  get? : ∀ key, get? key all = (get? key other).or (get? key entries)

theorem keys_insert_known {key : String} (value : α) (h : key ∈ keys entries) :
    keys (insert key value entries) = keys entries := by
  induction entries with
  | nil => cases h
  | cons entry rest ih =>
    obtain ⟨first, old⟩ := entry
    by_cases hfirst : first = key
    · simp [keys, insert, hfirst]
    · have hrest : key ∈ keys rest := (List.mem_cons.mp h).resolve_left (Ne.symm hfirst)
      rw [insert, if_neg hfirst]
      exact congrArg (first :: ·) (ih hrest)

theorem merge_overrides (h : (keys other).Nodup) :
    Overrides entries other (merge entries other) := by
  induction other generalizing entries with
  | nil => exact ⟨(List.append_nil _).symm, fun key => rfl⟩
  | cons entry rest ih =>
    obtain ⟨first, value⟩ := entry
    obtain ⟨hfirst, hrest⟩ := List.nodup_cons.mp h
    have hmerged : Overrides (insert first value entries) rest
        (merge entries ((first, value) :: rest)) := ih hrest
    constructor
    · have hnew : ∀ name ∈ keys rest,
          decide (name ∉ keys (insert first value entries)) = decide (name ∉ keys entries) := by
        intro name hname
        have hne : name ≠ first := fun heq => hfirst (heq ▸ hname)
        simp [hne]
      rw [hmerged.keys, List.filter_congr hnew]
      by_cases hknown : first ∈ keys entries
      · have hkeys : keys ((first, value) :: rest) = first :: keys rest := rfl
        rw [keys_insert_known value hknown, hkeys, List.filter_cons_of_neg (by simpa using hknown)]
      · have hkeys : keys ((first, value) :: rest) = first :: keys rest := rfl
        have hlast : keys (entries ++ [(first, value)]) = keys entries ++ [first] := by simp [keys]
        rw [insert_new hknown, hlast, hkeys, List.filter_cons_of_pos (by simpa using hknown),
          List.append_assoc]
        rfl
    · intro key
      rw [hmerged.get?, get?_insert]
      by_cases hkey : first = key
      · have hnone : get? key rest = none := get?_eq_none_iff.mpr (hkey ▸ hfirst)
        simp [get?, hkey, hnone]
      · simp [get?, hkey]

/-- Entries are told by their names, in order, and what is found under these. -/
theorem ext_get? (hnodup : (keys entries).Nodup) (hkeys : keys entries = keys all)
    (hget : ∀ key, get? key entries = get? key all) : entries = all := by
  induction entries generalizing all with
  | nil =>
    cases all with
    | nil => rfl
    | cons entry rest => cases hkeys
  | cons entry rest ih =>
    cases all with
    | nil => cases hkeys
    | cons entry' rest' =>
      obtain ⟨name, value⟩ := entry
      obtain ⟨name', value'⟩ := entry'
      obtain ⟨rfl, hrest⟩ := List.cons.inj hkeys
      obtain ⟨hname, hnodup⟩ := List.nodup_cons.mp hnodup
      have hvalue : value = value' := by simpa [get?] using hget name
      have hsame : rest = rest' := by
        refine ih hnodup hrest ?_
        intro key
        by_cases hkey : name = key
        · subst hkey
          have hname' : name ∉ keys rest' := by
            rwa [keys, ← hrest]
          rw [get?_eq_none_iff.mpr hname, get?_eq_none_iff.mpr hname']
        · simpa [get?, hkey] using hget key
      rw [hvalue, hsame]

namespace Overrides

variable (h : Overrides entries other all)

include h

theorem nodup_keys (hentries : (Entries.keys entries).Nodup) (hother : (Entries.keys other).Nodup) :
    (Entries.keys all).Nodup := by
  rw [h.keys, List.nodup_append]
  refine ⟨hentries, hother.filter _, ?_⟩
  rintro name hname _ hnew rfl
  simp [hname] at hnew

theorem eq_merge (hentries : (Entries.keys entries).Nodup) (hother : (Entries.keys other).Nodup) :
    all = merge entries other := by
  have hmerged : Overrides entries other (merge entries other) := merge_overrides hother
  refine ext_get? (h.nodup_keys hentries hother) (h.keys.trans hmerged.keys.symm) ?_
  intro key
  rw [h.get?, hmerged.get?]

end Overrides

end Entries

namespace Operation

variable {o : Operation} {types : TypeTable} {nodes : List Node} {preset more all : Input}

theorem inputRequest_object (hinput : o.hasInput = true) (given : Option Input) (entries : Input) :
    o.inputRequest types nodes given (.object entries) = (do
      o.buildRequest types nodes (← o.checkEntries (Entries.merge (given.getD []) entries))) := by
  simp only [inputRequest, hinput]
  rfl

/-- Over an input given in advance, further entries do the same as both together. -/
theorem inputRequest_override (hinput : o.hasInput = true) (hpreset : (Entries.keys preset).Nodup)
    (hmore : (Entries.keys more).Nodup) (hall : Entries.Overrides preset more all) :
    o.inputRequest types nodes (some preset) (.object more) =
      o.inputRequest types nodes none (.object all) := by
  have hmerged : Entries.merge [] all = all :=
    Entries.ofList_of_nodup (hall.nodup_keys hpreset hmore)
  rw [inputRequest_object hinput, inputRequest_object hinput, Option.getD_some,
    Option.getD_none, hmerged, hall.eq_merge hpreset hmore]

/-- An accepted input leads to the same request in advance as later. -/
theorem inputRequest_preset (hinput : o.hasInput = true) (hpreset : (Entries.keys preset).Nodup)
    (haccepted : o.checkEntries preset = .ok preset) :
    o.inputRequest types nodes none (.object preset) =
      o.defaultRequest types nodes (some preset) := by
  have hmerged : Entries.merge [] preset = preset := Entries.ofList_of_nodup hpreset
  rw [inputRequest_object hinput, Option.getD_none, hmerged, haccepted]
  rfl

theorem singleInput_of_shortcut {shortcut field : String} (h : o.shortcut? shortcut = some field)
    (value : Json) :
    o.singleInput field value = .ok (.object [(field, value)]) := by
  have hfield : field ∈ o.shortcuts.values :=
    OrderedMap.mem_values_iff.mpr ⟨shortcut, OrderedMap.get?_eq_some_iff.mp h⟩
  rw [singleInput, hasShortcutTo, if_pos (List.contains_iff_mem.mpr hfield)]

theorem fieldOfShortcut_eq {shortcut field : String} (h : o.shortcut? shortcut = some field) :
    o.fieldOfShortcut shortcut = .ok field := by
  rw [fieldOfShortcut, h]

end Operation

inductive ComesTo : ClientResult (Nat × Ledger) → ClientResult RequestBody → Prop where
  | made {id : Nat} {ledger : Ledger} {d : Dispatch} (h : ledger.get? id = some d) :
    ComesTo (.ok (id, ledger)) (.ok d.body)
  | refused (error : ClientError) : ComesTo (.error error) (.error error)

def SameOutcome (a b : ClientResult (Nat × Ledger)) : Prop :=
  ∃ outcome, ComesTo a outcome ∧ ComesTo b outcome

namespace Client

variable {client : Client} {ledger ledger' : Ledger}

theorem refine_comesTo (client : Client) (ledger : Ledger) (o : Operation) (preset : Option Input)
    (nodes : List Node) (replaced : ClientResult Nat) (input : Json) :
    ComesTo (client.refine ledger o preset nodes replaced input)
      (o.inputRequest client.schema.types nodes preset input) := by
  cases hbody : o.inputRequest client.schema.types nodes preset input with
  | error error =>
    have hrefused : client.refine ledger o preset nodes replaced input = .error error :=
      bind_eq_error.mpr (Or.inl hbody)
    rw [hrefused]
    exact .refused error
  | ok body =>
    have hmade : client.refine ledger o preset nodes replaced input =
        .ok ((ledger.enter o body).1, (ledger.enter o body).2.supersedeResult replaced) :=
      bind_eq_ok.mpr ⟨body, hbody, rfl⟩
    have hentered := Ledger.get?_enter_self ledger o body
    obtain ⟨d, hd, -, rfl, -⟩ := (Ledger.grows_supersedeResult _ replaced).kept hentered
    rw [hmade]
    exact .made hd

def suppliedBody (client : Client) (c : Call) (input : Json) : ClientResult RequestBody := do
  c.operation.inputRequest client.schema.types
    (← client.schema.defaultSelection c.operation) c.preset input

theorem callBy_comesTo (client : Client) (ledger : Ledger) (c : Call) (input : Json) :
    ComesTo (client.callBy ledger c input) (client.suppliedBody c input) := by
  simp only [callBy, suppliedBody]
  cases client.schema.defaultSelection c.operation with
  | error error => exact .refused error
  | ok nodes => exact client.refine_comesTo ledger c.operation c.preset nodes c.request input

theorem selectionBy_comesTo (client : Client) (ledger : Ledger) (s : Selection) (input : Json) :
    ComesTo (client.selectionBy ledger s input)
      (s.operation.inputRequest client.schema.types s.nodes s.preset input) :=
  client.refine_comesTo ledger s.operation s.preset s.nodes s.request input

theorem enterResult_comesTo {o : Operation} {body : ClientResult RequestBody}
    {request : ClientResult Nat} (h : enterResult ledger o body = (request, ledger'))
    {later : Ledger} (hlater : ledger'.Extends later) :
    ComesTo (request.map fun id => (id, later)) body := by
  cases body with
  | error error =>
    cases h
    exact .refused error
  | ok body =>
    cases h
    obtain ⟨d, hd, -, rfl, -⟩ := hlater.kept (Ledger.get?_enter_self ledger o body)
    exact .made hd

theorem call_without_input {kind : OperationKind} {name : String} {o : Operation}
    (ho : client.schema.operation kind name = .ok o) (ledger : Ledger) :
    ∃ d ledger', client.call ledger kind name none = .ok (d, ledger') ∧ d.operation = o ∧
    d.preset = none := by
  rw [call_eq, ho]
  exact ⟨_, _, rfl, rfl, rfl⟩

theorem call_with_input {kind : OperationKind} {name : String} {preset : Input} {c : Call}
    (h : client.call ledger kind name (some (.object preset)) = .ok (c, ledger')) :
    c.preset = some preset ∧ c.operation.checkEntries preset = .ok preset := by
  obtain ⟨-, hpreset, -⟩ := call_ok h
  have hchecked : (c.operation.checkEntries preset).map some = .ok c.preset := hpreset
  obtain ⟨entries, hentries, hsome⟩ := map_eq_ok.mp hchecked
  obtain ⟨rfl, -⟩ := Operation.checkEntries_ok hentries
  exact ⟨hsome.symm, hentries⟩

section Shortcuts

variable {shortcut field : String} (value : Json)

theorem callByField_eq {c : Call} (h : c.operation.shortcut? shortcut = some field)
    (ledger : Ledger) :
    client.callByField ledger c field value =
      client.callBy ledger c (.object [(field, value)]) := by
  rw [callByField, Operation.singleInput_of_shortcut h]
  rfl

theorem callByShortcut_eq {c : Call} (h : c.operation.shortcut? shortcut = some field)
    (ledger : Ledger) :
    client.callByShortcut ledger c shortcut value =
      client.callBy ledger c (.object [(field, value)]) := by
  rw [← callByField_eq value h, callByShortcut, Operation.fieldOfShortcut_eq h]
  rfl

theorem selectionByField_eq {s : Selection} (h : s.operation.shortcut? shortcut = some field)
    (ledger : Ledger) :
    client.selectionByField ledger s field value =
      client.selectionBy ledger s (.object [(field, value)]) := by
  rw [selectionByField, Operation.singleInput_of_shortcut h]
  rfl

theorem selectionByShortcut_eq {s : Selection} (h : s.operation.shortcut? shortcut = some field)
    (ledger : Ledger) : client.selectionByShortcut ledger s shortcut value =
      client.selectionBy ledger s (.object [(field, value)]) := by
  rw [← selectionByField_eq value h, selectionByShortcut, Operation.fieldOfShortcut_eq h]
  rfl

end Shortcuts

/-- Whether a call can be narrowed is a matter of its operation alone. -/
theorem select_cases (client : Client) (o : Operation) (nodes : List Node) :
    (∃ error, ∀ ledger (c : Call), c.operation = o → client.select ledger c nodes = .error error) ∨
      ∀ ledger (c : Call), c.operation = o →
        ∃ s ledger', client.select ledger c nodes = .ok (s, ledger') := by
  by_cases hterminal : o.terminal = true
  · left
    refine ⟨.new .invalidSelection
      s!"Operation '{o.qualifiedName}' returns '{o.returnType}', which has no fields to select", ?_⟩
    rintro ledger c rfl
    simp only [select, hterminal, if_true]
    rfl
  cases hcheck : client.schema.types.checkSelection o.kind.sectionName o.name
    o.returnType nodes with
  | error error =>
    left
    refine ⟨ClientError.ofSchemaError error, ?_⟩
    rintro ledger c rfl
    simp only [select, hterminal, Bool.false_eq_true, if_false, hcheck]
    rfl
  | ok =>
    right
    rintro ledger c rfl
    simp only [select, hterminal, Bool.false_eq_true, if_false, hcheck]
    exact ⟨_, _, rfl⟩

end Client

/-- One of two routes has the input `preset` in advance. What it makes of `more` the other one makes
of `all`, and what it has made of its input alone the other one makes of that input. -/
structure RoutesMeet (advanced plain : Ledger → Json → ClientResult (Nat × Ledger))
    (own : ClientResult Nat) (entered : Ledger) (preset more all : Input) : Prop where
  supplied : ∀ a b, SameOutcome (advanced a (.object more)) (plain b (.object all))
  default : ∀ a b, entered.Extends a →
    SameOutcome (own.map fun id => (id, a)) (plain b (.object preset))

section Meeting

variable {client : Client} {preset more all : Input} {entered : Ledger}

theorem callBy_meet {c d : Call} (hinput : c.operation.hasInput = true)
    (hpreset : (Entries.keys preset).Nodup) (hmore : (Entries.keys more).Nodup)
    (hall : Entries.Overrides preset more all) (hc : c.preset = some preset)
    (haccepted : c.operation.checkEntries preset = .ok preset) (hd : d.operation = c.operation)
    (hnone : d.preset = none) {ledger : Ledger}
    (hentered : Client.enterResult ledger c.operation (client.ownBody c.operation c.preset) =
      (c.request, entered)) :
    RoutesMeet (client.callBy · c) (client.callBy · d) c.request entered preset more all := by
  constructor
  · intro a b
    have hsame : client.suppliedBody d (.object all) = client.suppliedBody c (.object more) := by
      simp only [Client.suppliedBody, hc, hd, hnone,
        Operation.inputRequest_override hinput hpreset hmore hall]
    have hplain := client.callBy_comesTo b d (.object all)
    rw [hsame] at hplain
    exact ⟨_, client.callBy_comesTo a c (.object more), hplain⟩
  · intro a b hlater
    have hsame : client.suppliedBody d (.object preset) = client.ownBody c.operation c.preset := by
      simp only [Client.suppliedBody, Client.ownBody, hc, hd, hnone,
        Operation.inputRequest_preset hinput hpreset haccepted]
    have hplain := client.callBy_comesTo b d (.object preset)
    rw [hsame] at hplain
    exact ⟨_, Client.enterResult_comesTo hentered hlater, hplain⟩

theorem selectionBy_meet {s t : Selection} (hinput : s.operation.hasInput = true)
    (hpreset : (Entries.keys preset).Nodup) (hmore : (Entries.keys more).Nodup)
    (hall : Entries.Overrides preset more all) (hs : s.preset = some preset)
    (haccepted : s.operation.checkEntries preset = .ok preset) (ht : t.operation = s.operation)
    (hnodes : t.nodes = s.nodes) (hnone : t.preset = none) {ledger : Ledger}
    (hentered : Client.enterResult ledger s.operation
      (s.operation.defaultRequest client.schema.types s.nodes s.preset) = (s.request, entered)) :
    RoutesMeet (client.selectionBy · s) (client.selectionBy · t) s.request entered
      preset more all := by
  constructor
  · intro a b
    have hsame : t.operation.inputRequest client.schema.types t.nodes t.preset (.object all) =
        s.operation.inputRequest client.schema.types s.nodes s.preset (.object more) := by
      rw [ht, hnodes, hnone, hs, Operation.inputRequest_override hinput hpreset hmore hall]
    have hplain := client.selectionBy_comesTo b t (.object all)
    rw [hsame] at hplain
    exact ⟨_, client.selectionBy_comesTo a s (.object more), hplain⟩
  · intro a b hlater
    have hsame : t.operation.inputRequest client.schema.types t.nodes t.preset (.object preset) =
        s.operation.defaultRequest client.schema.types s.nodes s.preset := by
      rw [ht, hnodes, hnone, hs, Operation.inputRequest_preset hinput hpreset haccepted]
    have hplain := client.selectionBy_comesTo b t (.object preset)
    rw [hsame] at hplain
    exact ⟨_, Client.enterResult_comesTo hentered hlater, hplain⟩

end Meeting

/-- For every operation with input. Input given in advance and overridden comes to the same as all
of it given later, by default and after a selection, and accepted input comes to the same in advance
and later. A field is supplied alike through its shortcut, by its name and as an object. -/
theorem routes_agree (client : Client) (kind : OperationKind) (name : String) (o : Operation)
    (ho : client.schema.operation kind name = .ok o) (hinput : o.hasInput = true) :
    (∀ preset more all : Input, (Entries.keys preset).Nodup → (Entries.keys more).Nodup →
      Entries.Overrides preset more all →
      ∀ a a' c, client.call a kind name (some (.object preset)) = .ok (c, a') →
      ∀ b, ∃ d b', client.call b kind name none = .ok (d, b') ∧
        RoutesMeet (client.callBy · c) (client.callBy · d) c.request a' preset more all ∧
        ∀ nodes a b,
          (∃ error, client.select a c nodes = .error error ∧
            client.select b d nodes = .error error) ∨
          ∃ s t a' b', client.select a c nodes = .ok (s, a') ∧
          client.select b d nodes = .ok (t, b') ∧
            RoutesMeet (client.selectionBy · s) (client.selectionBy · t) s.request a'
              preset more all) ∧
    ∀ shortcut field, o.shortcut? shortcut = some field → ∀ value ledger,
      (∀ c : Call, c.operation = o →
        client.callByShortcut ledger c shortcut value =
          client.callBy ledger c (.object [(field, value)]) ∧
        client.callByField ledger c field value =
          client.callBy ledger c (.object [(field, value)])) ∧
      ∀ s : Selection, s.operation = o →
        client.selectionByShortcut ledger s shortcut value =
          client.selectionBy ledger s (.object [(field, value)]) ∧
        client.selectionByField ledger s field value =
          client.selectionBy ledger s (.object [(field, value)]) := by
  constructor
  · intro preset more all hnodup hmore hall a a' c hc b
    obtain ⟨d, b', hd, hdo, hdpreset⟩ := Client.call_without_input ho b
    obtain ⟨hcpreset, haccepted⟩ := Client.call_with_input hc
    obtain ⟨hco, -, hentered⟩ := Client.call_ok hc
    cases ho.symm.trans hco
    refine ⟨d, b', hd, callBy_meet hinput hnodup hmore hall hcpreset haccepted hdo
      hdpreset hentered, ?_⟩
    intro nodes a b
    rcases client.select_cases c.operation nodes with ⟨error, hrefused⟩ | hselects
    · exact Or.inl ⟨error, hrefused a c rfl, hrefused b d hdo⟩
    obtain ⟨s, a', hs⟩ := hselects a c rfl
    obtain ⟨t, b', ht⟩ := hselects b d hdo
    obtain ⟨-, -, hso, hspreset, hsnodes, hentered⟩ := Client.select_ok hs
    obtain ⟨-, -, hto, htpreset, htnodes, -⟩ := Client.select_ok ht
    refine Or.inr ⟨s, t, a', b', hs, ht, ?_⟩
    rw [← hso] at hinput haccepted
    rw [← hso, ← hspreset, ← hsnodes] at hentered
    refine selectionBy_meet hinput hnodup hmore hall
      (hspreset.trans hcpreset) haccepted ?_ ?_ ?_ hentered
    · rw [hto, hdo, hso]
    · rw [htnodes, hsnodes]
    · rw [htpreset, hdpreset]
  · intro shortcut field hfield value ledger
    constructor
    · rintro c rfl
      exact ⟨Client.callByShortcut_eq value hfield ledger,
        Client.callByField_eq value hfield ledger⟩
    · rintro s rfl
      exact ⟨Client.selectionByShortcut_eq value hfield ledger,
        Client.selectionByField_eq value hfield ledger⟩

def quoteDraft : SchemaDraft :=
  SchemaDraft.empty.addAll [.ok (.operation .query "quote"
    ⟨some (.ofList [("amount", "Int!"), ("unit?", "String"), ("note?", "String")]), "Int!"⟩)]

def quoteClient : Client := ⟨quoteDraft.schema, false⟩

def shown (made : ClientResult (Nat × Ledger)) : Except String (Option (String × String)) :=
  (made.map fun entered =>
    (entered.2.get? entered.1).map fun d => (d.body.query, d.body.bindings.text)).mapError
      ClientError.text

theorem SameOutcome.exists_body {made other : ClientResult (Nat × Ledger)} {query bindings : String}
    (h : SameOutcome made other) (hshown : shown made = .ok (some (query, bindings))) :
    ∃ body : RequestBody, ComesTo made (.ok body) ∧ ComesTo other (.ok body) ∧
      body.query = query ∧ body.bindings.text = bindings := by
  obtain ⟨outcome, hmade, hother⟩ := h
  cases hmade with
  | @made id ledger d hd =>
    refine ⟨d.body, .made hd, hother, ?_⟩
    simpa [shown, Except.map, Except.mapError, hd] using hshown
  | refused error => cases hshown

theorem SameOutcome.exists_error {made other : ClientResult (Nat × Ledger)} {text : String}
    (h : SameOutcome made other) (hshown : shown made = .error text) :
    ∃ error, ComesTo made (.error error) ∧ ComesTo other (.error error) ∧ error.text = text := by
  obtain ⟨outcome, hmade, hother⟩ := h
  cases hmade with
  | made hd => cases hshown
  | refused error => exact ⟨error, .refused error, hother, Except.error.inj hshown⟩

def quoteQuery : String :=
  "query quote($amount: Int!, $unit: String, $note: String) \x7b\n" ++
    "  quote(amount: $amount, unit: $unit, note: $note)\n\x7d"

def weighed : Input := [("unit", .string "kg"), ("amount", .number (.int 1))]

def quoteRoutes (more : Input) : List (Except String (Option (String × String))) :=
  match quoteClient.call .empty .query "quote" (some (.object weighed)) with
  | .error error => [.error error.text]
  | .ok (c, a) =>
    match quoteClient.call a .query "quote" none with
    | .error error => [.error error.text]
    | .ok (d, b) =>
      [shown (quoteClient.callBy b c (.object more)), shown (c.request.map fun id => (id, a)),
        shown (quoteClient.callByShortcut b d "byAmount" (.number (.int 3)))]

/-- The amount is overridden in its place, and the note goes to the end. A size is refused on either
route. -/
theorem quote_routes_agree :
    let more : Input := [("note", .null), ("amount", .number (.int 2))]
    let all : Input := [("unit", .string "kg"), ("amount", .number (.int 2)), ("note", .null)]
    let wrong : Input := [("size", .number (.int 2))]
    quoteDraft.build = .ok quoteClient.schema ∧
    ∃ o, quoteClient.schema.operation .query "quote" = .ok o ∧ o.hasInput = true ∧
      Entries.Overrides weighed more all ∧
      ∃ c a, quoteClient.call .empty .query "quote" (some (.object weighed)) = .ok (c, a) ∧
      ∃ d b, quoteClient.call a .query "quote" none = .ok (d, b) ∧
        (∃ body : RequestBody, ComesTo (quoteClient.callBy b c (.object more)) (.ok body) ∧
          ComesTo (quoteClient.callBy b d (.object all)) (.ok body) ∧
          body.query = quoteQuery ∧ body.bindings.text =
            "\x7b\"unit\":\"kg\",\"amount\":2,\"note\":null\x7d") ∧
        (∃ body : RequestBody, ComesTo (c.request.map fun id => (id, a)) (.ok body) ∧
          ComesTo (quoteClient.callBy b d (.object weighed)) (.ok body) ∧
          body.query = quoteQuery ∧ body.bindings.text = "\x7b\"unit\":\"kg\",\"amount\":1\x7d") ∧
        (∃ error, ComesTo (quoteClient.callBy b c (.object wrong)) (.error error) ∧
          ComesTo (quoteClient.callBy b d (.object (weighed ++ wrong))) (.error error) ∧
          error.text = "[INVALID_INPUT] Operation 'Query.quote' has no input field 'size'") ∧
        o.shortcut? "byAmount" = some "amount" ∧
        quoteClient.callByShortcut b d "byAmount" (.number (.int 3)) =
          quoteClient.callBy b d (.object [("amount", .number (.int 3))]) ∧
        shown (quoteClient.callByShortcut b d "byAmount" (.number (.int 3))) =
          .ok (some (quoteQuery, "\x7b\"amount\":3\x7d")) := by
  intro more all wrong
  have hbuild : quoteDraft.build = .ok quoteClient.schema :=
    SchemaDraft.build_eq_schema (by decide +kernel)
  have hview : (quoteClient.schema.operation .query "quote").toOption.map
      (fun o => (o.hasInput, o.shortcut? "byAmount")) = some (true, some "amount") := by
      decide +kernel
  have hcall : (quoteClient.call .empty .query "quote" (some (.object weighed))).toOption.isSome =
      true := by
    decide +kernel
  have hroutes : quoteRoutes more =
      [.ok (some (quoteQuery, "\x7b\"unit\":\"kg\",\"amount\":2,\"note\":null\x7d")),
        .ok (some (quoteQuery, "\x7b\"unit\":\"kg\",\"amount\":1\x7d")),
        .ok (some (quoteQuery, "\x7b\"amount\":3\x7d"))] := by decide +kernel
  have hwrong : (quoteRoutes wrong).head? =
      some (.error "[INVALID_INPUT] Operation 'Query.quote' has no input field 'size'") := by
    decide +kernel
  obtain ⟨o, ho, hviewed⟩ := Option.map_eq_some_iff.mp hview
  obtain ⟨hinput, hshortcut⟩ := Prod.mk.inj hviewed
  obtain ⟨⟨c, a⟩, hc⟩ := Option.isSome_iff_exists.mp hcall
  replace ho := toOption_eq_some.mp ho
  replace hc := toOption_eq_some.mp hc
  have hoverrides : Entries.Overrides weighed more all := Entries.merge_overrides (by decide)
  have hwrongs : Entries.Overrides weighed wrong (weighed ++ wrong) :=
    Entries.merge_overrides (by decide)
  obtain ⟨hpresets, hfields⟩ := routes_agree quoteClient .query "quote" o ho hinput
  obtain ⟨d, b, hd, hmeet, -⟩ :=
    hpresets weighed more all (by decide) (by decide) hoverrides .empty a c hc a
  obtain ⟨d', b', hd', hmeet', -⟩ :=
    hpresets weighed wrong (weighed ++ wrong) (by decide) (by decide) hwrongs .empty a c hc a
  cases hd.symm.trans hd'
  have hdo : d.operation = o := Except.ok.inj ((Client.call_ok hd).1.symm.trans ho)
  simp only [quoteRoutes, hc, hd, List.cons.injEq, and_true] at hroutes
  simp only [quoteRoutes, hc, hd, List.head?_cons, Option.some.injEq] at hwrong
  obtain ⟨hsupplied, hdefault, hbyAmount⟩ := hroutes
  exact ⟨hbuild, o, ho, hinput, hoverrides, c, a, hc, d, b, hd,
    (hmeet.supplied b b).exists_body hsupplied,
    (hmeet.default a b (Ledger.Grows.refl a).extends).exists_body hdefault,
    (hmeet'.supplied b b).exists_error hwrong, hshortcut,
    ((hfields "byAmount" "amount" hshortcut (.number (.int 3)) b).1 d hdo).1, hbyAmount⟩

end GraphQLClient
