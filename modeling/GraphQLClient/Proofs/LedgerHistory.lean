import GraphQLClient.Client.Session
import GraphQLClient.Proofs.OrderedMaps
import GraphQLClient.Proofs.Outcomes

/-!
# What becomes of a ledger

Picking, narrowing and supplying enter requests and supersede others; only awaiting sends and
settles one. A request keeps its operation, its body and, once it is settled, its outcome.
-/
namespace GraphQLClient

open Outcome

namespace Ledger

variable {a b c ledger : Ledger} {id : Nat}

@[simp] theorem sent_record (id : Nat) (outcome : ClientResult Json) :
    (ledger.record id outcome).sent = ledger.sent := rfl

theorem get?_enter (o : Operation) (body : RequestBody) (i : Nat) :
    (ledger.enter o body).2.get? i =
      if i = ledger.dispatches.length then some ⟨o, body, false, none⟩ else ledger.get? i := by
  simp only [get?, enter]
  rcases Nat.lt_trichotomy i ledger.dispatches.length with h | h | h
  · rw [List.getElem?_append_left h, if_neg (by omega)]
  · simp [h]
  · rw [if_neg (by omega), List.getElem?_eq_none (by simp; omega), List.getElem?_eq_none (by omega)]

@[simp] theorem get?_enter_self (ledger : Ledger) (o : Operation) (body : RequestBody) :
    (ledger.enter o body).2.get? (ledger.enter o body).1 = some ⟨o, body, false, none⟩ := by
  rw [get?_enter]
  exact if_pos rfl

@[simp] theorem get?_supersede (id i : Nat) :
    (ledger.supersede id).get? i =
      (ledger.get? i).map fun d => if id = i then { d with superseded := true } else d := by
  simp only [get?, supersede, List.getElem?_modify]
  rfl

@[simp] theorem get?_record (id i : Nat) (outcome : ClientResult Json) :
    (ledger.record id outcome).get? i =
      (ledger.get? i).map fun d => if id = i then { d with outcome := some outcome } else d := by
  simp only [get?, record, List.getElem?_modify]
  rfl

@[simp] theorem get?_sent (sent : List Sending) (i : Nat) :
    get? { ledger with sent := sent } i = ledger.get? i := rfl

structure Grows (a b : Ledger) : Prop where
  sent : b.sent = a.sent
  kept : ∀ {id d}, a.get? id = some d → ∃ d', b.get? id = some d' ∧ d'.operation = d.operation ∧
    d'.body = d.body ∧ d'.outcome = d.outcome ∧ (d.superseded → d'.superseded)
  settled : ∀ {id d'}, b.get? id = some d' → d'.outcome ≠ none →
    ∃ d, a.get? id = some d ∧ d.outcome ≠ none

theorem Grows.refl (a : Ledger) : Grows a a :=
  ⟨rfl, fun {_ d} h => ⟨d, h, rfl, rfl, rfl, id⟩, fun {_ d} h ho => ⟨d, h, ho⟩⟩

theorem Grows.trans (h : Grows a b) (k : Grows b c) : Grows a c := by
  refine ⟨k.sent.trans h.sent, ?_, ?_⟩
  · intro id d hd
    obtain ⟨d', hd', hop, hbody, hout, hsup⟩ := h.kept hd
    obtain ⟨d'', hd'', hop', hbody', hout', hsup'⟩ := k.kept hd'
    exact ⟨d'', hd'', hop'.trans hop, hbody'.trans hbody, hout'.trans hout, hsup' ∘ hsup⟩
  · intro id d'' hd'' ho
    obtain ⟨d', hd', ho'⟩ := k.settled hd'' ho
    exact h.settled hd' ho'

theorem grows_enter (o : Operation) (body : RequestBody) :
    Grows ledger (ledger.enter o body).2 := by
  refine ⟨rfl, ?_, ?_⟩
  · intro id d hd
    refine ⟨d, ?_, rfl, rfl, rfl, fun h => h⟩
    have hlt : id < ledger.dispatches.length := (List.getElem?_eq_some_iff.mp hd).1
    rw [get?_enter, if_neg (by omega), hd]
  · intro id d hd ho
    rw [get?_enter] at hd
    split_ifs at hd
    · cases hd; exact absurd rfl ho
    · exact ⟨d, hd, ho⟩

theorem grows_supersede (id : Nat) : Grows ledger (ledger.supersede id) := by
  refine ⟨rfl, ?_, ?_⟩
  · intro i d hd
    rw [get?_supersede, hd]
    by_cases h : id = i
    · exact ⟨_, rfl, by simp [h]⟩
    · exact ⟨_, rfl, by simp [h]⟩
  · intro i d' hd' ho
    rw [get?_supersede] at hd'
    obtain ⟨d, hd, rfl⟩ := Option.map_eq_some_iff.mp hd'
    refine ⟨d, hd, ?_⟩
    split_ifs at ho
    · exact ho
    · exact ho

theorem superseded_supersede {d : Dispatch} (hd : ledger.get? id = some d) :
    ∃ d', (ledger.supersede id).get? id = some d' ∧ d'.superseded := by
  simp [hd]

theorem grows_supersedeResult (ledger : Ledger) (request : ClientResult Nat) :
    Grows ledger (ledger.supersedeResult request) := by
  cases request with
  | ok id => exact grows_supersede id
  | error error => exact Grows.refl _

end Ledger

/-- What calls and selections have in common: what they are of, and the request made by default. -/
structure Receiver where
  operation : Operation
  preset : Option Input
  request : ClientResult Nat

def Call.receiver (c : Call) : Receiver := ⟨c.operation, c.preset, c.request⟩

def Selection.receiver (s : Selection) : Receiver := ⟨s.operation, s.preset, s.request⟩

namespace Client

variable {client : Client} {ledger ledger' : Ledger}

theorem enterResult_grows (ledger : Ledger) (o : Operation) (body : ClientResult RequestBody) :
    ledger.Grows (enterResult ledger o body).2 ∧
      ∀ id, (enterResult ledger o body).1 = .ok id →
        ((enterResult ledger o body).2.get? id).isSome := by
  cases body with
  | error error => exact ⟨Ledger.Grows.refl _, nofun⟩
  | ok body =>
    refine ⟨Ledger.grows_enter o body, ?_⟩
    rintro id ⟨⟩
    change ((ledger.enter o body).2.get? (ledger.enter o body).1).isSome
    simp

def ownBody (client : Client) (o : Operation) (preset : Option Input) :
    ClientResult RequestBody := do
  o.defaultRequest client.schema.types (← client.schema.defaultSelection o) preset

def checkPreset (o : Operation) : Option Json → ClientResult (Option Input)
  | some given => some <$> o.checkInput given
  | none => .ok none

theorem call_eq (client : Client) (ledger : Ledger) (kind : OperationKind) (name : String)
    (input : Option Json) :
    client.call ledger kind name input = (do
      let o ← (client.schema.operation kind name).mapError ClientError.ofSchemaError
      let preset ← checkPreset o input
      let made := enterResult ledger o (client.ownBody o preset)
      return (⟨o, preset, made.1⟩, made.2)) := by
  cases input <;> rfl

theorem call_ok {kind : OperationKind} {name : String} {input : Option Json} {c : Call}
    (h : client.call ledger kind name input = .ok (c, ledger')) :
    client.schema.operation kind name = .ok c.operation ∧
      checkPreset c.operation input = .ok c.preset ∧
      enterResult ledger c.operation (client.ownBody c.operation c.preset) =
        (c.request, ledger') := by
  rw [call_eq] at h
  obtain ⟨o, ho, h⟩ := bind_eq_ok.mp h
  obtain ⟨preset, hpreset, h⟩ := bind_eq_ok.mp h
  cases h
  exact ⟨mapError_eq_ok.mp ho, hpreset, rfl⟩

theorem select_ok {c : Call} {nodes : List Node} {s : Selection}
    (h : client.select ledger c nodes = .ok (s, ledger')) :
    c.operation.terminal = false ∧
      client.schema.types.checkSelection c.operation.kind.sectionName c.operation.name
        c.operation.returnType nodes = .ok () ∧
      s.operation = c.operation ∧ s.preset = c.preset ∧ s.nodes = nodes ∧
      enterResult (ledger.supersedeResult c.request) c.operation
        (c.operation.defaultRequest client.schema.types nodes c.preset) = (s.request, ledger') := by
  simp only [select] at h
  split_ifs at h with hterminal
  · cases h
  obtain ⟨⟨⟩, hcheck, h⟩ := bind_eq_ok.mp h
  cases h
  exact ⟨by simpa using hterminal, mapError_eq_ok.mp hcheck, rfl, rfl, rfl, rfl⟩

theorem refine_ok {o : Operation} {preset : Option Input} {nodes : List Node}
    {replaced : ClientResult Nat} {input : Json} {id : Nat}
    (h : client.refine ledger o preset nodes replaced input = .ok (id, ledger')) :
    ∃ body, o.inputRequest client.schema.types nodes preset input = .ok body ∧
      id = (ledger.enter o body).1 ∧ ledger' =
        (ledger.enter o body).2.supersedeResult replaced := by
  obtain ⟨body, hbody, h⟩ := bind_eq_ok.mp h
  cases h
  exact ⟨body, hbody, rfl, rfl⟩

theorem call_grows {kind : OperationKind} {name : String} {input : Option Json} {c : Call}
    (h : client.call ledger kind name input = .ok (c, ledger')) :
    ledger.Grows ledger' ∧ ∀ id, c.request = .ok id → (ledger'.get? id).isSome := by
  have hmade := enterResult_grows ledger c.operation
    (client.ownBody c.operation c.preset)
  rwa [(call_ok h).2.2] at hmade

theorem select_grows {c : Call} {nodes : List Node} {s : Selection}
    (h : client.select ledger c nodes = .ok (s, ledger')) :
    ledger.Grows ledger' ∧ ∀ id, s.request = .ok id → (ledger'.get? id).isSome := by
  obtain ⟨-, -, -, -, -, hentered⟩ := select_ok h
  have hmade := enterResult_grows (ledger.supersedeResult c.request) c.operation
    (c.operation.defaultRequest client.schema.types nodes c.preset)
  rw [hentered] at hmade
  exact ⟨(Ledger.grows_supersedeResult ledger c.request).trans hmade.1, hmade.2⟩

theorem refine_grows {o : Operation} {preset : Option Input} {nodes : List Node}
    {replaced : ClientResult Nat} {input : Json} {id : Nat}
    (h : client.refine ledger o preset nodes replaced input = .ok (id, ledger')) :
    ledger.Grows ledger' ∧ (ledger'.get? id).isSome := by
  obtain ⟨body, -, rfl, rfl⟩ := refine_ok h
  have hnew := Ledger.get?_enter_self ledger o body
  have hsuperseded := Ledger.grows_supersedeResult (ledger.enter o body).2 replaced
  refine ⟨(Ledger.grows_enter o body).trans hsuperseded, ?_⟩
  obtain ⟨d', hd', -⟩ := hsuperseded.kept hnew
  rw [hd']
  rfl

theorem select_supersedes {c : Call} {nodes : List Node} {s : Selection} {id : Nat}
    (h : client.select ledger c nodes = .ok (s, ledger')) (hr : c.request = .ok id)
    (hid : (ledger.get? id).isSome) : ∃ d, ledger'.get? id = some d ∧ d.superseded := by
  obtain ⟨-, -, -, -, -, hentered⟩ := select_ok h
  obtain ⟨d, hd⟩ := Option.isSome_iff_exists.mp hid
  obtain ⟨d', hd', hsup⟩ := Ledger.superseded_supersede hd
  have hgrows := (enterResult_grows (ledger.supersedeResult c.request) c.operation
    (c.operation.defaultRequest client.schema.types nodes c.preset)).1
  rw [hentered, hr] at hgrows
  obtain ⟨d'', hd'', -, -, -, hsup'⟩ := hgrows.kept hd'
  exact ⟨d'', hd'', hsup' hsup⟩

/-- If a request is made at all, it is for an input, and in place of the given one. -/
def Refines (client : Client) (ledger : Ledger) (replaced : ClientResult Nat)
    (made : ClientResult (Nat × Ledger)) : Prop :=
  ∀ m, made = .ok m → ∃ o preset nodes input,
    client.refine ledger o preset nodes replaced input = .ok m

section

variable {replaced : ClientResult Nat} {made : ClientResult (Nat × Ledger)}

theorem Refines.grows (h : client.Refines ledger replaced made) {id : Nat}
    (hm : made = .ok (id, ledger')) : ledger.Grows ledger' ∧ (ledger'.get? id).isSome := by
  obtain ⟨o, preset, nodes, input, hrefine⟩ := h _ hm
  exact refine_grows hrefine

theorem Refines.supersedes {id : Nat} (h : client.Refines ledger (.ok id) made)
    (hid : (ledger.get? id).isSome) {m : Nat × Ledger} (hm : made = .ok m) :
    ∃ d, m.2.get? id = some d ∧ d.superseded := by
  obtain ⟨o, preset, nodes, input, hrefine⟩ := h m hm
  obtain ⟨body, -, -, hledger⟩ := refine_ok hrefine
  obtain ⟨d, hd⟩ := Option.isSome_iff_exists.mp hid
  obtain ⟨d', hd', -⟩ := (Ledger.grows_enter o body).kept hd
  rw [hledger]
  exact Ledger.superseded_supersede hd'

end

/-- If a request is made at all, it is of what the receiver was picked for, and in place of its
own. -/
def RefinesFor (client : Client) (ledger : Ledger) (r : Receiver)
    (made : ClientResult (Nat × Ledger)) : Prop :=
  ∀ m, made = .ok m → ∃ nodes input,
    client.refine ledger r.operation r.preset nodes r.request input = .ok m

theorem RefinesFor.refines {r : Receiver} {made : ClientResult (Nat × Ledger)}
    (h : client.RefinesFor ledger r made) : client.Refines ledger r.request made := by
  intro m hm
  obtain ⟨nodes, input, hrefine⟩ := h m hm
  exact ⟨_, _, nodes, input, hrefine⟩

/-! Every way of supplying an input is a refinement. -/

theorem callBy_refines (c : Call) (input : Json) :
    client.RefinesFor ledger c.receiver (client.callBy ledger c input) := by
  intro m h
  obtain ⟨nodes, -, h⟩ := bind_eq_ok.mp h
  exact ⟨nodes, input, h⟩

theorem callByField_refines (c : Call) (field : String) (value : Json) :
    client.RefinesFor ledger c.receiver (client.callByField ledger c field value) := by
  intro m h
  obtain ⟨input, -, h⟩ := bind_eq_ok.mp h
  exact callBy_refines c input m h

theorem callByShortcut_refines (c : Call) (shortcut : String) (value : Json) :
    client.RefinesFor ledger c.receiver (client.callByShortcut ledger c shortcut value) := by
  intro m h
  obtain ⟨field, -, h⟩ := bind_eq_ok.mp h
  exact callByField_refines c field value m h

theorem selectionBy_refines (s : Selection) (input : Json) :
    client.RefinesFor ledger s.receiver (client.selectionBy ledger s input) :=
  fun _ h => ⟨s.nodes, input, h⟩

theorem selectionByField_refines (s : Selection) (field : String) (value : Json) :
    client.RefinesFor ledger s.receiver (client.selectionByField ledger s field value) := by
  intro m h
  obtain ⟨input, -, h⟩ := bind_eq_ok.mp h
  exact selectionBy_refines s input m h

theorem selectionByShortcut_refines (s : Selection) (shortcut : String) (value : Json) :
    client.RefinesFor ledger s.receiver (client.selectionByShortcut ledger s shortcut value) := by
  intro m h
  obtain ⟨field, -, h⟩ := bind_eq_ok.mp h
  exact selectionByField_refines s field value m h

def answered (client : Client) (transport : Transport) (ledger : Ledger) (d : Dispatch) :
    ClientResult Json :=
  (transport ledger.sent.length d.body).bind (client.outcomeOf d.operation)

variable {transport : Transport} {id : Nat} {d : Dispatch}

theorem await_settled (hd : ledger.get? id = some d) {outcome : ClientResult Json}
    (ho : d.outcome = some outcome) : client.await transport ledger id = (outcome, ledger) := by
  simp only [await, hd, ho]

/-- What is sent of an open request when it is awaited, and what it is settled as. -/
def firstAwait (client : Client) (transport : Transport) (ledger : Ledger) (id : Nat)
    (d : Dispatch) : List Sending × ClientResult Json :=
  if d.superseded then ([], .ok .null)
  else ([.entry id d.body], client.answered transport ledger d)

theorem length_firstAwait (client : Client) (transport : Transport) (ledger : Ledger) (id : Nat)
    (d : Dispatch) : (client.firstAwait transport ledger id d).1.length ≤ 1 := by
  unfold firstAwait
  split_ifs
  · exact Nat.zero_le 1
  · exact Nat.le_refl 1

theorem mem_firstAwait {entry : Sending} (h : entry ∈ (client.firstAwait transport ledger id d).1) :
    entry = .entry id d.body := by
  unfold firstAwait at h
  split_ifs at h
  · cases h
  · exact List.mem_singleton.mp h

theorem await_open (hd : ledger.get? id = some d) (ho : d.outcome = none) :
    client.await transport ledger id = ((client.firstAwait transport ledger id d).2,
      { ledger with sent := ledger.sent ++ (client.firstAwait transport ledger id d).1 }.record id
        (client.firstAwait transport ledger id d).2) := by
  cases hs : d.superseded with
  | true => simp only [await, hd, ho, hs, firstAwait, if_true, List.append_nil]
  | false =>
    simp only [await, hd, ho, hs, firstAwait]
    rfl

theorem await_settles (client : Client) (transport : Transport) (hd : ledger.get? id = some d) :
    ∃ d', (client.await transport ledger id).2.get? id = some d' ∧
      d'.outcome = some (client.await transport ledger id).1 := by
  cases ho : d.outcome with
  | some outcome =>
    rw [await_settled hd ho]
    exact ⟨d, hd, ho⟩
  | none =>
    rw [await_open hd ho]
    simp [hd]

/-- Awaiting one request leaves the outcomes of the others alone. -/
theorem await_settled_before {i : Nat} {d' : Dispatch}
    (hd' : (client.await transport ledger id).2.get? i = some d') (ho' : d'.outcome ≠ none)
    (hne : id ≠ i) : ∃ d, ledger.get? i = some d ∧ d.outcome ≠ none := by
  cases hd : ledger.get? id with
  | none =>
    simp only [await, hd] at hd'
    exact ⟨d', hd', ho'⟩
  | some d =>
    cases ho : d.outcome with
    | some outcome =>
      rw [await_settled hd ho] at hd'
      exact ⟨d', hd', ho'⟩
    | none =>
      rw [await_open hd ho] at hd'
      simp only [Ledger.get?_record, Ledger.get?_sent, hne, if_false, Option.map_id'] at hd'
      exact ⟨d', hd', ho'⟩

end Client

inductive Ledger.Change (client : Client) (transport : Transport) (a : Ledger) : Ledger → Prop where
  | grow {b : Ledger} : a.Grows b → Change client transport a b
  | await (id : Nat) : (a.get? id).isSome →
      Change client transport a (client.await transport a id).2
  | own (body : RequestBody) : Change client transport a (Client.execute transport a body).2

def Sending.isEntry (id : Nat) : Sending → Bool
  | .entry other _ => other == id
  | .own _ => false

namespace Ledger

variable {client : Client} {transport : Transport} {a b c : Ledger} {id : Nat}

structure Extends (a b : Ledger) : Prop where
  kept : ∀ {id d}, a.get? id = some d → ∃ d', b.get? id = some d' ∧ d'.operation = d.operation ∧
    d'.body = d.body ∧ (d.superseded → d'.superseded) ∧
    ∀ outcome, d.outcome = some outcome → d'.outcome = some outcome

theorem Extends.isSome (h : Extends a b) (hid : (a.get? id).isSome) : (b.get? id).isSome := by
  obtain ⟨d, hd⟩ := Option.isSome_iff_exists.mp hid
  obtain ⟨d', hd', -⟩ := h.kept hd
  rw [hd']
  rfl

theorem Grows.extends (h : Grows a b) : Extends a b := by
  refine ⟨?_⟩
  intro id d hd
  obtain ⟨d', hd', hop, hbody, hout, hsup⟩ := h.kept hd
  exact ⟨d', hd', hop, hbody, hsup, fun outcome ho => hout.trans ho⟩

theorem extends_record {d : Dispatch} (hd : a.get? id = some d) (ho : d.outcome = none)
    (sent : List Sending) (outcome : ClientResult Json) :
    Extends a ({ a with sent := sent }.record id outcome) := by
  refine ⟨?_⟩
  intro i e he
  rw [get?_record, get?_sent, he, Option.map_some]
  refine ⟨_, rfl, ?_⟩
  split_ifs with h
  · subst h
    cases hd.symm.trans he
    exact ⟨rfl, rfl, fun h => h, fun outcome' ho' => by simp [ho] at ho'⟩
  · exact ⟨rfl, rfl, fun h => h, fun outcome' ho' => ho'⟩

theorem Extends.settles (h : Extends a b) {outcome : ClientResult Json}
    (ha : ∃ d, a.get? id = some d ∧ d.outcome = some outcome) :
    ∃ d, b.get? id = some d ∧ d.outcome = some outcome := by
  obtain ⟨d, hd, ho⟩ := ha
  obtain ⟨d', hd', -, -, -, hout⟩ := h.kept hd
  exact ⟨d', hd', hout outcome ho⟩

theorem Change.extends (h : Change client transport a b) : Extends a b := by
  cases h with
  | grow h => exact h.extends
  | own body => exact ⟨fun {_ d} hd => ⟨d, hd, rfl, rfl, fun h => h, fun _ h => h⟩⟩
  | await id hid =>
    obtain ⟨d, hd⟩ := Option.isSome_iff_exists.mp hid
    cases ho : d.outcome with
    | some outcome =>
      rw [Client.await_settled hd ho]
      exact (Grows.refl a).extends
    | none =>
      rw [Client.await_open hd ho]
      exact extends_record hd ho _ _

structure Faithful (ledger : Ledger) : Prop where
  once : ∀ id, ledger.sent.countP (Sending.isEntry id) ≤ 1
  settled : ∀ {id body}, Sending.entry id body ∈ ledger.sent →
    ∃ d, ledger.get? id = some d ∧ d.body = body ∧ d.outcome ≠ none

theorem faithful_empty : Faithful empty := ⟨fun _ => Nat.zero_le _, nofun⟩

theorem Faithful.unsent (h : Faithful a) {d : Dispatch} (hd : a.get? id = some d)
    (ho : d.outcome = none) : ∀ body, Sending.entry id body ∉ a.sent := by
  intro body hmem
  obtain ⟨e, he, -, hout⟩ := h.settled hmem
  cases hd.symm.trans he
  exact hout ho

theorem Extends.settled (h : Extends a b) {body : RequestBody}
    (ha : ∃ d, a.get? id = some d ∧ d.body = body ∧ d.outcome ≠ none) :
    ∃ d, b.get? id = some d ∧ d.body = body ∧ d.outcome ≠ none := by
  obtain ⟨d, hd, hbody, hout⟩ := ha
  obtain ⟨d', hd', -, hbody', -, hout'⟩ := h.kept hd
  obtain ⟨outcome, ho⟩ := Option.ne_none_iff_exists'.mp hout
  exact ⟨d', hd', hbody'.trans hbody, by simp [hout' outcome ho]⟩

theorem countP_isEntry_eq_zero {sent : List Sending} (h : ∀ body, Sending.entry id body ∉ sent) :
    sent.countP (Sending.isEntry id) = 0 := by
  rw [List.countP_eq_zero]
  rintro (⟨other, body⟩ | body) hmem hentry
  · rw [Sending.isEntry, beq_iff_eq] at hentry
    subst hentry
    exact h body hmem
  · cases hentry

theorem Change.faithful (h : Change client transport a b) (ha : Faithful a) : Faithful b := by
  have hext := h.extends
  cases h with
  | grow h =>
    refine ⟨fun id => h.sent ▸ ha.once id, ?_⟩
    intro id body hmem
    rw [h.sent] at hmem
    exact hext.settled (ha.settled hmem)
  | own body =>
    constructor
    · intro id
      change (a.sent ++ [Sending.own body]).countP _ ≤ 1
      simpa [List.countP_append, Sending.isEntry] using ha.once id
    · intro id other hmem
      rcases List.mem_append.mp hmem with hmem | hmem
      · exact hext.settled (ha.settled hmem)
      · simp at hmem
  | await id hid =>
    obtain ⟨d, hd⟩ := Option.isSome_iff_exists.mp hid
    cases ho : d.outcome with
    | some outcome =>
      rw [Client.await_settled hd ho]
      exact ha
    | none =>
      have hunsent := countP_isEntry_eq_zero (ha.unsent hd ho)
      rw [Client.await_open hd ho] at hext ⊢
      constructor
      · intro i
        rw [sent_record, List.countP_append]
        by_cases hi : i = id
        · subst hi
          rw [hunsent, Nat.zero_add]
          exact Nat.le_trans List.countP_le_length (Client.length_firstAwait client transport a i d)
        · have hnone : (client.firstAwait transport a id d).1.countP (Sending.isEntry i) = 0 := by
            rw [List.countP_eq_zero]
            intro entry hmem
            rw [Client.mem_firstAwait hmem]
            simp [Sending.isEntry, Ne.symm hi]
          rw [hnone, Nat.add_zero]
          exact ha.once i
      · intro i body hmem
        rcases List.mem_append.mp hmem with hmem | hmem
        · exact hext.settled (ha.settled hmem)
        · cases Client.mem_firstAwait hmem
          simp [hd]

def Skipped (ledger : Ledger) (id : Nat) : Prop :=
  (∀ body, Sending.entry id body ∉ ledger.sent) ∧ ∃ d, ledger.get? id = some d ∧ d.superseded ∧
    (d.outcome = none ∨ d.outcome = some (.ok .null))

theorem Change.skipped (h : Change client transport a b) (ha : Skipped a id) : Skipped b id := by
  obtain ⟨hunsent, d, hd, hsup, hout⟩ := ha
  cases h with
  | grow h =>
    obtain ⟨d', hd', -, -, hout', hsup'⟩ := h.kept hd
    exact ⟨h.sent ▸ hunsent, d', hd', hsup' hsup, hout' ▸ hout⟩
  | own other =>
    refine ⟨?_, d, hd, hsup, hout⟩
    intro body hmem
    rcases List.mem_append.mp hmem with hmem | hmem
    · exact hunsent body hmem
    · simp at hmem
  | await i hi =>
    obtain ⟨e, he⟩ := Option.isSome_iff_exists.mp hi
    cases ho : e.outcome with
    | some outcome =>
      rw [Client.await_settled he ho]
      exact ⟨hunsent, d, hd, hsup, hout⟩
    | none =>
      have hnull : i = id → client.firstAwait transport a i e = ([], .ok .null) := by
        rintro rfl
        cases hd.symm.trans he
        exact if_pos hsup
      rw [Client.await_open he ho]
      constructor
      · intro body hmem
        rcases List.mem_append.mp hmem with hmem | hmem
        · exact hunsent body hmem
        · cases Client.mem_firstAwait hmem
          rw [hnull rfl] at hmem
          cases hmem
      · rw [get?_record, get?_sent, hd]
        refine ⟨_, rfl, ?_⟩
        split_ifs with hid
        · exact ⟨hsup, Or.inr (by rw [hnull hid])⟩
        · exact ⟨hsup, hout⟩

end Ledger

end GraphQLClient
