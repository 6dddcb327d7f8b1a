import GraphQLClient.Proofs.RequestOrigins

/-!
# Refinement is atomic and local

A refinement that is refused changes nothing. Any other makes one request at most and gives up one
at most, the default request of what it refines.
-/
namespace GraphQLClient

open Outcome

namespace Ledger

variable {a ledger : Ledger} {id : Nat} {d : Dispatch}

@[simp] theorem get?_length (ledger : Ledger) : ledger.get? ledger.dispatches.length = none :=
  List.getElem?_eq_none (Nat.le_refl _)

theorem get?_enter_old (h : ledger.get? id = some d) (o : Operation) (body : RequestBody) :
    (ledger.enter o body).2.get? id = some d := by
  have hlt : id < ledger.dispatches.length := (List.getElem?_eq_some_iff.mp h).1
  rw [get?_enter, if_neg (by omega), h]

@[simp] theorem get?_supersedeResult (request : ClientResult Nat) (i : Nat) :
    (ledger.supersedeResult request).get? i = (ledger.get? i).map fun d =>
      if request.toOption = some i then { d with superseded := true } else d := by
  cases request with
  | error error => simp [supersedeResult, Except.toOption]
  | ok id => simp [supersedeResult, Except.toOption]

/-- One request at most takes the place of another one, which is superseded. All others stay as they
are, and nothing is sent. -/
structure Replaces (replaced made : ClientResult Nat) (a b : Ledger) : Prop where
  sent : b.sent = a.sent
  old : ∀ {id d}, a.get? id = some d → b.get? id =
    some (if replaced.toOption = some id then { d with superseded := true } else d)
  fresh : ∀ {id}, made = .ok id → a.get? id = none ∧ ∃ d, b.get? id = some d ∧ d.superseded = false
  only : ∀ {id}, (b.get? id).isSome → (a.get? id).isSome ∨ made = .ok id

/-- The old request is given up first, the new one may not come to be. -/
theorem replaces_enterResult (a : Ledger) (replaced : ClientResult Nat) (o : Operation)
    (body : ClientResult RequestBody) :
    a.Replaces replaced (Client.enterResult (a.supersedeResult replaced) o body).1
      (Client.enterResult (a.supersedeResult replaced) o body).2 := by
  have hold : ∀ {id d}, a.get? id = some d → (a.supersedeResult replaced).get? id =
      some (if replaced.toOption = some id then { d with superseded := true } else d) := by
    intro id d hd
    simp [hd]
  have hsome : ∀ {id}, ((a.supersedeResult replaced).get? id).isSome → (a.get? id).isSome := by
    intro id hid
    simpa using hid
  have hsent : (a.supersedeResult replaced).sent = a.sent := (grows_supersedeResult a replaced).sent
  cases body with
  | error error => exact ⟨hsent, hold, nofun, fun hid => Or.inl (hsome hid)⟩
  | ok body =>
    refine ⟨hsent, fun hd => get?_enter_old (hold hd) o body, ?_, ?_⟩
    · rintro id ⟨⟩
      refine ⟨?_, _, get?_enter_self _ o body, rfl⟩
      by_contra hne
      obtain ⟨d, hd⟩ := Option.ne_none_iff_exists'.mp hne
      cases (get?_length _).symm.trans (hold hd)
    · intro id hid
      change ((enter (a.supersedeResult replaced) o body).2.get? id).isSome at hid
      rw [get?_enter] at hid
      split_ifs at hid with hnew
      · exact Or.inr (hnew ▸ rfl)
      · exact Or.inl (hsome hid)

/-- The new request is made first, the old one is given up then. -/
theorem replaces_enter {replaced : ClientResult Nat}
    (hknown : ∀ id, replaced = .ok id → (a.get? id).isSome) (o : Operation) (body : RequestBody) :
    a.Replaces replaced (.ok (a.enter o body).1) ((a.enter o body).2.supersedeResult replaced) := by
  refine ⟨(grows_supersedeResult _ replaced).sent, ?_, ?_, ?_⟩
  · intro id d hd
    simp [get?_enter_old hd]
  · rintro id ⟨⟩
    have hnone : a.get? (a.enter o body).1 = none := get?_length a
    have hother : replaced.toOption ≠ some (a.enter o body).1 := by
      intro heq
      have hsome := hknown _ (toOption_eq_some.mp heq)
      rw [hnone] at hsome
      cases hsome
    refine ⟨hnone, ⟨o, body, false, none⟩, ?_, rfl⟩
    simp [hother]
  · intro id hid
    rw [get?_supersedeResult, Option.isSome_map, get?_enter] at hid
    split_ifs at hid with hnew
    · exact Or.inr (hnew ▸ rfl)
    · exact Or.inl hid

end Ledger

namespace Client

variable {client : Client} {ledger ledger' : Ledger}

theorem select_replaces {c : Call} {nodes : List Node} {s : Selection}
    (h : client.select ledger c nodes = .ok (s, ledger')) :
    ledger.Replaces c.request s.request ledger' := by
  obtain ⟨-, -, -, -, -, hentered⟩ := select_ok h
  have hreplaces := Ledger.replaces_enterResult ledger c.request c.operation
    (c.operation.defaultRequest client.schema.types nodes c.preset)
  rwa [hentered] at hreplaces

/-- The input of a call is there or not, whatever is selected. -/
theorem select_sendable {c : Call} {nodes : List Node} {s : Selection}
    (hoffers : client.Offers c.receiver) (h : client.select ledger c nodes = .ok (s, ledger'))
    {id : Nat} (hid : c.request = .ok id) : ∃ id, s.request = .ok id := by
  obtain ⟨-, -, -, -, -, hentered⟩ := select_ok h
  obtain ⟨others, body, hbody⟩ := hoffers.request id hid
  obtain ⟨body', hbody'⟩ := Operation.defaultRequest_anyNodes hbody nodes
  change c.operation.defaultRequest client.schema.types nodes c.preset = .ok body' at hbody'
  rw [hbody'] at hentered
  exact ⟨_, (congrArg Prod.fst hentered).symm⟩

theorem refine_replaces {o : Operation} {preset : Option Input} {nodes : List Node}
    {replaced : ClientResult Nat} {input : Json} {id : Nat}
    (hknown : ∀ id, replaced = .ok id → (ledger.get? id).isSome)
    (h : client.refine ledger o preset nodes replaced input = .ok (id, ledger')) :
    ledger.Replaces replaced (.ok id) ledger' := by
  obtain ⟨body, -, rfl, rfl⟩ := refine_ok h
  exact Ledger.replaces_enter hknown o body

end Client

def Handle.made? : Handle → Option (ClientResult Nat)
  | .request id => some (.ok id)
  | handle => handle.request?

/-- From `s` to `t` the step made a request in place of that of `r`, and bound it. For a selection
there may be no request to make, but there is when `r` had one. -/
structure Step.Refined (x : Step) (r : Receiver) (made : ClientResult Nat) (s t : Session) :
    Prop where
  bound : ∃ target handle, x.target? = some target ∧ t.handle? target = some handle ∧
    handle.made? = some made
  replaces : s.ledger.Replaces r.request made t.ledger
  sendable : (∃ id, r.request = .ok id) ∨ x.supplied?.isSome → ∃ id, made = .ok id

namespace Session

variable {s : Session} {on : String} {handle : Handle} {r : Receiver}

@[simp] theorem handle?_bind (s : Session) (name : String) (handle : Handle) :
    (s.bind name handle).handle? name = some handle := by
  simp [handle?, bind]

theorem Tracked.receiver (h : s.Tracked) (hh : s.handle? on = some handle)
    (hr : handle.receiver? = some r) : ∀ id, r.request = .ok id → (s.ledger.get? id).isSome := by
  intro id hid
  refine (h.handle hh).request ?_
  rw [Handle.request?_eq, hr, Option.map_some, hid]

theorem step_select_refined (hsound : s.Sound) {nodes : List Node} {target : String}
    (hh : s.handle? on = some handle) (hr : handle.receiver? = some r)
    (hdone : ¬ (s.step (.select on nodes target)).2.reply.isRefusal) :
    ∃ made, Step.Refined (.select on nodes target) r made s
      (s.step (.select on nodes target)).1 := by
  simp only [step, withHandle, hh] at hdone ⊢
  cases handle with
  | call c =>
    cases hr
    cases hselect : s.client.select s.ledger c nodes with
    | error error => simp [hselect, fail, quietly, Reply.isRefusal] at hdone
    | ok result =>
      obtain ⟨selection, ledger⟩ := result
      simp only [hselect]
      refine ⟨selection.request, ⟨target, _, rfl, handle?_bind _ _ _, rfl⟩,
        Client.select_replaces hselect, ?_⟩
      rintro (⟨id, hid⟩ | hsupplied)
      · exact Client.select_sendable (hsound.handle hh rfl) hselect hid
      · cases hsupplied
  | selection selection => exact absurd rfl hdone
  | request id => cases hr
  | subscription sink => cases hr

theorem step_supply_refined (htracked : s.Tracked) {x : Step} (hx : x.supplied? = some on)
    (hh : s.handle? on = some handle) (hr : handle.receiver? = some r)
    (hdone : ¬ (s.step x).2.reply.isRefusal) : ∃ made, x.Refined r made s (s.step x).1 := by
  rcases step_supply hx with ⟨-, hrefused⟩ | ⟨found, r', target, made, hfound, hreceiver, htarget,
    hrefines, heq⟩
  · exact absurd hrefused hdone
  · cases hh.symm.trans hfound
    cases hr.symm.trans hreceiver
    rw [heq] at hdone ⊢
    cases made with
    | error error => exact absurd rfl hdone
    | ok m =>
      obtain ⟨id, ledger⟩ := m
      obtain ⟨nodes, input, hrefine⟩ := hrefines _ rfl
      exact ⟨.ok id, ⟨target, _, htarget, handle?_bind _ _ _, rfl⟩,
        Client.refine_replaces (htracked.receiver hh hr) hrefine, fun _ => ⟨id, rfl⟩⟩

theorem bindRequest_done {target : String} {id : Nat} {ledger : Ledger}
    (h : (ledger.get? id).isSome) :
    ¬ (s.bindRequest target (.ok (id, ledger))).2.reply.isRefusal := by
  obtain ⟨d, hd⟩ := Option.isSome_iff_exists.mp h
  simp [bindRequest, showRequest, bind, hd, quietly, Reply.isRefusal]

/-- A refused refinement changes nothing, not even a name. -/
theorem step_refused {x : Step} (hx : x.refined? = some on)
    (hrefused : (s.step x).2.reply.isRefusal) : (s.step x).1 = s := by
  rcases Step.refined?_eq_some hx with ⟨nodes, target, rfl⟩ | hsupplied
  · cases hh : s.handle? on with
    | none => simp only [step, withHandle, hh]
    | some handle =>
      simp only [step, withHandle, hh] at hrefused ⊢
      cases handle with
      | call c =>
        cases hselect : s.client.select s.ledger c nodes with
        | error error => simp only [hselect, fail]
        | ok result => simp [hselect, quietly, Reply.isRefusal] at hrefused
      | _ => rfl
  · rcases step_supply hsupplied with ⟨heq, -⟩ | ⟨found, r, target, made, -, -, -, hrefines, heq⟩
    · exact heq
    · rw [heq] at hrefused ⊢
      cases made with
      | error error => rfl
      | ok m => exact absurd hrefused (bindRequest_done (hrefines.refines.grows rfl).2)

end Session

/-- In every state that a client can be brought to, a refinement of a call or a selection is refused
and changes nothing, or it makes a request in place of the default one and changes nothing else. -/
theorem refinement_local (client : Client) (transport : Transport) (before : List Step) (x : Step)
    (on : String) (handle : Handle) (r : Receiver) :
    let s := (Session.start client transport).after before
    x.refined? = some on → s.handle? on = some handle → handle.receiver? = some r →
      ((s.step x).2.reply.isRefusal → (s.step x).1 = s) ∧
      (¬ (s.step x).2.reply.isRefusal → ∃ made, x.Refined r made s (s.step x).1) := by
  intro s hx hh hr
  have htracked := ((Session.kept_start client transport).after before).tracked
  have hsound := (Session.sound_start client transport).after before
  refine ⟨Session.step_refused hx, ?_⟩
  intro hdone
  rcases Step.refined?_eq_some hx with ⟨nodes, target, rfl⟩ | hsupplied
  · exact Session.step_select_refined hsound hh hr hdone
  · exact Session.step_supply_refined htracked hsupplied hh hr hdone

/-- The call could be sent as it is, but is given an input instead. -/
theorem price_refined :
    let s := (Session.start priceClient risingPrices).after [.call .query "price" none "call"]
    let x := Step.supply "call" (.object [("unit", .string "cent")]) "given"
    ∃ handle r id, s.handle? "call" = some handle ∧ handle.receiver? = some r ∧ r.request = .ok 0 ∧
      ¬ (s.step x).2.reply.isRefusal ∧ x.Refined r (.ok id) s (s.step x).1 := by
  intro s x
  have hview : ((s.handle? "call").bind Handle.receiver?).map (·.request.toOption) =
      some (some 0) := by decide +kernel
  have hdone : ¬ (s.step x).2.reply.isRefusal := by decide +kernel
  obtain ⟨r, hreceiver, hrequest⟩ := Option.map_eq_some_iff.mp hview
  obtain ⟨handle, hh, hr⟩ := Option.bind_eq_some_iff.mp hreceiver
  obtain ⟨made, hrefined⟩ := (refinement_local priceClient risingPrices
    [.call .query "price" none "call"] x "call" handle r rfl hh hr).2 hdone
  obtain ⟨id, rfl⟩ := hrefined.sendable (Or.inr rfl)
  exact ⟨handle, r, id, hh, hr, toOption_eq_some.mp hrequest, hdone, hrefined⟩

end GraphQLClient
