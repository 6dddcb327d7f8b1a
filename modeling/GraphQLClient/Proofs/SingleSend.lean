import GraphQLClient.Proofs.LedgerHistory

/-!
# A request is sent once at most

Over every run of a session: a request reaches the transport when it is first awaited, never again,
and not at all if it was superseded before. All awaits of a request have the outcome of the first.
-/
namespace GraphQLClient

open Outcome

/-- The request that a handle stands for, if any, is in the ledger. -/
def Handle.Known (ledger : Ledger) : Handle → Prop
  | .call c => ∀ id, c.request = .ok id → (ledger.get? id).isSome
  | .selection s => ∀ id, s.request = .ok id → (ledger.get? id).isSome
  | .request id => (ledger.get? id).isSome
  | .subscription _ => True

def Handle.request? : Handle → Option (ClientResult Nat)
  | .call c => some c.request
  | .selection s => some s.request
  | _ => none

def Handle.receiver? : Handle → Option Receiver
  | .call c => some c.receiver
  | .selection s => some s.receiver
  | _ => none

theorem Handle.request?_eq (handle : Handle) :
    handle.request? = handle.receiver?.map Receiver.request := by
  cases handle <;> rfl

theorem Handle.Known.request {ledger : Ledger} {handle : Handle}
    (h : handle.Known ledger) {id : Nat} (hr : handle.request? = some (.ok id)) :
    (ledger.get? id).isSome := by
  cases handle with
  | call c => exact h id (Option.some.inj hr)
  | selection s => exact h id (Option.some.inj hr)
  | request i => cases hr
  | subscription sink => cases hr

theorem Handle.Known.mono {a b : Ledger} (h : a.Extends b) {handle : Handle}
    (hk : handle.Known a) : handle.Known b := by
  cases handle with
  | call c => exact fun id hid => h.isSome (hk id hid)
  | selection s => exact fun id hid => h.isSome (hk id hid)
  | request id => exact h.isSome hk
  | subscription sink => trivial

namespace Session

variable {s t u : Session}

structure Advances (change : Ledger → Ledger → Prop) (s t : Session) : Prop where
  client : t.client = s.client
  transport : t.transport = s.transport
  ledger : change s.ledger t.ledger
  handles : ∀ entry ∈ t.handles, entry ∈ s.handles ∨ entry.2.Known t.ledger

theorem advances_refl (s : Session) : s.Advances Ledger.Grows s :=
  ⟨rfl, rfl, .refl _, fun _ h => Or.inl h⟩

theorem advances_bind {ledger : Ledger} (h : s.ledger.Grows ledger) {target : String}
    {handle : Handle} (hk : handle.Known ledger) :
    s.Advances Ledger.Grows ({ s with ledger := ledger }.bind target handle) := by
  refine ⟨rfl, rfl, h, ?_⟩
  rintro ⟨name, found⟩ hmem
  rcases Entries.mem_insert hmem with rfl | hold
  · exact Or.inr hk
  · exact Or.inl hold

theorem advances_release (name : String) : s.Advances Ledger.Grows (s.release name) :=
  ⟨rfl, rfl, .refl _, fun _ h => Or.inl (List.mem_filter.mp h).1⟩

theorem advances_bindRequest {target : String} {made : ClientResult (Nat × Ledger)}
    (h : ∀ id ledger, made = .ok (id, ledger) → s.ledger.Grows ledger ∧ (ledger.get? id).isSome) :
    s.Advances Ledger.Grows (s.bindRequest target made).1 := by
  cases made with
  | error error => exact advances_refl s
  | ok made =>
    obtain ⟨hgrows, hsome⟩ := h made.1 made.2 rfl
    exact advances_bind hgrows hsome

theorem advances_request {target : String} {request : ClientResult Nat}
    (h : ∀ id, request = .ok id → (s.ledger.get? id).isSome) :
    s.Advances Ledger.Grows (s.bindRequest target (request.map fun id => (id, s.ledger))).1 := by
  refine advances_bindRequest ?_
  intro id ledger hmade
  cases request with
  | error error => cases hmade
  | ok made => cases hmade; exact ⟨.refl _, h _ rfl⟩

theorem withHandle_of {P : Session → Prop} {name : String} {use : Handle → Session × Effects}
    (hs : P s) (huse : ∀ handle, s.handle? name = some handle → P (use handle).1) :
    P (s.withHandle name use).1 := by
  unfold withHandle
  cases h : s.handle? name with
  | none => exact hs
  | some handle => exact huse handle h

theorem advances_subscribeRequest {listener target : String} {request : ClientResult Nat}
    {quiet : Bool} :
    s.Advances Ledger.Grows (s.subscribeRequest listener request quiet target).1 := by
  have hbind : ∀ sink, s.Advances Ledger.Grows (s.bind target (.subscription sink)) :=
    fun sink => advances_bind (.refl s.ledger) trivial
  unfold subscribeRequest
  split
  · exact advances_refl s
  · exact hbind none
  · exact ⟨rfl, rfl, .refl _, (hbind (some s.sinks.length)).handles⟩

end Session

/-- Steps that neither await a request nor send a body of the caller's own. -/
def Step.isQuiet : Step → Bool
  | .await _ _ => false
  | .execute _ => false
  | _ => true

/-- The name whose request a step gives up for one of its own. -/
def Step.refined? : Step → Option String
  | .select on _ _ => some on
  | .supply on _ _ => some on
  | .supplyField on _ _ _ => some on
  | .supplyShortcut on _ _ _ => some on
  | _ => none

def Reply.isRefusal : Reply → Bool
  | .failed _ => true
  | .noHandle => true
  | .notPossible => true
  | _ => false

def Step.supplied? : Step → Option String
  | .supply on _ _ => some on
  | .supplyField on _ _ _ => some on
  | .supplyShortcut on _ _ _ => some on
  | _ => none

def Step.target? : Step → Option String
  | .call _ _ _ target => some target
  | .select _ _ target => some target
  | .request _ target => some target
  | .supply _ _ target => some target
  | .supplyField _ _ _ target => some target
  | .supplyShortcut _ _ _ target => some target
  | .subscribe _ _ target => some target
  | _ => none

theorem Step.refined?_eq_some {x : Step} {on : String} (h : x.refined? = some on) :
    (∃ nodes target, x = .select on nodes target) ∨ x.supplied? = some on := by
  cases x with
  | select on' nodes target => cases h; exact Or.inl ⟨nodes, target, rfl⟩
  | supply on' input target => exact Or.inr h
  | supplyField on' field value target => exact Or.inr h
  | supplyShortcut on' shortcut value target => exact Or.inr h
  | _ => cases h

namespace Session

variable {s t u : Session}

/-- The requests of known handles are known, whatever their handles are used for. -/
def Tracked (s : Session) : Prop := ∀ entry ∈ s.handles, entry.2.Known s.ledger

theorem Tracked.handle (h : s.Tracked) {name : String} {handle : Handle}
    (hh : s.handle? name = some handle) : handle.Known s.ledger :=
  h (name, handle) (Entries.mem_of_get? hh)

/-- An input for what a name stands for is refused, or it makes a request that is bound. -/
theorem withHandle_supply {on target : String} {onCall : Call → ClientResult (Nat × Ledger)}
    {onSelection : Selection → ClientResult (Nat × Ledger)}
    (hcall : ∀ c, s.client.RefinesFor s.ledger c.receiver (onCall c))
    (hselection : ∀ selection, s.client.RefinesFor s.ledger selection.receiver
      (onSelection selection)) :
    let result := s.withHandle on fun
      | .call c => s.bindRequest target (onCall c)
      | .selection selection => s.bindRequest target (onSelection selection)
      | _ => s.impossible
    (result.1 = s ∧ result.2.reply.isRefusal) ∨
    ∃ handle r made, s.handle? on = some handle ∧ handle.receiver? = some r ∧
      s.client.RefinesFor s.ledger r made ∧ result = s.bindRequest target made := by
  intro result
  cases hh : s.handle? on with
  | none => exact Or.inl (by simp [result, withHandle, hh, quietly, Reply.isRefusal])
  | some handle =>
    simp only [result, withHandle, hh]
    cases handle with
    | call c => exact Or.inr ⟨_, _, _, rfl, rfl, hcall c, rfl⟩
    | selection selection => exact Or.inr ⟨_, _, _, rfl, rfl, hselection selection, rfl⟩
    | request id => exact Or.inl ⟨rfl, rfl⟩
    | subscription sink => exact Or.inl ⟨rfl, rfl⟩

/-- A step that supplies an input is refused, or it binds a request refined from that of a
handle. -/
theorem step_supply {x : Step} {on : String} (hx : x.supplied? = some on) :
    ((s.step x).1 = s ∧ (s.step x).2.reply.isRefusal) ∨
    ∃ handle r target made, s.handle? on = some handle ∧ handle.receiver? = some r ∧
      x.target? = some target ∧ s.client.RefinesFor s.ledger r made ∧
      s.step x = s.bindRequest target made := by
  have hsupplied : ∃ target, x.target? = some target ∧
      (((s.step x).1 = s ∧ (s.step x).2.reply.isRefusal) ∨
      ∃ handle r made, s.handle? on = some handle ∧ handle.receiver? = some r ∧
        s.client.RefinesFor s.ledger r made ∧ s.step x = s.bindRequest target made) := by
    cases x with
    | supply on' input target =>
      cases hx
      exact ⟨target, rfl, withHandle_supply (fun c => Client.callBy_refines c input)
        fun selection => Client.selectionBy_refines selection input⟩
    | supplyField on' field value target =>
      cases hx
      exact ⟨target, rfl, withHandle_supply (fun c => Client.callByField_refines c field value)
        fun selection => Client.selectionByField_refines selection field value⟩
    | supplyShortcut on' shortcut value target =>
      cases hx
      exact ⟨target, rfl, withHandle_supply (fun c =>
        Client.callByShortcut_refines c shortcut value)
        fun selection => Client.selectionByShortcut_refines selection shortcut value⟩
    | _ => cases hx
  obtain ⟨target, htarget, hrefused | ⟨handle, r, made, hh, hr, hrefines, heq⟩⟩ := hsupplied
  · exact Or.inl hrefused
  · exact Or.inr ⟨handle, r, target, made, hh, hr, htarget, hrefines, heq⟩

theorem advances_supply {x : Step} {on : String} (hx : x.supplied? = some on) :
    s.Advances Ledger.Grows (s.step x).1 := by
  rcases step_supply hx with ⟨heq, -⟩ | ⟨handle, r, target, made, -, -, -, hrefines, heq⟩
  · rw [heq]
    exact advances_refl s
  · rw [heq]
    exact advances_bindRequest fun _ _ hm => hrefines.refines.grows hm

/-- A quiet step sends nothing and settles nothing. -/
theorem step_quiet (htracked : s.Tracked) {x : Step} (hx : x.isQuiet) :
    s.Advances Ledger.Grows (s.step x).1 := by
  cases x with
  | await on type => cases hx
  | execute body => cases hx
  | call kind name input target =>
    simp only [step]
    split
    · exact advances_refl s
    · rename_i c ledger hcall
      obtain ⟨hgrows, hknown⟩ := Client.call_grows hcall
      exact advances_bind hgrows hknown
  | select on nodes target =>
    refine withHandle_of (advances_refl s) ?_
    intro handle _
    cases handle with
    | call c =>
      simp only
      split
      · exact advances_refl s
      · rename_i selection ledger hselect
        obtain ⟨hgrows, hknown⟩ := Client.select_grows hselect
        exact advances_bind hgrows hknown
    | selection selection => exact advances_refl s
    | request id => exact advances_refl s
    | subscription sink => exact advances_refl s
  | request on target =>
    refine withHandle_of (advances_refl s) ?_
    intro handle hh
    have hknown := htracked.handle hh
    cases handle with
    | call c => exact advances_request hknown
    | selection selection => exact advances_request hknown
    | request id => exact advances_refl s
    | subscription sink => exact advances_refl s
  | supply on input target => exact advances_supply rfl
  | supplyField on field value target => exact advances_supply rfl
  | supplyShortcut on shortcut value target => exact advances_supply rfl
  | inspect on =>
    refine withHandle_of (advances_refl s) ?_
    intro handle _
    cases handle <;> exact advances_refl s
  | subscribe on quiet target =>
    refine withHandle_of (advances_refl s) ?_
    intro handle _
    split
    · exact advances_subscribeRequest
    · exact advances_refl s
  | unsubscribe on =>
    refine withHandle_of (advances_refl s) ?_
    intro handle _
    cases handle <;> exact advances_release on
  | event sink event =>
    simp only [step]
    split
    · exact advances_refl s
    · exact ⟨rfl, rfl, .refl _, fun _ h => Or.inl h⟩
  | hasWebSocket => exact advances_refl s

def awaitedId? (s : Session) : Step → Option Nat
  | .await on _ =>
    match (s.handle? on).bind s.awaited? with
    | some (.query, .ok id) => some id
    | some (.mutation, .ok id) => some id
    | _ => none
  | _ => none

end Session

def Step.resultType : Step → ResultType
  | .await _ type => type.getD .any
  | _ => .any

def Reply.ofOutcome (type : ResultType) (outcome : ClientResult Json) : Reply :=
  match outcome.bind type.read with
  | .ok v => .value v
  | .error e => .failed e

namespace Session

variable {s t u : Session}

theorem awaited?_known (htracked : s.Tracked) {on : String} {handle : Handle}
    (hh : s.handle? on = some handle) {kind : OperationKind} {id : Nat}
    (ha : s.awaited? handle = some (kind, .ok id)) : (s.ledger.get? id).isSome := by
  have hknown := htracked.handle hh
  cases handle with
  | call c => exact hknown id (congrArg Prod.snd (Option.some.inj ha))
  | selection selection => exact hknown id (congrArg Prod.snd (Option.some.inj ha))
  | request i =>
    obtain ⟨d, hd, heq⟩ := Option.map_eq_some_iff.mp ha
    cases heq
    exact hknown
  | subscription sink => cases ha

theorem awaitedId?_eq_some {x : Step} {id : Nat} (h : s.awaitedId? x = some id) :
    ∃ on type handle kind, x = .await on type ∧ s.handle? on = some handle ∧
      kind ≠ .subscription ∧ s.awaited? handle = some (kind, .ok id) := by
  cases x with
  | await on type =>
    simp only [awaitedId?] at h
    split at h
    · rename_i heq
      cases h
      obtain ⟨handle, hh, ha⟩ := Option.bind_eq_some_iff.mp heq
      exact ⟨on, type, handle, .query, rfl, hh, nofun, ha⟩
    · rename_i heq
      cases h
      obtain ⟨handle, hh, ha⟩ := Option.bind_eq_some_iff.mp heq
      exact ⟨on, type, handle, .mutation, rfl, hh, nofun, ha⟩
    · cases h
  | _ => cases h

theorem awaitedId?_known (htracked : s.Tracked) {x : Step} {id : Nat}
    (h : s.awaitedId? x = some id) : (s.ledger.get? id).isSome := by
  obtain ⟨on, type, handle, kind, -, hh, -, ha⟩ := awaitedId?_eq_some h
  exact awaited?_known htracked hh ha

/-- What an await is asked for, when its handle is used up first. -/
theorem releaseAwaited_eq (name : String) (handle : Handle) :
    ∃ handles, s.releaseAwaited name handle = { s with handles := handles } ∧
      handles ⊆ s.handles := by
  cases handle with
  | request id => exact ⟨s.handles, rfl, fun _ h => h⟩
  | _ => exact ⟨_, rfl, fun _ h => (List.mem_filter.mp h).1⟩

theorem awaitRequest_ok (id : Nat) (type : Option ResultType) :
    (s.awaitRequest (.ok id) type).1 =
        { s with ledger := (s.client.await s.transport s.ledger id).2 } ∧
      (s.awaitRequest (.ok id) type).2.reply =
        .ofOutcome (type.getD .any) (s.client.await s.transport s.ledger id).1 := by
  cases hread : (s.client.await s.transport s.ledger id).1.bind (type.getD .any).read with
  | ok v => simp [awaitRequest, Reply.ofOutcome, hread, quietly]
  | error e => simp [awaitRequest, Reply.ofOutcome, hread, fail, quietly]

theorem step_await_eq {on : String} {type : Option ResultType} {handle : Handle}
    {kind : OperationKind} {request : ClientResult Nat} (hh : s.handle? on = some handle)
    (ha : s.awaited? handle = some (kind, request)) (hkind : kind ≠ .subscription) :
    s.step (.await on type) = (s.releaseAwaited on handle).awaitRequest request type := by
  simp only [step, withHandle, hh, ha]

/-- A step that awaits a request changes the ledger as awaiting does, and shows the outcome. -/
theorem step_await {x : Step} {id : Nat} (h : s.awaitedId? x = some id) :
    s.Advances (fun _ b => b = (s.client.await s.transport s.ledger id).2) (s.step x).1 ∧
      (s.step x).2.reply =
        .ofOutcome x.resultType (s.client.await s.transport s.ledger id).1 := by
  obtain ⟨on, type, handle, kind, rfl, hh, hkind, ha⟩ := awaitedId?_eq_some h
  obtain ⟨handles, hreleased, hsubset⟩ := releaseAwaited_eq (s := s) on handle
  obtain ⟨hsession, hreply⟩ := awaitRequest_ok (s := s.releaseAwaited on handle) id type
  rw [step_await_eq hh ha hkind]
  rw [hreleased] at hsession hreply ⊢
  rw [hsession]
  exact ⟨⟨rfl, rfl, rfl, fun _ hentry => Or.inl (hsubset hentry)⟩, hreply⟩

theorem step_await_none {on : String} {type : Option ResultType}
    (h : s.awaitedId? (.await on type) = none) :
    s.Advances Ledger.Grows (s.step (.await on type)).1 := by
  cases hh : s.handle? on with
  | none =>
    simp only [step, withHandle, hh]
    exact advances_refl s
  | some handle =>
    simp only [awaitedId?, hh, Option.bind_some] at h
    cases ha : s.awaited? handle with
    | none =>
      simp only [step, withHandle, hh, ha]
      exact advances_refl s
    | some awaited =>
      obtain ⟨kind, request⟩ := awaited
      cases hr : request with
      | error error =>
        subst hr
        obtain ⟨handles, hreleased, hsubset⟩ := releaseAwaited_eq (s := s) on handle
        by_cases hkind : kind = .subscription
        · subst hkind
          simp only [step, withHandle, hh, ha]
          exact advances_refl s
        · rw [step_await_eq hh ha hkind, hreleased]
          exact ⟨rfl, rfl, .refl _, fun _ hentry => Or.inl (hsubset hentry)⟩
      | ok id =>
        subst hr
        cases kind with
        | subscription =>
          simp only [step, withHandle, hh, ha]
          exact advances_refl s
        | query => simp [ha] at h
        | mutation => simp [ha] at h

theorem step_execute (body : RequestBody) :
    s.Advances (fun _ b => b = (Client.execute s.transport s.ledger body).2)
      (s.step (.execute body)).1 := by
  simp only [step]
  split
  · exact ⟨rfl, rfl, rfl, fun _ h => Or.inl h⟩
  · exact ⟨rfl, rfl, rfl, fun _ h => Or.inl h⟩

/-- The request for which a narrowing or supplying step enters another. -/
def replaced? (s : Session) (x : Step) : Option Nat :=
  match x.refined?.bind s.handle? with
  | some (.call c) => c.request.toOption
  | some (.selection selection) => selection.request.toOption
  | _ => none

theorem bindRequest_supersedes {target : String} {made : ClientResult (Nat × Ledger)} {id : Nat}
    (h : ∀ m, made = .ok m → ∃ d, m.2.get? id = some d ∧ d.superseded)
    (hdone : ¬ (s.bindRequest target made).2.reply.isRefusal) :
    ∃ d, (s.bindRequest target made).1.ledger.get? id = some d ∧ d.superseded := by
  cases made with
  | error error => exact absurd rfl hdone
  | ok m => exact h m rfl

theorem replaced?_eq_some {x : Step} {id : Nat} (h : s.replaced? x = some id) :
    ∃ on handle, x.refined? = some on ∧ s.handle? on = some handle ∧
      handle.request? = some (.ok id) := by
  unfold replaced? at h
  split at h
  · rename_i c heq
    obtain ⟨on, hon, hh⟩ := Option.bind_eq_some_iff.mp heq
    exact ⟨on, _, hon, hh, congrArg some (toOption_eq_some.mp h)⟩
  · rename_i selection heq
    obtain ⟨on, hon, hh⟩ := Option.bind_eq_some_iff.mp heq
    exact ⟨on, _, hon, hh, congrArg some (toOption_eq_some.mp h)⟩
  · cases h

theorem step_supersedes (htracked : s.Tracked) {x : Step} {id : Nat}
    (h : s.replaced? x = some id) (hdone : ¬ (s.step x).2.reply.isRefusal) :
    ∃ d, (s.step x).1.ledger.get? id = some d ∧ d.superseded := by
  obtain ⟨on, handle, hon, hh, hr⟩ := replaced?_eq_some h
  have hknown := (htracked.handle hh).request hr
  rcases Step.refined?_eq_some hon with ⟨nodes, target, rfl⟩ | hsupplied
  · simp only [step, withHandle, hh] at hdone ⊢
    cases handle with
    | call c =>
      simp only at hdone ⊢
      cases hselect : s.client.select s.ledger c nodes with
      | error error => simp [hselect, fail, quietly, Reply.isRefusal] at hdone
      | ok made => exact Client.select_supersedes hselect (Option.some.inj hr) hknown
    | _ => exact absurd rfl hdone
  · rcases step_supply hsupplied with ⟨-, hrefused⟩ | ⟨found, r, target, made, hfound, hreceiver, -,
      hrefines, heq⟩
    · exact absurd hrefused hdone
    · cases hh.symm.trans hfound
      rw [Handle.request?_eq, hreceiver] at hr
      have hreplaces := hrefines.refines
      rw [Option.some.inj hr] at hreplaces
      rw [heq] at hdone ⊢
      exact bindRequest_supersedes (fun m hm => hreplaces.supersedes hknown hm) hdone

theorem awaitedId?_quiet {x : Step} (hx : x.isQuiet) : s.awaitedId? x = none := by
  cases x with
  | await on type => cases hx
  | _ => rfl

/-- The three ways a step can go, by what it does to the ledger. -/
theorem step_cases (htracked : s.Tracked) (x : Step) :
    (s.awaitedId? x = none ∧ s.Advances Ledger.Grows (s.step x).1) ∨
    (∃ id, s.awaitedId? x = some id ∧
      s.Advances (fun _ b => b = (s.client.await s.transport s.ledger id).2) (s.step x).1) ∨
    (∃ body, x = .execute body ∧
      s.Advances (fun _ b => b = (Client.execute s.transport s.ledger body).2) (s.step x).1) := by
  by_cases hx : x.isQuiet
  · exact Or.inl ⟨awaitedId?_quiet hx, step_quiet htracked hx⟩
  · cases x with
    | await on type =>
      cases h : s.awaitedId? (.await on type) with
      | none => exact Or.inl ⟨rfl, step_await_none h⟩
      | some id => exact Or.inr (Or.inl ⟨id, rfl, (step_await h).1⟩)
    | execute body => exact Or.inr (Or.inr ⟨body, rfl, step_execute body⟩)
    | _ => exact absurd rfl hx

theorem step_change (htracked : s.Tracked) (x : Step) :
    s.Advances (Ledger.Change s.client s.transport) (s.step x).1 := by
  rcases step_cases htracked x with ⟨-, h⟩ | ⟨id, hid, h⟩ | ⟨body, -, h⟩
  · exact ⟨h.client, h.transport, .grow h.ledger, h.handles⟩
  · exact ⟨h.client, h.transport, h.ledger ▸ .await id (awaitedId?_known htracked hid), h.handles⟩
  · exact ⟨h.client, h.transport, h.ledger ▸ .own body, h.handles⟩

/-- Only awaiting settles a request, and only the one that is awaited. -/
theorem step_settled (htracked : s.Tracked) {x : Step} {id : Nat} {d : Dispatch}
    (hd : (s.step x).1.ledger.get? id = some d) (ho : d.outcome ≠ none) :
    s.awaitedId? x = some id ∨ ∃ d, s.ledger.get? id = some d ∧ d.outcome ≠ none := by
  rcases step_cases htracked x with ⟨-, h⟩ | ⟨i, hi, h⟩ | ⟨body, -, h⟩
  · exact Or.inr (h.ledger.settled hd ho)
  · rw [h.ledger] at hd
    by_cases hne : i = id
    · exact Or.inl (hne ▸ hi)
    · exact Or.inr (Client.await_settled_before hd ho hne)
  · rw [h.ledger] at hd
    exact Or.inr ⟨d, hd, ho⟩

structure Kept (client : Client) (transport : Transport) (s : Session) : Prop where
  client : s.client = client
  transport : s.transport = transport
  tracked : s.Tracked
  faithful : s.ledger.Faithful

variable {client : Client} {transport : Transport}

theorem kept_start (client : Client) (transport : Transport) :
    (start client transport).Kept client transport :=
  ⟨rfl, rfl, nofun, Ledger.faithful_empty⟩

theorem Kept.step (h : s.Kept client transport) (x : Step) :
    (s.step x).1.Kept client transport := by
  have hchange := step_change h.tracked x
  refine ⟨hchange.client.trans h.client, hchange.transport.trans h.transport, ?_,
    hchange.ledger.faithful h.faithful⟩
  intro entry hentry
  rcases hchange.handles entry hentry with hold | hnew
  · exact (h.tracked entry hold).mono hchange.ledger.extends
  · exact hnew

def after (s : Session) : List Step → Session
  | [] => s
  | x :: rest => (s.step x).1.after rest

def awaits (s : Session) : List Step → List Nat
  | [] => []
  | x :: rest => (s.awaitedId? x).toList ++ (s.step x).1.awaits rest

theorem after_of {P : Ledger → Prop} (h : s.Kept client transport)
    (hP : ∀ {a b}, Ledger.Change client transport a b → P a → P b) (hs : P s.ledger)
    (steps : List Step) : P (s.after steps).ledger := by
  induction steps generalizing s with
  | nil => exact hs
  | cons x rest ih =>
    have hchange := (step_change h.tracked x).ledger
    rw [h.client, h.transport] at hchange
    exact ih (h.step x) (hP hchange hs)

theorem Kept.after (h : s.Kept client transport) (steps : List Step) :
    (s.after steps).Kept client transport := by
  induction steps generalizing s with
  | nil => exact h
  | cons x rest ih => exact ih (h.step x)

/-- In a run, too, only awaiting settles a request. -/
theorem after_settled (h : s.Kept client transport) {steps : List Step} {id : Nat} {d : Dispatch}
    (hd : (s.after steps).ledger.get? id = some d) (ho : d.outcome ≠ none) :
    id ∈ s.awaits steps ∨ ∃ d, s.ledger.get? id = some d ∧ d.outcome ≠ none := by
  induction steps generalizing s with
  | nil => exact Or.inr ⟨d, hd, ho⟩
  | cons x rest ih =>
    rcases ih (h.step x) hd with hlater | ⟨d', hd', ho'⟩
    · exact Or.inl (List.mem_append_right _ hlater)
    · rcases step_settled h.tracked hd' ho' with hnow | hbefore
      · exact Or.inl (List.mem_append_left _ (by simp [hnow]))
      · exact Or.inr hbefore

theorem open_of_not_awaited {before : List Step} {id : Nat} {d : Dispatch}
    (hd : ((start client transport).after before).ledger.get? id = some d)
    (hfirst : id ∉ (start client transport).awaits before) : d.outcome = none := by
  by_contra ho
  rcases after_settled (kept_start client transport) hd ho with hmem | ⟨d', hd', -⟩
  · exact hfirst hmem
  · cases hd'

/-- Once it is settled, a request shows its outcome to everybody who awaits it. -/
theorem Kept.shows (h : s.Kept client transport) {id : Nat} {outcome : ClientResult Json}
    (ha : ∃ d, s.ledger.get? id = some d ∧ d.outcome = some outcome) (later : List Step) {x : Step}
    (hx : (s.after later).awaitedId? x = some id) :
    ((s.after later).step x).2.reply = .ofOutcome x.resultType outcome := by
  obtain ⟨d, hd, ho⟩ := after_of (P := fun ledger => ∃ d, ledger.get? id = some d ∧
    d.outcome = some outcome) h (fun hchange => hchange.extends.settles) ha later
  rw [(step_await hx).2, Client.await_settled hd ho]

theorem settled_of_awaited (h : s.Kept client transport) {steps : List Step} {id : Nat}
    (hmem : id ∈ s.awaits steps) :
    ∃ d outcome, (s.after steps).ledger.get? id = some d ∧ d.outcome = some outcome := by
  induction steps generalizing s with
  | nil => cases hmem
  | cons x rest ih =>
    rcases List.mem_append.mp hmem with hnow | hlater
    · have hx : s.awaitedId? x = some id := by simpa using hnow
      obtain ⟨d, hd⟩ := Option.isSome_iff_exists.mp (awaitedId?_known h.tracked hx)
      have hsettles := Client.await_settles s.client s.transport hd
      rw [← (step_await hx).1.ledger] at hsettles
      obtain ⟨d', hd', ho'⟩ := after_of (P := fun ledger => ∃ d, ledger.get? id = some d ∧
        d.outcome = some _) (h.step x) (fun hchange => hchange.extends.settles) hsettles rest
      exact ⟨d', _, hd', ho'⟩
    · exact ih (h.step x) hlater

/-- Exactly the first await of a request that is not superseded sends it. -/
theorem await_sent (before : List Step) {x : Step} {id : Nat} {d : Dispatch}
    (hx : ((start client transport).after before).awaitedId? x = some id)
    (hd : ((start client transport).after before).ledger.get? id = some d) :
    ((((start client transport).after before).step x).1.ledger.sent =
      ((start client transport).after before).ledger.sent ++
        if id ∈ (start client transport).awaits before ∨ d.superseded then []
        else [Sending.entry id d.body]) ∧
    (id ∉ (start client transport).awaits before →
      (client.await transport ((start client transport).after before).ledger id).1 =
        if d.superseded then .ok .null
        else client.answered transport ((start client transport).after before).ledger d) := by
  have hkept := (kept_start client transport).after before
  have hledger := (step_await hx).1.ledger
  rw [hkept.client, hkept.transport] at hledger
  rw [hledger]
  by_cases hfirst : id ∈ (start client transport).awaits before
  · obtain ⟨d', outcome, hd', ho⟩ := settled_of_awaited (kept_start client transport) hfirst
    rw [Client.await_settled hd' ho]
    simp [hfirst]
  · have ho := open_of_not_awaited hd hfirst
    rw [Client.await_open hd ho]
    cases hs : d.superseded with
    | true => simp [Client.firstAwait, hs]
    | false => simp [Client.firstAwait, hs, hfirst]

end Session

/-- However a client is used, with any transport: no request is sent twice. One superseded before
its first await is never sent, and awaiting it gives null. All awaits of a request show what the
first one made of the answer, and no other step sends anything but bodies of the caller's own. -/
theorem request_sent_once (client : Client) (transport : Transport) (before : List Step) :
    let start := Session.start client transport
    let s := start.after before
    (∀ id, s.ledger.sent.countP (Sending.isEntry id) ≤ 1) ∧
    (∀ id d, s.ledger.get? id = some d → d.superseded → id ∉ start.awaits before →
      ∀ later, (∀ body, Sending.entry id body ∉ (s.after later).ledger.sent) ∧
        ∀ x, (s.after later).awaitedId? x = some id →
          ((s.after later).step x).2.reply = .ofOutcome x.resultType (.ok .null)) ∧
    (∀ x id, s.replaced? x = some id → ¬ (s.step x).2.reply.isRefusal →
      ∃ d, (s.step x).1.ledger.get? id = some d ∧ d.superseded) ∧
    (∀ x id, s.awaitedId? x = some id → ∃ d outcome, s.ledger.get? id = some d ∧
      ((s.step x).1.ledger.sent = s.ledger.sent ++
        if id ∈ start.awaits before ∨ d.superseded then [] else [Sending.entry id d.body]) ∧
      (id ∉ start.awaits before → outcome =
        if d.superseded then .ok .null else client.answered transport s.ledger d) ∧
      (s.step x).2.reply = .ofOutcome x.resultType outcome ∧
      ∀ later y, ((s.step x).1.after later).awaitedId? y = some id →
        (((s.step x).1.after later).step y).2.reply = .ofOutcome y.resultType outcome) ∧
    (∀ body, (s.step (.execute body)).1.ledger.sent = s.ledger.sent ++ [Sending.own body]) ∧
    (∀ x, s.awaitedId? x = none → (∀ body, x ≠ .execute body) →
      (s.step x).1.ledger.sent = s.ledger.sent) := by
  intro start s
  have hkept : s.Kept client transport := (Session.kept_start client transport).after before
  refine ⟨hkept.faithful.once, ?_, fun x id => Session.step_supersedes hkept.tracked, ?_, ?_, ?_⟩
  · intro id d hd hsup hfirst later
    have hopen := Session.open_of_not_awaited hd hfirst
    have hskipped : s.ledger.Skipped id :=
      ⟨hkept.faithful.unsent hd hopen, d, hd, hsup, Or.inl hopen⟩
    obtain ⟨hunsent, d', hd', hsup', hout'⟩ :=
      Session.after_of (P := fun ledger => ledger.Skipped id)
      hkept (fun hchange => hchange.skipped) hskipped later
    refine ⟨hunsent, ?_⟩
    intro x hx
    rw [(Session.step_await hx).2]
    rcases hout' with ho | ho
    · rw [Client.await_open hd' ho, Client.firstAwait, if_pos hsup']
    · rw [Client.await_settled hd' ho]
  · intro x id hx
    obtain ⟨d, hd⟩ := Option.isSome_iff_exists.mp (Session.awaitedId?_known hkept.tracked hx)
    obtain ⟨hsent, hfirst⟩ := Session.await_sent before hx hd
    obtain ⟨hadvances, hreply⟩ := Session.step_await hx
    have hsettles := Client.await_settles s.client s.transport hd
    have hledger := hadvances.ledger
    rw [hkept.client, hkept.transport] at hledger hsettles hreply
    rw [← hledger] at hsettles
    exact ⟨d, _, hd, hsent, hfirst, hreply, fun later y => (hkept.step x).shows hsettles later⟩
  · intro body
    rw [(Session.step_execute body).ledger]
    rfl
  · intro x hnone hown
    rcases Session.step_cases hkept.tracked x with ⟨-, h⟩ | ⟨id, hid, -⟩ | ⟨body, hbody, -⟩
    · exact h.ledger.sent
    · rw [hnone] at hid; cases hid
    · exact absurd hbody (hown body)

def priceClient : Client :=
  let draft := SchemaDraft.empty.addAll [
    .ok (.operation .query "price" ⟨some (.ofList [("unit?", "String")]), "Int!"⟩)]
  ⟨draft.build.toOption.getD ⟨.empty, .empty, []⟩, false⟩

def risingPrices : Transport :=
  fun n _ => .ok ⟨some (.object [("price", .number (.int n))]), []⟩

/-- A request kept under a name of its own, while the call it was of is given an input. -/
def pricing : List Step :=
  [.call .query "price" none "call", .request "call" "plain",
   .supply "call" (.object [("unit", .string "cent")]) "given"]

theorem price_sent_once :
    let s := (Session.start priceClient risingPrices).after pricing
    s.awaitedId? (.await "plain" none) = some 0 ∧
      (s.step (.await "plain" none)).2.reply = .value .null ∧
      (∀ later body, Sending.entry 0 body ∉ (s.after later).ledger.sent) ∧
      s.awaitedId? (.await "given" none) = some 1 ∧
      ∃ d, s.ledger.get? 1 = some d ∧
        (s.step (.await "given" none)).1.ledger.sent =
          s.ledger.sent ++ [Sending.entry 1 d.body] := by
  intro s
  obtain ⟨-, hskipped, -, hawaits, -⟩ := request_sent_once priceClient risingPrices pricing
  have hplain : s.awaitedId? (.await "plain" none) = some 0 := by decide +kernel
  have hgiven : s.awaitedId? (.await "given" none) = some 1 := by decide +kernel
  have hfirst : (Session.start priceClient risingPrices).awaits pricing = [] := by decide +kernel
  have hflags : s.ledger.dispatches.map Dispatch.superseded = [true, false] := by decide +kernel
  have hflag : ∀ i, (s.ledger.get? i).map Dispatch.superseded = [true, false][i]? := by
    intro i
    rw [← hflags, List.getElem?_map, Ledger.get?]
  obtain ⟨d₀, hd₀, hsup₀⟩ := Option.map_eq_some_iff.mp (hflag 0)
  have hnever := hskipped 0 d₀ hd₀ hsup₀ (by simp [hfirst])
  obtain ⟨d, outcome, hd, hsent, -⟩ := hawaits _ _ hgiven
  have hsup : d.superseded = false := by
    have hflag₁ := hflag 1
    rw [show s.ledger.get? 1 = some d from hd] at hflag₁
    exact Option.some.inj hflag₁
  refine ⟨hplain, (hnever []).2 _ hplain, fun later => (hnever later).1, hgiven, d, hd, ?_⟩
  refine hsent.trans ?_
  rw [hfirst, hsup]
  rfl

end GraphQLClient
