import GraphQLClient.Proofs.SingleSend

/-!
# Where requests come from

Calls and selections are of operations of the schema, and an input that they were given in advance
was checked. So every request in a ledger was built for an operation of the schema, of an input that
the operation accepts.
-/
namespace GraphQLClient

open Outcome

namespace Operation

variable {o : Operation} {types : TypeTable} {nodes : List Node} {body : RequestBody}

structure Covers (o : Operation) (input : Input) : Prop where
  declared : ∀ name ∈ Entries.keys input, (o.inputType? name).isSome
  complete : ∀ name ∈ o.required, name ∈ Entries.keys input

theorem checkEntries_ok {entries input : Input} (h : o.checkEntries entries = .ok input) :
    input = entries ∧ o.Covers entries := by
  simp only [checkEntries] at h
  split_ifs at h
  split at h
  · cases h
  rename_i hdeclared
  split at h
  · cases h
  rename_i hcomplete
  cases h
  refine ⟨rfl, ?_, ?_⟩
  · intro name hname
    by_contra hnone
    have hisNone : (o.inputType? name).isNone := by simpa using hnone
    exact List.find?_eq_none.mp hdeclared name hname hisNone
  · intro name hname
    simpa using List.find?_eq_none.mp hcomplete name hname

theorem checkInput_ok {given : Json} {input : Input} (h : o.checkInput given = .ok input) :
    o.Covers input := by
  obtain ⟨entries, -, h⟩ := bind_eq_ok.mp h
  obtain ⟨rfl, hcovers⟩ := checkEntries_ok h
  exact hcovers

theorem buildRequest_ok {input : Input} (h : o.buildRequest types nodes input = .ok body) :
    ∃ bindings, types.serializeVariables o input = .ok bindings ∧
      body = ⟨Document.print o.kind o.name o.variableTypes nodes, .object bindings⟩ := by
  obtain ⟨bindings, hbindings, h⟩ := bind_eq_ok.mp h
  cases h
  exact ⟨bindings, hbindings, rfl⟩

/-- Without a preset input a request is made by default only if nothing is required. -/
theorem defaultRequest_ok {preset : Option Input}
    (h : o.defaultRequest types nodes preset = .ok body)
    (hpreset : ∀ input, preset = some input → o.Covers input) :
    ∃ input, o.Covers input ∧ o.buildRequest types nodes input = .ok body := by
  cases preset with
  | some input => exact ⟨input, hpreset input rfl, h⟩
  | none =>
    simp only [defaultRequest] at h
    split_ifs at h with hnone
    refine ⟨[], ⟨nofun, ?_⟩, h⟩
    intro name hname
    rw [List.isEmpty_iff.mp hnone] at hname
    cases hname

theorem inputRequest_ok {preset : Option Input} {given : Json}
    (h : o.inputRequest types nodes preset given = .ok body) :
    ∃ input, o.Covers input ∧ o.buildRequest types nodes input = .ok body := by
  simp only [inputRequest] at h
  split_ifs at h
  · cases h
  obtain ⟨-, -, h⟩ := bind_eq_ok.mp h
  obtain ⟨entries, -, h⟩ := bind_eq_ok.mp h
  obtain ⟨input, hinput, h⟩ := bind_eq_ok.mp h
  obtain ⟨rfl, hcovers⟩ := checkEntries_ok hinput
  exact ⟨_, hcovers, h⟩

theorem defaultRequest_anyNodes {preset : Option Input}
    (h : o.defaultRequest types nodes preset = .ok body) (others : List Node) :
    ∃ body, o.defaultRequest types others preset = .ok body := by
  have hbuild : ∀ input, o.buildRequest types nodes input = .ok body →
      ∃ body, o.buildRequest types others input = .ok body := by
    intro input hbody
    obtain ⟨bindings, hbindings, -⟩ := buildRequest_ok hbody
    exact ⟨_, bind_eq_ok.mpr ⟨bindings, hbindings, rfl⟩⟩
  cases preset with
  | some input => exact hbuild input h
  | none =>
    simp only [defaultRequest] at h ⊢
    split_ifs at h ⊢
    exact hbuild [] h

end Operation

theorem Schema.mem_of_operation {schema : Schema} {kind : OperationKind} {name : String}
    {o : Operation} (h : schema.operation kind name = .ok o) : o ∈ schema.operations := by
  unfold operation operation? at h
  split at h
  · rename_i hfind
    cases h
    exact List.mem_of_find?_eq_some hfind
  · cases h

namespace Client

variable {client : Client} {ledger ledger' : Ledger}

structure Picks (client : Client) (o : Operation) (preset : Option Input) : Prop where
  operation : o ∈ client.schema.operations
  preset : ∀ input, preset = some input → o.Covers input

structure Builds (client : Client) (o : Operation) (body : RequestBody) : Prop where
  operation : o ∈ client.schema.operations
  input : ∃ nodes input, o.Covers input ∧
    o.buildRequest client.schema.types nodes input = .ok body

structure Offers (client : Client) (r : Receiver) : Prop where
  picked : client.Picks r.operation r.preset
  request : ∀ id, r.request = .ok id → ∃ nodes body,
    r.operation.defaultRequest client.schema.types nodes r.preset = .ok body

theorem Picks.builds {o : Operation} {preset : Option Input} (h : client.Picks o preset)
    {nodes : List Node} {body : RequestBody}
    (hbody : o.defaultRequest client.schema.types nodes preset = .ok body) :
    client.Builds o body :=
  ⟨h.operation, nodes, Operation.defaultRequest_ok hbody h.preset⟩

theorem checkPreset_ok {o : Operation} {input : Option Json} {preset : Option Input}
    (h : checkPreset o input = .ok preset) :
    ∀ entries, preset = some entries → o.Covers entries := by
  rintro entries rfl
  cases input with
  | none => cases h
  | some given =>
    cases hgiven : o.checkInput given with
    | error error => simp [checkPreset, hgiven, Functor.map, Except.map] at h
    | ok checked =>
      simp only [checkPreset, hgiven, Functor.map, Except.map] at h
      cases h
      exact Operation.checkInput_ok hgiven

theorem enterResult_ok {o : Operation} {made : ClientResult RequestBody} {id : Nat}
    (h : (enterResult ledger o made).1 = .ok id) :
    ∃ body, made = .ok body ∧ id = (ledger.enter o body).1 := by
  cases made with
  | error error => cases h
  | ok body => cases h; exact ⟨body, rfl, rfl⟩

theorem call_offers {kind : OperationKind} {name : String} {input : Option Json} {c : Call}
    (h : client.call ledger kind name input = .ok (c, ledger')) : client.Offers c.receiver := by
  obtain ⟨hoperation, hpreset, hentered⟩ := call_ok h
  refine ⟨⟨Schema.mem_of_operation hoperation, checkPreset_ok hpreset⟩, ?_⟩
  intro id hid
  obtain ⟨body, hbody, -⟩ := enterResult_ok ((congrArg Prod.fst hentered).trans hid)
  obtain ⟨nodes, -, hbody⟩ := bind_eq_ok.mp hbody
  exact ⟨nodes, body, hbody⟩

theorem select_offers {c : Call} {nodes : List Node} {s : Selection} (hc : client.Offers c.receiver)
    (h : client.select ledger c nodes = .ok (s, ledger')) : client.Offers s.receiver := by
  obtain ⟨-, -, hoperation, hpreset, -, hentered⟩ := select_ok h
  constructor
  · change client.Picks s.operation s.preset
    rw [hoperation, hpreset]
    exact hc.picked
  · intro id hid
    obtain ⟨body, hbody, -⟩ := enterResult_ok ((congrArg Prod.fst hentered).trans hid)
    refine ⟨nodes, body, ?_⟩
    change s.operation.defaultRequest _ nodes s.preset = .ok body
    rw [hoperation, hpreset]
    exact hbody

end Client

namespace Ledger

variable {P : Operation → RequestBody → Prop} {ledger : Ledger}

def Holds (P : Operation → RequestBody → Prop) (ledger : Ledger) : Prop :=
  ∀ id d, ledger.get? id = some d → P d.operation d.body

theorem holds_empty : Holds P empty := nofun

theorem Holds.enter (h : ledger.Holds P) {o : Operation} {body : RequestBody} (hbody : P o body) :
    (ledger.enter o body).2.Holds P := by
  intro id d hd
  rw [get?_enter] at hd
  split_ifs at hd
  · cases hd
    exact hbody
  · exact h id d hd

theorem Holds.enterResult (h : ledger.Holds P) {o : Operation} {made : ClientResult RequestBody}
    (hmade : ∀ body, made = .ok body → P o body) :
    (Client.enterResult ledger o made).2.Holds P := by
  cases made with
  | error error => exact h
  | ok body => exact h.enter (hmade body rfl)

theorem Holds.supersedeResult (h : ledger.Holds P) (request : ClientResult Nat) :
    (ledger.supersedeResult request).Holds P := by
  cases request with
  | error error => exact h
  | ok i =>
    intro id d hd
    rw [Ledger.supersedeResult, get?_supersede] at hd
    obtain ⟨old, hold, rfl⟩ := Option.map_eq_some_iff.mp hd
    split_ifs
    · exact h id old hold
    · exact h id old hold

theorem Holds.await (h : ledger.Holds P) (client : Client) (transport : Transport) (i : Nat) :
    (client.await transport ledger i).2.Holds P := by
  cases hi : ledger.get? i with
  | none =>
    simp only [Client.await, hi]
    exact h
  | some d =>
    cases ho : d.outcome with
    | some outcome =>
      rw [Client.await_settled hi ho]
      exact h
    | none =>
      intro id d' hd'
      rw [Client.await_open hi ho, get?_record, get?_sent] at hd'
      obtain ⟨old, hold, rfl⟩ := Option.map_eq_some_iff.mp hd'
      split_ifs
      · exact h id old hold
      · exact h id old hold

end Ledger

namespace Session

variable {s t : Session}

inductive Moves (s : Session) : Session → Prop where
  | rest {t : Session} : t.client = s.client → t.ledger = s.ledger →
      (∀ entry ∈ t.handles, entry ∈ s.handles ∨ entry.2.receiver? = none) → Moves s t
  | call {kind : OperationKind} {name target : String} {input : Option Json} {c : Call}
      {ledger : Ledger} : s.client.call s.ledger kind name input = .ok (c, ledger) →
      Moves s ({ s with ledger := ledger }.bind target (.call c))
  | select {on target : String} {c : Call} {nodes : List Node} {selection : Selection}
      {ledger : Ledger} : s.handle? on = some (.call c) →
      s.client.select s.ledger c nodes = .ok (selection, ledger) →
      Moves s ({ s with ledger := ledger }.bind target (.selection selection))
  | refine {on target : String} {handle : Handle} {r : Receiver} {nodes : List Node} {input : Json}
      {id : Nat} {ledger : Ledger} : s.handle? on = some handle → handle.receiver? = some r →
      s.client.refine s.ledger r.operation r.preset nodes r.request input = .ok (id, ledger) →
      Moves s ({ s with ledger := ledger }.bind target (.request id))
  | await {id : Nat} {handles : List (String × Handle)} : handles ⊆ s.handles →
      Moves s { s with
        handles := handles
        ledger := (s.client.await s.transport s.ledger id).2 }
  | own (body : RequestBody) :
      Moves s { s with ledger := (Client.execute s.transport s.ledger body).2 }

theorem moves_refl (s : Session) : s.Moves s := .rest rfl rfl fun _ h => Or.inl h

theorem moves_drop {handles : List (String × Handle)} (h : handles ⊆ s.handles) :
    s.Moves { s with handles := handles } := .rest rfl rfl fun _ hentry => Or.inl (h hentry)

theorem mem_bind {target : String} {handle : Handle} {entry : String × Handle}
    (h : entry ∈ (s.bind target handle).handles) : entry.2 = handle ∨ entry ∈ s.handles :=
  Entries.mem_insert h

theorem moves_bind (target : String) {handle : Handle} (h : handle.receiver? = none) :
    s.Moves (s.bind target handle) := by
  refine .rest rfl rfl ?_
  intro entry hentry
  rcases mem_bind hentry with heq | hold
  · exact Or.inr (heq ▸ h)
  · exact Or.inl hold

theorem moves_request (target : String) (request : ClientResult Nat) :
    s.Moves (s.bindRequest target (request.map fun id => (id, s.ledger))).1 := by
  cases request with
  | error error => exact moves_refl s
  | ok id => exact moves_bind target rfl

theorem moves_supply {x : Step} {on : String} (hx : x.supplied? = some on) :
    s.Moves (s.step x).1 := by
  rcases step_supply hx with ⟨heq, -⟩ | ⟨handle, r, target, made, hh, hr, -, hrefines, heq⟩
  · rw [heq]
    exact moves_refl s
  · rw [heq]
    cases made with
    | error error => exact moves_refl s
    | ok m =>
      obtain ⟨nodes, input, hrefine⟩ := hrefines m rfl
      exact .refine hh hr hrefine

theorem moves_await (name : String) (handle : Handle) (request : ClientResult Nat)
    (type : Option ResultType) :
    s.Moves ((s.releaseAwaited name handle).awaitRequest request type).1 := by
  obtain ⟨handles, hreleased, hsubset⟩ := releaseAwaited_eq (s := s) name handle
  rw [hreleased]
  cases request with
  | error error => exact moves_drop hsubset
  | ok id =>
    rw [(awaitRequest_ok id type).1]
    exact .await hsubset

theorem step_moves (s : Session) (x : Step) : s.Moves (s.step x).1 := by
  cases x with
  | call kind name input target =>
    simp only [step]
    split
    · exact moves_refl s
    · rename_i c ledger hcall
      exact .call hcall
  | select on nodes target =>
    refine withHandle_of (moves_refl s) ?_
    intro handle hh
    cases handle with
    | call c =>
      simp only
      split
      · exact moves_refl s
      · rename_i selection ledger hselect
        exact .select hh hselect
    | _ => exact moves_refl s
  | request on target =>
    refine withHandle_of (moves_refl s) ?_
    intro handle hh
    cases handle with
    | call c => exact moves_request target c.request
    | selection selection => exact moves_request target selection.request
    | _ => exact moves_refl s
  | supply on input target => exact moves_supply rfl
  | supplyField on field value target => exact moves_supply rfl
  | supplyShortcut on shortcut value target => exact moves_supply rfl
  | inspect on =>
    refine withHandle_of (moves_refl s) ?_
    intro handle _
    cases handle <;> exact moves_refl s
  | await on type =>
    refine withHandle_of (moves_refl s) ?_
    intro handle _
    split
    · exact moves_refl s
    · exact moves_refl s
    · exact moves_await on handle _ type
  | subscribe on quiet target =>
    refine withHandle_of (moves_refl s) ?_
    intro handle _
    split
    · unfold subscribeRequest
      split
      · exact moves_refl s
      · exact moves_bind target rfl
      · refine .rest rfl rfl ?_
        intro entry hentry
        rcases mem_bind hentry with heq | hold
        · exact Or.inr (heq ▸ rfl)
        · exact Or.inl hold
    · exact moves_refl s
  | unsubscribe on =>
    refine withHandle_of (moves_refl s) ?_
    intro handle _
    have hrelease : s.Moves (s.release on) :=
      moves_drop fun _ hentry => (List.mem_filter.mp hentry).1
    cases handle <;> exact hrelease
  | event sink event =>
    simp only [step]
    split
    · exact moves_refl s
    · exact .rest rfl rfl fun _ h => Or.inl h
  | hasWebSocket => exact moves_refl s
  | execute body =>
    simp only [step]
    split
    · exact .own body
    · exact .own body

structure Sound (s : Session) : Prop where
  receivers : ∀ {entry r}, entry ∈ s.handles → entry.2.receiver? = some r → s.client.Offers r
  requests : s.ledger.Holds s.client.Builds

theorem sound_start (client : Client) (transport : Transport) : (start client transport).Sound :=
  ⟨nofun, Ledger.holds_empty⟩

theorem Sound.handle (h : s.Sound) {name : String} {handle : Handle} {r : Receiver}
    (hh : s.handle? name = some handle) (hr : handle.receiver? = some r) : s.client.Offers r :=
  h.receivers (Entries.mem_of_get? hh) hr

theorem Sound.bind (h : s.Sound) {ledger : Ledger} (hledger : ledger.Holds s.client.Builds)
    {target : String} {handle : Handle}
    (hhandle : ∀ r, handle.receiver? = some r → s.client.Offers r) :
    ({ s with ledger := ledger }.bind target handle).Sound := by
  refine ⟨?_, hledger⟩
  intro entry r hentry hr
  rcases mem_bind hentry with heq | hold
  · rw [heq] at hr
    exact hhandle r hr
  · exact h.receivers hold hr

theorem Sound.moves (h : s.Sound) (hmoves : s.Moves t) : t.Sound := by
  cases hmoves with
  | rest hclient hledger hhandles =>
    constructor
    · intro entry r hentry hr
      rw [hclient]
      rcases hhandles entry hentry with hold | hnone
      · exact h.receivers hold hr
      · rw [hnone] at hr
        cases hr
    · rw [hclient, hledger]
      exact h.requests
  | @call _ _ _ _ c ledger hcall =>
    have hoffers := Client.call_offers hcall
    have hentered := (Client.call_ok hcall).2.2
    have hbuilds : ∀ body, s.client.ownBody c.operation c.preset = .ok body →
        s.client.Builds c.operation body := by
      intro body hbody
      obtain ⟨nodes, -, hbody⟩ := bind_eq_ok.mp hbody
      exact hoffers.picked.builds hbody
    have hholds := h.requests.enterResult hbuilds
    rw [hentered] at hholds
    apply h.bind hholds
    rintro r ⟨⟩
    exact hoffers
  | @select _ _ c nodes selection ledger hh hselect =>
    have hoffers := h.handle hh rfl
    obtain ⟨-, -, -, -, -, hentered⟩ := Client.select_ok hselect
    have hbuilds : ∀ body,
        c.operation.defaultRequest s.client.schema.types nodes c.preset = .ok body →
        s.client.Builds c.operation body := fun _ hbody => hoffers.picked.builds hbody
    have hholds := (h.requests.supersedeResult c.request).enterResult hbuilds
    rw [hentered] at hholds
    apply h.bind hholds
    rintro r ⟨⟩
    exact Client.select_offers hoffers hselect
  | refine hh hr hrefine =>
    have hoffers := h.handle hh hr
    obtain ⟨body, hbody, -, rfl⟩ := Client.refine_ok hrefine
    refine h.bind ?_ nofun
    refine (h.requests.enter ?_).supersedeResult _
    exact ⟨hoffers.picked.operation, _, Operation.inputRequest_ok hbody⟩
  | await hsubset =>
    refine ⟨?_, h.requests.await _ _ _⟩
    intro entry r hentry hr
    exact h.receivers (hsubset hentry) hr
  | own body => exact ⟨h.receivers, h.requests⟩

theorem Sound.after (h : s.Sound) (steps : List Step) : (s.after steps).Sound := by
  induction steps generalizing s with
  | nil => exact h
  | cons x rest ih => exact ih (h.moves (step_moves s x))

end Session

end GraphQLClient
