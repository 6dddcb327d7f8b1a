import GraphQLClient.Proofs.SessionCourses

/-!
# What a client sends in a session

A client introduces itself, subscribes once the server has acknowledged that, answers pings at once,
and says goodbye only when it has unsubscribed. After that, and after the end of the session that
its listener hears of, it is silent.
-/
namespace GraphQLClient.Socket

def pongs (incoming : List Incoming) : List ClientMessage :=
  (incoming.filter Incoming.isPing).map fun _ => .pong

def Outgoing.isEnding : Outgoing → Bool
  | .deliver event => event.isTerminal
  | _ => false

namespace Incoming

@[simp] theorem sends_handled (x : Incoming) : sends x.handled = pongs [x] := by
  unfold handled pongs isPing
  cases hmessage : x.message? with
  | none => simp [hmessage, sends]
  | some message =>
    cases message with
    | next id response =>
      by_cases hid : id = operationId <;> simp [hmessage, hid, sends, Outgoing.sent?]
    | _ => simp [hmessage, sends, Outgoing.sent?]

theorem handled_isEnding {x : Incoming} {outgoing : Outgoing} (h : outgoing ∈ x.handled) :
    ¬ outgoing.isEnding := by
  unfold handled at h
  split at h
  · cases List.mem_singleton.mp h
    exact Bool.false_ne_true
  · split_ifs at h
    · cases List.mem_singleton.mp h
      exact Bool.false_ne_true
    · exact absurd h List.not_mem_nil
  · exact absurd h List.not_mem_nil

end Incoming

@[simp] theorem sends_nil : sends [] = [] := rfl

@[simp] theorem sends_append (front back : List Outgoing) :
    sends (front ++ back) = sends front ++ sends back :=
  List.filterMap_append

@[simp] theorem sends_flatMap_handled (incoming : List Incoming) :
    sends (incoming.flatMap Incoming.handled) = pongs incoming := by
  induction incoming with
  | nil => rfl
  | cons x rest ih =>
    rw [List.flatMap_cons, sends_append, Incoming.sends_handled, ih, pongs, pongs, pongs,
      ← List.map_append, ← List.filter_append]
    rfl

@[simp] theorem sends_subscribing (body : RequestBody) (incoming : List Incoming) :
    sends (subscribing body incoming) =
      if (behindAcknowledgement? incoming).isSome then [.subscribe operationId body] else [] := by
  unfold subscribing
  split_ifs <;> rfl

namespace Closes

variable {closing : Option Incoming} {last : List Outgoing}

theorem sends (h : Closes closing last) :
    Socket.sends last = if closing = some .unsubscribe then [.complete operationId] else [] := by
  cases h with
  | lasting => rfl
  | unsubscribed => rfl
  | noticed hne => rw [if_neg (by simpa using hne)]; rfl

theorem nothing_behind (h : Closes closing last) {front back : List Outgoing} {outgoing : Outgoing}
    (hlast : last = front ++ outgoing :: back) (hending : outgoing.isEnding) : back = [] := by
  have hmem : outgoing ∈ last := hlast ▸ List.mem_append_right _ List.mem_cons_self
  cases h with
  | lasting => exact absurd hmem List.not_mem_nil
  | unsubscribed =>
    rcases List.mem_cons.mp hmem with rfl | hmem
    · cases hending
    · cases List.mem_singleton.mp hmem
      cases hending
  | noticed =>
    cases front with
    | nil => exact (List.cons.inj hlast).2.symm
    | cons first front => simp at hlast

end Closes

theorem closing?_unsubscribe {incoming : List Incoming}
    (h : closing? incoming = some .unsubscribe) :
    (behindAcknowledgement? incoming).isSome := by
  cases course incoming with
  | waiting _ hclosing => cases hclosing.symm.trans h
  | refused _ hclosing hx =>
    cases hclosing.symm.trans h
    exact absurd rfl hx
  | acknowledged _ _ _ hbehind => exact Option.isSome_of_eq_some hbehind

theorem acknowledgement_of_behind {incoming : List Incoming}
    (h : (behindAcknowledgement? incoming).isSome) : ∃ x ∈ incoming, x.isAcknowledgement := by
  cases course incoming with
  | waiting hbehind => rw [hbehind] at h; cases h
  | refused hbehind => rw [hbehind] at h; cases h
  | @acknowledged x _ _ hack hsplit =>
    refine ⟨x, ?_, hack⟩
    rw [hsplit]
    exact List.mem_append_right _ List.mem_cons_self

theorem session_ping (wording : Wording) (params : Option Json) (body : RequestBody)
    {front : List Incoming} {x : Incoming} (hping : x.isPing) (hlasting : closing? front = none) :
    session wording params body (front ++ [x]) =
      session wording params body front ++ [.send .pong] := by
  obtain ⟨payload, hmessage⟩ := Incoming.isPing_iff.mp hping
  have hhandled : x.handled = [.send .pong] := by
    rw [Incoming.handled, hmessage]
  obtain ⟨-, -, -, hafter⟩ := run_course wording body front
  rw [hlasting, Option.isSome_none, if_neg Bool.false_ne_true] at hafter
  rw [session_append, hafter, Phase.run_cons]
  split_ifs
  · have hkept : x.keepsRunning := by simp [Incoming.keepsRunning, Incoming.endsOperation, hmessage]
    rw [Phase.step_keepsRunning hkept, hhandled]
    rfl
  · have hkept : x.keepsWaiting := by simp [Incoming.keepsWaiting, hping]
    rw [Phase.step_keepsWaiting hkept, hhandled]
    rfl

theorem session_closed (wording : Wording) (params : Option Json) (body : RequestBody)
    {front : List Incoming} (h : (closing? front).isSome) (back : List Incoming) :
    session wording params body (front ++ back) = session wording params body front := by
  obtain ⟨-, -, -, hafter⟩ := run_course wording body front
  simp [hafter, h]

theorem not_mem_ending (body : RequestBody) (incoming : List Incoming) :
    ∀ outgoing ∈ (untilAcknowledged incoming).flatMap Incoming.handled ++
      subscribing body incoming ++ (whileRunning incoming).flatMap Incoming.handled,
      ¬ outgoing.isEnding := by
  intro outgoing hmem
  rcases List.mem_append.mp hmem with hmem | hmem
  · rcases List.mem_append.mp hmem with hmem | hmem
    · obtain ⟨x, -, hx⟩ := List.mem_flatMap.mp hmem
      exact Incoming.handled_isEnding hx
    · unfold subscribing at hmem
      split_ifs at hmem
      · cases List.mem_singleton.mp hmem
        exact Bool.false_ne_true
      · exact absurd hmem List.not_mem_nil
  · obtain ⟨x, -, hx⟩ := List.mem_flatMap.mp hmem
    exact Incoming.handled_isEnding hx

theorem session_ending {wording : Wording} {params : Option Json} {body : RequestBody}
    {incoming : List Incoming} {front back : List Outgoing} {outgoing : Outgoing}
    (h : session wording params body incoming = front ++ outgoing :: back)
    (hending : outgoing.isEnding) :
    back = [] := by
  obtain ⟨last, hlast, hrun, -⟩ := run_course wording body incoming
  have hquiet := not_mem_ending body incoming
  rw [session, hrun, ← List.cons_append] at h
  rcases List.append_eq_append_iff.mp h with ⟨rest, hfront, hrest⟩ | ⟨rest, hbefore, hrest⟩
  · exact hlast.nothing_behind hrest hending
  · cases rest with
    | nil => exact @Closes.nothing_behind _ _ hlast [] back outgoing hrest.symm hending
    | cons first rest =>
      obtain ⟨rfl, -⟩ := List.cons.inj hrest
      have hmem := List.mem_append_right front (List.mem_cons_self (a := outgoing) (l := rest))
      rw [← hbefore] at hmem
      rcases List.mem_cons.mp hmem with rfl | hmem
      · cases hending
      · exact absurd hending (hquiet _ hmem)

/-- All that is sent, in order; what the parts of it wait for; that it does not depend on what comes
in later; and that it is over when the session is. -/
theorem sent_messages (wording : Wording) (params : Option Json) (body : RequestBody)
    (incoming : List Incoming) :
    let trace := session wording params body incoming
    sends trace = .connectionInit params :: (pongs (untilAcknowledged incoming) ++
        if (behindAcknowledgement? incoming).isSome then
          .subscribe operationId body :: (pongs (whileRunning incoming) ++
            if closing? incoming = some .unsubscribe then [.complete operationId] else [])
        else []) ∧
      ((behindAcknowledgement? incoming).isSome → ∃ x ∈ incoming, x.isAcknowledgement) ∧
      (closing? incoming = some .unsubscribe → .unsubscribe ∈ incoming) ∧
      (∀ front back, incoming = front ++ back → session wording params body front <+: trace ∧
        ((closing? front).isSome → trace = session wording params body front)) ∧
      (∀ front x, incoming = front ++ [x] → x.isPing → closing? front = none →
        trace = session wording params body front ++ [.send .pong]) ∧
      ∀ front event back, trace = front ++ .deliver event :: back →
      event.isTerminal → back = [] := by
  intro trace
  refine ⟨?_, acknowledgement_of_behind, mem_of_closing?, ?_, ?_, ?_⟩
  · obtain ⟨last, hlast, hrun, -⟩ := run_course wording body incoming
    have hopening : sends trace =
        .connectionInit params :: sends (Phase.run wording body (.waiting false) incoming) := rfl
    by_cases hbehind : (behindAcknowledgement? incoming).isSome
    · simp [hopening, hrun, hlast.sends, hbehind]
    · have hlasting : closing? incoming ≠ some .unsubscribe := mt closing?_unsubscribe hbehind
      rw [Option.not_isSome_iff_eq_none] at hbehind
      simp [hopening, hrun, hlast.sends, hbehind, hlasting, whileRunning, pongs]
  · rintro front back rfl
    constructor
    · exact ⟨_, (session_append wording params body front back).symm⟩
    · intro hclosed
      exact session_closed wording params body hclosed back
  · rintro front x rfl hping hlasting
    exact session_ping wording params body hping hlasting
  · intro front event back htrace hterminal
    exact session_ending htrace hterminal

/-- The client unsubscribes behind the second ping and leaves the third one without an answer. -/
theorem goodbye_messages :
    let front := [pingFrame, ackFrame, pingFrame, .unsubscribe]
    let trace := session plainWording none priceBody (front ++ [pingFrame])
    (sends trace).map ClientMessage.text =
        [ClientMessage.connectionInit none, .pong, .subscribe "1" priceBody, .pong,
          .complete "1"].map ClientMessage.text ∧
      closing? front = some .unsubscribe ∧ trace = session plainWording none priceBody front ∧
      pingFrame.isPing ∧ closing? [] = none ∧
      session plainWording none priceBody [pingFrame] =
        session plainWording none priceBody [] ++ [.send .pong] := by
  intro front trace
  have hclosing : closing? front = some .unsubscribe := by decide +kernel
  have hping : pingFrame.isPing := by decide +kernel
  obtain ⟨-, -, -, hfront, -, -⟩ := sent_messages plainWording none priceBody (front ++ [pingFrame])
  obtain ⟨-, -, -, -, hprompt, -⟩ := sent_messages plainWording none priceBody [pingFrame]
  refine ⟨by decide +kernel, hclosing, (hfront front _ rfl).2 (Option.isSome_of_eq_some hclosing),
    hping, rfl, hprompt [] _ rfl hping rfl⟩

end GraphQLClient.Socket
