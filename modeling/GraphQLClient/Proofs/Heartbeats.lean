import GraphQLClient.Proofs.SinkEvents

/-!
# Heartbeats

The pings and pongs of the protocol say nothing to a listener. Pings may come and go at any point of
a session, and so may pongs once the server has acknowledged it. A client that still waits for the
acknowledgement takes a pong for a breach of the protocol and gives up.
-/
namespace GraphQLClient.Socket

namespace Incoming

def isPong (x : Incoming) : Bool :=
  match x.message? with
  | some (.pong _) => true
  | _ => false

def isHeartbeat (x : Incoming) : Bool := x.isPing || x.isPong

variable {x : Incoming}

theorem isPong_iff : x.isPong ↔ ∃ payload, x.message? = some (.pong payload) := by
  unfold isPong
  split
  · rename_i hmessage
    exact iff_of_true rfl ⟨_, hmessage⟩
  · rename_i hother
    exact iff_of_false Bool.false_ne_true fun ⟨payload, hmessage⟩ => hother payload hmessage

theorem not_keepsWaiting_of_isPong (h : x.isPong) : ¬ x.keepsWaiting := by
  obtain ⟨payload, hmessage⟩ := isPong_iff.mp h
  intro hkept
  simp only [keepsWaiting, Bool.or_eq_true, beq_iff_eq] at hkept
  rcases hkept with (hsilent | hunsubscribe) | hping
  · cases x with
    | frame frame => cases frame <;> first | cases hmessage | cases hsilent
    | _ => cases hsilent
  · exact ne_unsubscribe hmessage hunsubscribe
  · obtain ⟨other, hother⟩ := isPing_iff.mp hping
    cases hmessage.symm.trans hother

end Incoming

/-- A pong is the first thing to come in that a waiting client does not expect. -/
def pongFirst (incoming : List Incoming) : Bool :=
  (incoming.find? (!·.keepsWaiting)).any Incoming.isPong

namespace Phase

variable {wording : Wording} {body : RequestBody} {phase : Phase} {x : Incoming}
  {incoming : List Incoming}

/-- To the listener it is as if `x` had not come in. -/
def Passes (wording : Wording) (body : RequestBody) (phase : Phase) (x : Incoming) : Prop :=
  (phase.step wording body x).1 = phase ∧ deliveries (phase.step wording body x).2 = []

/-- What a running operation makes nothing of, and a waiting client neither. A finished session
makes nothing of anything. -/
theorem passes_message {message : ServerMessage} (h : x.message? = some message)
    (hrunning : (receiveRunning message).1 = running ∧ deliveries (receiveRunning message).2 = [])
    (hwaiting : ∀ cancelled, phase = waiting cancelled →
      (receiveWaiting wording body cancelled message).1 = phase ∧
        deliveries (receiveWaiting wording body cancelled message).2 = []) :
    phase.Passes wording body x := by
  unfold Passes
  cases phase with
  | waiting cancelled =>
    rw [waiting_step_message h]
    exact hwaiting cancelled rfl
  | running =>
    rw [running_step_message h]
    exact hrunning
  | finished => simp

theorem passes_ping (h : x.isPing) (phase : Phase) : phase.Passes wording body x := by
  obtain ⟨payload, hmessage⟩ := Incoming.isPing_iff.mp h
  apply passes_message hmessage ⟨rfl, rfl⟩
  rintro cancelled rfl
  exact ⟨rfl, rfl⟩

theorem passes_pong (h : x.isPong) (hphase : ∀ cancelled, phase ≠ waiting cancelled) :
    phase.Passes wording body x := by
  obtain ⟨payload, hmessage⟩ := Incoming.isPong_iff.mp h
  apply passes_message hmessage ⟨rfl, rfl⟩
  intro cancelled hwaiting
  exact absurd hwaiting (hphase cancelled)

/-- What passes at its place may be left out. -/
theorem deliveries_run_filter {p : Incoming → Bool}
    (h : ∀ front x back, incoming = front ++ x :: back → ¬ p x →
      (phase.after wording body front).Passes wording body x) :
    deliveries (run wording body phase (incoming.filter p)) =
      deliveries (run wording body phase incoming) := by
  -- The phase changes with every frame, and the places behind one are counted from the next phase.
  induction incoming generalizing phase with
  | nil => rfl
  | cons x rest ih =>
    by_cases hx : p x
    · rw [List.filter_cons_of_pos hx, run_cons, run_cons, deliveries_append, deliveries_append, ih]
      intro front y back hsplit hy
      exact h (x :: front) y back (congrArg (x :: ·) hsplit) hy
    · obtain ⟨hphase, hnothing⟩ := h [] x rest rfl hx
      change (phase.step wording body x).1 = phase at hphase
      change deliveries (phase.step wording body x).2 = [] at hnothing
      rw [List.filter_cons_of_neg hx, run_cons, deliveries_append, hnothing,
        hphase, List.nil_append]
      apply ih
      intro front y back hsplit hy
      have hpasses := h (x :: front) y back (congrArg (x :: ·) hsplit) hy
      rw [after, List.foldl_cons, hphase] at hpasses
      exact hpasses

/-- A client still waits only when nothing else than what it waits through has come in. -/
theorem all_keepsWaiting_of_after {cancelled : Bool}
    (h : (waiting false).after wording body incoming = waiting cancelled) :
    ∀ x ∈ incoming, x.keepsWaiting := by
  obtain ⟨-, -, -, hafter⟩ := run_course wording body incoming
  rw [h] at hafter
  split_ifs at hafter with hclosing hbehind
  cases course incoming with
  | waiting _ _ hall =>
    intro x hx
    rw [← hall] at hx
    exact List.mem_takeWhile_imp hx
  | refused _ hclosing' => exact absurd (Option.isSome_of_eq_some hclosing') hclosing
  | acknowledged _ _ _ hbehind' => exact absurd (Option.isSome_of_eq_some hbehind') hbehind

theorem not_waiting_at_pong (h : ¬ pongFirst incoming) {front back : List Incoming}
    (hsplit : incoming = front ++ x :: back) (hpong : x.isPong) (cancelled : Bool) :
    (waiting false).after wording body front ≠ waiting cancelled := by
  intro hafter
  have hfront := all_keepsWaiting_of_after hafter
  apply h
  have hnone : front.find? (!·.keepsWaiting) = none := by
    rw [List.find?_eq_none]
    intro y hy
    simpa using hfront y hy
  have hkept : x.keepsWaiting = false := by simpa using Incoming.not_keepsWaiting_of_isPong hpong
  rw [pongFirst, hsplit, List.find?_append, hnone, Option.none_or, List.find?_cons, hkept]
  exact hpong

end Phase

variable {incoming : List Incoming}

theorem deliveries_session (wording : Wording) (params : Option Json) (body : RequestBody)
    (incoming : List Incoming) :
    deliveries (session wording params body incoming) =
      deliveries (Phase.run wording body (.waiting false) incoming) :=
  rfl

theorem deliveries_without_pings (wording : Wording) (params : Option Json) (body : RequestBody)
    (incoming : List Incoming) :
    deliveries (session wording params body (incoming.filter (!·.isPing))) =
      deliveries (session wording params body incoming) := by
  apply Phase.deliveries_run_filter
  intro front x back _ hx
  exact Phase.passes_ping (by simpa using hx) _

theorem deliveries_without_heartbeats (wording : Wording) (params : Option Json)
    (body : RequestBody) (h : ¬ pongFirst incoming) :
    deliveries (session wording params body (incoming.filter (!·.isHeartbeat))) =
      deliveries (session wording params body incoming) := by
  apply Phase.deliveries_run_filter
  intro front x back hsplit hx
  have hheartbeat : x.isHeartbeat = true := by simpa using hx
  rcases Bool.or_eq_true_iff.mp hheartbeat with hping | hpong
  · exact Phase.passes_ping hping _
  · exact Phase.passes_pong hpong (Phase.not_waiting_at_pong h hsplit hpong)

theorem deliveries_unexpected_pong (wording : Wording) (params : Option Json) (body : RequestBody)
    {x : Incoming} {payload : Option Json} (hfirst : incoming.find? (!·.keepsWaiting) = some x)
    (hmessage : x.message? = some (.pong payload)) :
    deliveries (session wording params body incoming) =
      [.error (Phase.unexpected wording (.pong payload))] := by
  rcases takeWhile_cases Incoming.keepsWaiting incoming with
    ⟨hnone, -⟩ | ⟨y, rest, hy, -, hsplit, -⟩
  · cases hnone.symm.trans hfirst
  · obtain rfl : y = x := Option.some.inj (hy.symm.trans hfirst)
    change incoming = untilAcknowledged incoming ++ y :: rest at hsplit
    obtain ⟨hrun, hafter⟩ :
        Phase.run wording body (.waiting false) (untilAcknowledged incoming) = _ ∧ _ :=
      Phase.run_keepsWaiting fun _ hmem => List.mem_takeWhile_imp hmem
    have hrest : Phase.run wording body
        ((Phase.waiting false).after wording body (untilAcknowledged incoming)) (y :: rest) =
          [.deliver (.error (Phase.unexpected wording (.pong payload)))] := by
      rw [hafter, Phase.run_cons, Phase.waiting_step_message hmessage]
      simp [Phase.receiveWaiting, Phase.failWith]
    have hwhole : Phase.run wording body (.waiting false) incoming =
        (untilAcknowledged incoming).flatMap Incoming.handled ++
          [.deliver (.error (Phase.unexpected wording (.pong payload)))] := by
      conv_lhs => rw [hsplit]
      rw [Phase.run_append, hrun, hrest]
    rw [deliveries_session, hwhole, deliveries_append, deliveries_untilAcknowledged]
    rfl

/-- Sessions that differ in pings only are told alike, and so are those that differ in pings and
pongs where no pong comes to a waiting client. One that does ends the session, with a failure that
shows it. -/
theorem heartbeats_pass (wording : Wording) (params : Option Json) (body : RequestBody) :
    (∀ incoming other : List Incoming,
      incoming.filter (!·.isPing) = other.filter (!·.isPing) →
        deliveries (session wording params body incoming) =
          deliveries (session wording params body other)) ∧
    (∀ incoming other : List Incoming,
      incoming.filter (!·.isHeartbeat) = other.filter (!·.isHeartbeat) →
        ¬ pongFirst incoming → ¬ pongFirst other →
          deliveries (session wording params body incoming) =
            deliveries (session wording params body other)) ∧
    ∀ incoming, pongFirst incoming → ∃ x payload,
      incoming.find? (!·.keepsWaiting) = some x ∧ x.message? = some (.pong payload) ∧
        deliveries (session wording params body incoming) = [.error (socketError
          s!"Expected connection_ack, received {wording.shown (.pong payload)}")] := by
  refine ⟨?_, ?_, ?_⟩
  · intro incoming other hsame
    rw [← deliveries_without_pings, hsame, deliveries_without_pings]
  · intro incoming other hsame hincoming hother
    rw [← deliveries_without_heartbeats wording params body hincoming, hsame,
      deliveries_without_heartbeats wording params body hother]
  · intro incoming hpong
    obtain ⟨x, hfirst, hx⟩ := (Option.any_eq_true _ _).mp hpong
    obtain ⟨payload, hmessage⟩ := Incoming.isPong_iff.mp hx
    exact ⟨x, payload, hfirst, hmessage,
      deliveries_unexpected_pong wording params body hfirst hmessage⟩

def pongFrame : Incoming := frameOf [("type", .string "pong")]

def completeFrame : Incoming := frameOf [("type", .string "complete"), ("id", .string "1")]

def quiet : List Incoming := [ackFrame, nextFrame "1" 5, completeFrame]

def noisy : List Incoming :=
  [pingFrame, pingFrame, ackFrame, pongFrame, nextFrame "1" 5, pingFrame, pongFrame, completeFrame]

def ServerMessage.isPlainPong : ServerMessage → Bool
  | .pong payload => payload.isNone
  | _ => false

theorem noisy_told_alike :
    noisy.filter (!·.isHeartbeat) = quiet.filter (!·.isHeartbeat) ∧ ¬ pongFirst noisy ∧
      ¬ pongFirst quiet ∧
      deliveries (session plainWording none priceBody noisy) =
        deliveries (session plainWording none priceBody quiet) ∧
      pongFirst (pingFrame :: pongFrame :: quiet) ∧
      deliveries (session plainWording none priceBody (pingFrame :: pongFrame :: quiet)) =
        [.error (socketError
          "Expected connection_ack, received Pong \x7b payload: None \x7d")] := by
  obtain ⟨-, halike, hpong⟩ := heartbeats_pass plainWording none priceBody
  have hsame : noisy.filter (!·.isHeartbeat) = quiet.filter (!·.isHeartbeat) := by decide +kernel
  have hnoisy : ¬ pongFirst noisy := by decide +kernel
  have hquiet : ¬ pongFirst quiet := by decide +kernel
  have hfirst : pongFirst (pingFrame :: pongFrame :: quiet) := by decide +kernel
  obtain ⟨x, payload, hx, hmessage, hrefused⟩ := hpong _ hfirst
  have hfound : (pingFrame :: pongFrame :: quiet).find? (!·.keepsWaiting) = some pongFrame := by
    decide +kernel
  obtain rfl : pongFrame = x := Option.some.inj (hfound.symm.trans hx)
  have hplain : (pongFrame.message?.any (·.isPlainPong)) = true := by decide +kernel
  rw [hmessage] at hplain
  obtain rfl : payload = none := Option.isNone_iff_eq_none.mp hplain
  exact ⟨hsame, hnoisy, hquiet, halike noisy quiet hsame hnoisy hquiet, hfirst, hrefused⟩

/-- A pong in front of the acknowledgement takes response and completion from the listener. -/
theorem pong_not_passed :
    (pongFrame :: quiet).filter (!·.isHeartbeat) = quiet.filter (!·.isHeartbeat) ∧
      (deliveries (session plainWording none priceBody quiet)).map SinkEvent.isTerminal =
        [false, true] ∧
      (deliveries (session plainWording none priceBody (pongFrame :: quiet))).map
        SinkEvent.isTerminal = [true] := by
  decide +kernel

end GraphQLClient.Socket
