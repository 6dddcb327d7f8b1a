import GraphQLClient.Proofs.SessionCourses

/-!
# What a listener hears of a session

The sink of a subscription gets the responses of its operation in order. An error or the completion
comes last and once, and not at all when the client has unsubscribed.
-/
namespace GraphQLClient.Socket

namespace Incoming

variable {x : Incoming}

def endsSocket : Incoming → Bool
  | .frame .close => true
  | .ended => true
  | .broken _ => true
  | _ => false

def isForeign (x : Incoming) : Bool :=
  match x.message? with
  | some (.next id _) => id != operationId
  | some (.error id _) => id != operationId
  | some (.complete id) => id != operationId
  | _ => false

theorem not_kept_of_endsSocket (h : x.endsSocket) :
    ¬ x.keepsWaiting ∧ ¬ x.isAcknowledgement ∧ ¬ x.keepsRunning := by
  have hnone : x.message? = none ∧ x.isSilent = false ∧ (x == .unsubscribe) = false := by
    cases x with
    | frame frame => cases frame <;> first | exact ⟨rfl, rfl, rfl⟩ | cases h
    | ended => exact ⟨rfl, rfl, rfl⟩
    | broken reason => exact ⟨rfl, rfl, rfl⟩
    | unsubscribe => cases h
  obtain ⟨hmessage, hsilent, hne⟩ := hnone
  simp [keepsWaiting, isAcknowledgement, keepsRunning, isPing, hmessage, hsilent, hne]

theorem foreign_passed (h : x.isForeign) : x.keepsRunning ∧ x.handled = [] := by
  unfold isForeign at h
  split at h
  all_goals first | cases h | rename_i hmessage
  all_goals simp_all [keepsRunning, endsOperation, handled]

theorem response?_keepsWaiting (h : x.keepsWaiting) : x.response? = none := by
  simp only [keepsWaiting, Bool.or_eq_true, beq_iff_eq] at h
  rcases h with (hsilent | rfl) | hping
  · cases x with
    | frame frame => cases frame <;> first | rfl | cases hsilent
    | _ => cases hsilent
  · rfl
  · obtain ⟨payload, hmessage⟩ := isPing_iff.mp hping
    rw [response?, hmessage]

@[simp] theorem deliveries_handled (x : Incoming) :
    deliveries x.handled = x.response?.toList.map .next := by
  unfold handled response?
  cases x.message? with
  | none => rfl
  | some message =>
    cases message with
    | next id response =>
      by_cases hid : id = operationId <;> simp [hid, deliveries, Outgoing.delivered?]
    | _ => rfl

end Incoming

@[simp] theorem deliveries_nil : deliveries [] = [] := rfl

@[simp] theorem deliveries_append (front back : List Outgoing) :
    deliveries (front ++ back) = deliveries front ++ deliveries back :=
  List.filterMap_append

theorem deliveries_flatMap_handled (incoming : List Incoming) :
    deliveries (incoming.flatMap Incoming.handled) =
      (incoming.filterMap Incoming.response?).map .next := by
  induction incoming with
  | nil => rfl
  | cons x rest ih =>
    cases h : x.response? <;> simp [h, ih]

/-- Nothing is delivered before the acknowledgement. -/
@[simp] theorem deliveries_untilAcknowledged (incoming : List Incoming) :
    deliveries ((untilAcknowledged incoming).flatMap Incoming.handled) = [] := by
  rw [deliveries_flatMap_handled, List.filterMap_eq_nil_iff.mpr, List.map_nil]
  intro x hx
  exact Incoming.response?_keepsWaiting (List.mem_takeWhile_imp hx)

@[simp] theorem deliveries_subscribing (body : RequestBody) (incoming : List Incoming) :
    deliveries (subscribing body incoming) = [] := by
  unfold subscribing
  split_ifs <;> rfl

theorem Closes.deliveries {closing : Option Incoming} {last : List Outgoing}
    (h : Closes closing last) :
    ∃ ending : Option SinkEvent, Socket.deliveries last = ending.toList ∧
      (∀ event ∈ ending, event.isTerminal) ∧
      (ending.isSome ↔ ∃ x, closing = some x ∧ x ≠ .unsubscribe) := by
  cases h with
  | lasting => exact ⟨none, rfl, nofun, by simp⟩
  | unsubscribed => exact ⟨none, rfl, nofun, by simp⟩
  | @noticed x event hne hevent =>
    exact ⟨some event, rfl, by simpa using hevent, by simpa using hne⟩

/-- Without an unsubscription the end of the socket ends the session, if nothing did before. -/
theorem closing?_of_endsSocket {incoming : List Incoming} (h : .unsubscribe ∉ incoming)
    (hends : ∃ x ∈ incoming, x.endsSocket) :
    ∃ x, closing? incoming = some x ∧ x ≠ .unsubscribe := by
  have hsome : (closing? incoming).isSome := by
    obtain ⟨y, hy, hends⟩ := hends
    obtain ⟨hwaiting, hack, hrunning⟩ := Incoming.not_kept_of_endsSocket hends
    cases course incoming with
    | waiting hbehind hclosing hall =>
      rw [← hall] at hy
      exact absurd (List.mem_takeWhile_imp hy) hwaiting
    | refused hbehind hclosing => exact Option.isSome_of_eq_some hclosing
    | @acknowledged x rest behind hx hsplit hrest hbehind hclosing =>
      have hno : .unsubscribe ∉ untilAcknowledged incoming :=
        fun hmem => h (List.takeWhile_subset _ hmem)
      rw [if_neg hno] at hrest
      rw [hclosing, hrest, List.find?_isSome]
      refine ⟨y, ?_, by simpa using hrunning⟩
      rw [hsplit] at hy
      rcases List.mem_append.mp hy with huntil | hfrom
      · exact absurd (List.mem_takeWhile_imp huntil) hwaiting
      · rcases List.mem_cons.mp hfrom with rfl | hafter
        · exact absurd hx hack
        · exact hafter
  obtain ⟨x, hx⟩ := Option.isSome_iff_exists.mp hsome
  refine ⟨x, hx, ?_⟩
  rintro rfl
  exact h (mem_of_closing? hx)

/-- What the sink hears is the responses read for the operation, in order, and then its end, unless
the client has unsubscribed. What the client is not told about could as well not have come in. -/
theorem sink_events (wording : Wording) (params : Option Json) (body : RequestBody)
    (incoming : List Incoming) :
    (∃ ending : Option SinkEvent,
      deliveries (session wording params body incoming) =
        ((whileRunning incoming).filterMap Incoming.response?).map .next ++ ending.toList ∧
      (∀ event ∈ ending, event.isTerminal) ∧
      (ending.isSome ↔ ∃ x, closing? incoming = some x ∧ x ≠ .unsubscribe) ∧
      (.unsubscribe ∉ incoming → (∃ x ∈ incoming, x.endsSocket) → ending.isSome)) ∧
    ∀ front x back, incoming = front ++ x :: back →
      (x.isSilent ∨ (x.isForeign ∧ (behindAcknowledgement? front).isSome)) →
        session wording params body incoming = session wording params body (front ++ back) := by
  constructor
  · obtain ⟨last, hlast, hrun, -⟩ := run_course wording body incoming
    obtain ⟨ending, hending, hterminal, hsome⟩ := hlast.deliveries
    refine ⟨ending, ?_, hterminal, hsome, ?_⟩
    · have hopening : deliveries (session wording params body incoming) =
          deliveries (Phase.run wording body (.waiting false) incoming) := rfl
      simp [hopening, hrun, deliveries_flatMap_handled (whileRunning incoming), hending]
    · intro hno hends
      exact hsome.mpr (closing?_of_endsSocket hno hends)
  · rintro front x back rfl (hsilent | ⟨hforeign, hack⟩)
    · exact session_passed (Phase.step_silent hsilent _) params back
    · obtain ⟨hkept, hhandled⟩ := Incoming.foreign_passed hforeign
      refine session_passed ?_ params back
      obtain ⟨-, -, -, hafter⟩ := run_course wording body front
      rw [hafter]
      split_ifs
      · exact Phase.step_finished x
      · rw [Phase.step_keepsRunning hkept, hhandled]

def nextFrame (id : String) (data : Int) : Incoming :=
  frameOf [("type", .string "next"), ("id", .string id),
    ("payload", .object [("data", .number (.int data))])]

def greeting : List Incoming :=
  [pingFrame, ackFrame, nextFrame "1" 5]

def farewell : List Incoming := [.frame .binary, nextFrame "1" 8, .frame .close, .ended]

theorem price_events :
    let incoming := greeting ++ nextFrame "2" 6 :: farewell
    (nextFrame "2" 6).isForeign ∧ (behindAcknowledgement? greeting).isSome ∧
      session plainWording none priceBody incoming =
        session plainWording none priceBody (greeting ++ farewell) ∧
      .unsubscribe ∉ incoming ∧ (∃ x ∈ incoming, x.endsSocket) ∧
      ((whileRunning incoming).filterMap Incoming.response?).map (·.toJson.text) =
        ["\x7b\"data\":5\x7d", "\x7b\"data\":8\x7d"] ∧
      ∃ ending : Option SinkEvent, deliveries (session plainWording none priceBody incoming) =
        ((whileRunning incoming).filterMap Incoming.response?).map .next ++ ending.toList ∧
        ending.isSome := by
  intro incoming
  have hforeign : (nextFrame "2" 6).isForeign := by decide +kernel
  have hack : (behindAcknowledgement? greeting).isSome := by decide +kernel
  have hno : .unsubscribe ∉ incoming := by decide +kernel
  have hends : ∃ x ∈ incoming, x.endsSocket := by decide +kernel
  obtain ⟨⟨ending, hevents, -, -, hsome⟩, hpassed⟩ :=
    sink_events plainWording none priceBody incoming
  refine ⟨hforeign, hack, hpassed greeting _ farewell rfl (Or.inr ⟨hforeign, hack⟩), hno, hends, ?_,
    ending, hevents, hsome hno hends⟩
  decide +kernel

end GraphQLClient.Socket
