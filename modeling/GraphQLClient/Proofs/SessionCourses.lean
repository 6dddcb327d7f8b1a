import GraphQLClient.Socket.Connection
import Mathlib.Data.List.TakeWhile
import Mathlib.Tactic.Common

/-!
# Courses of a session

What comes in falls into what the client takes in while it waits for the acknowledgement, what it
takes in while its operation runs, and what ends the session. The parts are told from what came in
alone, and they settle all that the client does. An unsubscription stands where the client takes
notice of it.
-/
namespace GraphQLClient

def SinkEvent.isTerminal : SinkEvent → Bool
  | .next _ => false
  | .error _ => true
  | .complete => true

namespace Socket

namespace Incoming

def message? : Incoming → Option ServerMessage
  | .frame (.text text) => ServerMessage.ofText? text
  | _ => none

/-- Frames without a text: binary ones, and the pings and pongs of the socket itself. -/
def isSilent : Incoming → Bool
  | .frame .binary => true
  | .frame .ping => true
  | .frame .pong => true
  | _ => false

def isPing (x : Incoming) : Bool :=
  match x.message? with
  | some (.ping _) => true
  | _ => false

def isAcknowledgement (x : Incoming) : Bool :=
  match x.message? with
  | some (.connectionAck _) => true
  | _ => false

def response? (x : Incoming) : Option Response :=
  match x.message? with
  | some (.next id response) => if id = operationId then some response else none
  | _ => none

def endsOperation (x : Incoming) : Bool :=
  match x.message? with
  | some (.error id _) => id == operationId
  | some (.complete id) => id == operationId
  | _ => false

/-- True for what leaves a client waiting that waits for the acknowledgement. -/
def keepsWaiting (x : Incoming) : Bool := x.isSilent || x == .unsubscribe || x.isPing

def keepsRunning (x : Incoming) : Bool := x.isSilent || (x.message?.isSome && !x.endsOperation)

/-- What the client does about what does not end the session. -/
def handled (x : Incoming) : List Outgoing :=
  match x.message? with
  | some (.ping _) => [.send .pong]
  | some (.next id response) => if id = operationId then [.deliver (.next response)] else []
  | _ => []

variable {x : Incoming}

theorem message?_eq_some {message : ServerMessage} (h : x.message? = some message) :
    ∃ text, x = .frame (.text text) ∧ ServerMessage.ofText? text = some message := by
  cases x with
  | frame frame =>
    cases frame with
    | text text => exact ⟨text, rfl, h⟩
    | _ => cases h
  | _ => cases h

theorem ne_unsubscribe {message : ServerMessage} (h : x.message? = some message) :
    x ≠ .unsubscribe := by
  rintro rfl
  cases h

theorem isPing_iff : x.isPing ↔ ∃ payload, x.message? = some (.ping payload) := by
  unfold isPing
  split
  · rename_i hmessage
    exact iff_of_true rfl ⟨_, hmessage⟩
  · rename_i hother
    exact iff_of_false Bool.false_ne_true fun ⟨payload, hmessage⟩ => hother payload hmessage

theorem handled_silent (h : x.isSilent) : x.handled = [] ∧ x ≠ .unsubscribe := by
  cases x with
  | frame frame => cases frame <;> first | exact ⟨rfl, nofun⟩ | cases h
  | _ => cases h

end Incoming

/-- What comes before the acknowledgement, as far as the client takes it in. -/
def untilAcknowledged (incoming : List Incoming) : List Incoming :=
  incoming.takeWhile Incoming.keepsWaiting

/-- What comes behind the acknowledgement. An unsubscription from before comes first. -/
def behindAcknowledgement? (incoming : List Incoming) : Option (List Incoming) :=
  match incoming.dropWhile Incoming.keepsWaiting with
  | [] => none
  | x :: rest =>
    if x.isAcknowledgement then
      some (if .unsubscribe ∈ untilAcknowledged incoming then .unsubscribe :: rest else rest)
    else none

def whileRunning (incoming : List Incoming) : List Incoming :=
  ((behindAcknowledgement? incoming).getD []).takeWhile Incoming.keepsRunning

/-- What ended the session, and `none` while it lasts. -/
def closing? (incoming : List Incoming) : Option Incoming :=
  match behindAcknowledgement? incoming with
  | some rest => rest.find? (!·.keepsRunning)
  | none => incoming.find? (!·.keepsWaiting)

/-- What the client does last: it says goodbye when it has unsubscribed, and gives notice of any
other end. -/
inductive Closes : Option Incoming → List Outgoing → Prop where
  | lasting : Closes none []
  | unsubscribed : Closes (some .unsubscribe) Phase.cancel
  | noticed {x : Incoming} {event : SinkEvent} : x ≠ .unsubscribe → event.isTerminal →
      Closes (some x) [.deliver event]

/-- Up to the first thing that fails a test, if there is one. -/
theorem takeWhile_cases (p : Incoming → Bool) (incoming : List Incoming) :
    (incoming.find? (!p ·) = none ∧ incoming.takeWhile p = incoming ∧ incoming.dropWhile p = []) ∨
      ∃ x rest, incoming.find? (!p ·) = some x ∧ ¬ p x ∧
        incoming = incoming.takeWhile p ++ x :: rest ∧ incoming.dropWhile p = x :: rest := by
  have hhead := List.find?_eq_head?_dropWhile_not (fun x => !p x) incoming
  simp only [Bool.not_not] at hhead
  have hsplit := List.takeWhile_append_dropWhile (p := p) (l := incoming)
  cases hrest : incoming.dropWhile p with
  | nil =>
    rw [hrest] at hhead hsplit
    exact Or.inl ⟨hhead, by simpa using hsplit, rfl⟩
  | cons x rest =>
    rw [hrest] at hhead hsplit
    rw [List.head?_cons] at hhead
    have hx : (!p x) = true := List.find?_some (p := fun x => !p x) hhead
    exact Or.inr ⟨x, rest, hhead, by simpa using hx, hsplit.symm, rfl⟩

namespace Phase

variable {wording : Wording} {body : RequestBody} {phase : Phase} {cancelled : Bool} {x : Incoming}
  {incoming : List Incoming}

def after (wording : Wording) (body : RequestBody) (phase : Phase) (incoming : List Incoming) :
    Phase :=
  incoming.foldl (fun phase x => (phase.step wording body x).1) phase

@[simp] theorem after_nil (phase : Phase) : phase.after wording body [] = phase := rfl

@[simp] theorem after_cons (phase : Phase) (x : Incoming) (rest : List Incoming) :
    phase.after wording body (x :: rest) = (phase.step wording body x).1.after wording body rest :=
  rfl

@[simp] theorem after_append (phase : Phase) (front back : List Incoming) :
    phase.after wording body (front ++ back) =
      (phase.after wording body front).after wording body back :=
  List.foldl_append

@[simp] theorem run_nil (phase : Phase) : run wording body phase [] = [] := rfl

@[simp] theorem run_cons (phase : Phase) (x : Incoming) (rest : List Incoming) :
    run wording body phase (x :: rest) =
      (phase.step wording body x).2 ++ run wording body (phase.step wording body x).1 rest := rfl

@[simp] theorem run_append (phase : Phase) (front back : List Incoming) :
    run wording body phase (front ++ back) =
      run wording body phase front ++ run wording body (phase.after wording body front) back := by
  induction front generalizing phase with
  | nil => rfl
  | cons x rest ih => simp [ih]

@[simp] theorem step_finished (x : Incoming) : finished.step wording body x = (finished, []) := by
  cases x with
  | frame frame => cases frame <;> rfl
  | _ => rfl

@[simp] theorem run_finished (incoming : List Incoming) :
    run wording body finished incoming = [] := by
  induction incoming with
  | nil => rfl
  | cons x rest ih => simp [ih]

@[simp] theorem after_finished (incoming : List Incoming) :
    finished.after wording body incoming = finished := by
  induction incoming with
  | nil => rfl
  | cons x rest ih => simp [ih]

theorem step_silent (h : x.isSilent) (phase : Phase) : phase.step wording body x = (phase, []) := by
  cases x with
  | frame frame => cases frame <;> first | rfl | cases h
  | _ => cases h

theorem waiting_step_message {message : ServerMessage} (h : x.message? = some message) :
    (waiting cancelled).step wording body x = receiveWaiting wording body cancelled message := by
  obtain ⟨text, rfl, htext⟩ := Incoming.message?_eq_some h
  simp only [step, receive, htext]

theorem running_step_message {message : ServerMessage} (h : x.message? = some message) :
    running.step wording body x = receiveRunning message := by
  obtain ⟨text, rfl, htext⟩ := Incoming.message?_eq_some h
  simp only [step, receive, htext]

/-- What is no message of the protocol and is not passed over ends the session, whatever its
phase. -/
theorem step_fails (h : x.message? = none) (hsilent : ¬ x.isSilent) (hne : x ≠ .unsubscribe) :
    (∃ error, (waiting cancelled).step wording body x = (finished, [.deliver (.error error)])) ∧
      ∃ event : SinkEvent, event.isTerminal ∧ running.step wording body x =
        (finished, [.deliver event]) := by
  cases x with
  | frame frame =>
    cases frame with
    | text text =>
      simp only [Incoming.message?] at h
      simp only [step, receive, h]
      exact ⟨⟨_, rfl⟩, _, rfl, rfl⟩
    | close => exact ⟨⟨_, rfl⟩, _, rfl, rfl⟩
    | _ => exact absurd rfl hsilent
  | ended => exact ⟨⟨_, rfl⟩, _, rfl, rfl⟩
  | broken reason => exact ⟨⟨_, rfl⟩, _, rfl, rfl⟩
  | unsubscribe => exact absurd rfl hne

theorem step_keepsWaiting (h : x.keepsWaiting) :
    (waiting cancelled).step wording body x =
      (waiting (cancelled || x == .unsubscribe), x.handled) := by
  simp only [Incoming.keepsWaiting, Bool.or_eq_true, beq_iff_eq] at h
  rcases h with (hsilent | rfl) | hping
  · obtain ⟨hhandled, hne⟩ := Incoming.handled_silent hsilent
    rw [step_silent hsilent, hhandled, beq_false_of_ne hne, Bool.or_false]
  · simp [step, unsubscribe, Incoming.handled, Incoming.message?]
  · obtain ⟨payload, hmessage⟩ := Incoming.isPing_iff.mp hping
    rw [waiting_step_message hmessage, beq_false_of_ne (Incoming.ne_unsubscribe hmessage),
      Bool.or_false, Incoming.handled, hmessage]
    rfl

theorem step_acknowledgement (h : x.isAcknowledgement) :
    (waiting cancelled).step wording body x =
      if cancelled then (finished, .send (.subscribe operationId body) :: cancel)
      else (running, [.send (.subscribe operationId body)]) := by
  unfold Incoming.isAcknowledgement at h
  split at h
  · rename_i hmessage
    exact waiting_step_message hmessage
  · cases h

theorem step_refused (h : ¬ x.keepsWaiting) (hack : ¬ x.isAcknowledgement) :
    ∃ error, (waiting cancelled).step wording body x = (finished, [.deliver (.error error)]) := by
  simp only [Incoming.keepsWaiting, Bool.or_eq_true, beq_iff_eq, not_or] at h
  obtain ⟨⟨hsilent, hne⟩, hping⟩ := h
  cases hmessage : x.message? with
  | none => exact (step_fails hmessage hsilent hne).1
  | some message =>
    rw [waiting_step_message hmessage]
    cases message with
    | connectionAck => simp [Incoming.isAcknowledgement, hmessage] at hack
    | ping => simp [Incoming.isPing, hmessage] at hping
    | _ => exact ⟨_, rfl⟩

theorem step_keepsRunning (h : x.keepsRunning) :
    running.step wording body x = (running, x.handled) := by
  simp only [Incoming.keepsRunning, Bool.or_eq_true, Bool.and_eq_true] at h
  rcases h with hsilent | ⟨hsome, hends⟩
  · rw [step_silent hsilent, (Incoming.handled_silent hsilent).1]
  · obtain ⟨message, hmessage⟩ := Option.isSome_iff_exists.mp hsome
    rw [running_step_message hmessage]
    simp only [Incoming.endsOperation, hmessage] at hends
    simp only [Incoming.handled, hmessage]
    cases message with
    | next id response => by_cases hid : id = operationId <;> simp [receiveRunning, hid]
    | error id errors =>
      have hid : id ≠ operationId := by simpa using hends
      simp [receiveRunning, hid]
    | complete id =>
      have hid : id ≠ operationId := by simpa using hends
      simp [receiveRunning, hid]
    | _ => rfl

theorem step_closing (h : ¬ x.keepsRunning) (hne : x ≠ .unsubscribe) :
    ∃ event : SinkEvent, event.isTerminal ∧ running.step wording body x =
      (finished, [.deliver event]) := by
  simp only [Incoming.keepsRunning, Bool.or_eq_true, Bool.and_eq_true, not_or, not_and] at h
  obtain ⟨hsilent, hends⟩ := h
  cases hmessage : x.message? with
  | none => exact (@step_fails wording body false x hmessage hsilent hne).2
  | some message =>
    rw [running_step_message hmessage]
    simp only [Incoming.endsOperation, hmessage, Option.isSome_some, forall_const] at hends
    cases message with
    | error id errors =>
      have hid : id = operationId := by simpa using hends
      exact ⟨.error (.ofResponseErrors errors), rfl, if_pos hid⟩
    | complete id =>
      have hid : id = operationId := by simpa using hends
      exact ⟨.complete, rfl, if_pos hid⟩
    | _ => simp at hends

theorem run_keepsWaiting (h : ∀ x ∈ incoming, x.keepsWaiting) :
    run wording body (waiting cancelled) incoming = incoming.flatMap Incoming.handled ∧
      (waiting cancelled).after wording body incoming =
        waiting (cancelled || decide (.unsubscribe ∈ incoming)) := by
  induction incoming generalizing cancelled with
  | nil => simp
  | cons x rest ih =>
    have hstep : (waiting cancelled).step wording body x = _ :=
      step_keepsWaiting (h x List.mem_cons_self)
    obtain ⟨hrun, hafter⟩ := @ih (cancelled || x == .unsubscribe)
      fun y hy => h y (List.mem_cons_of_mem _ hy)
    constructor
    · simp [hstep, hrun]
    · rw [after_cons, hstep]
      refine hafter.trans ?_
      simp only [List.mem_cons, Bool.decide_or, Bool.or_assoc, beq_eq_decide, eq_comm]

theorem run_keepsRunning (h : ∀ x ∈ incoming, x.keepsRunning) :
    run wording body running incoming = incoming.flatMap Incoming.handled ∧
      running.after wording body incoming = running := by
  induction incoming with
  | nil => exact ⟨rfl, rfl⟩
  | cons x rest ih =>
    have hstep : running.step wording body x = _ := step_keepsRunning (h x List.mem_cons_self)
    obtain ⟨hrun, hafter⟩ := ih fun y hy => h y (List.mem_cons_of_mem _ hy)
    constructor
    · simp [hstep, hrun]
    · simp [hstep, hafter]

/-- The acknowledgement starts the operation, and an unsubscription from before is noticed then. -/
theorem run_acknowledgement (h : x.isAcknowledgement) (rest : List Incoming) :
    let behind := if cancelled then .unsubscribe :: rest else rest
    run wording body (waiting cancelled) (x :: rest) =
        .send (.subscribe operationId body) :: run wording body running behind ∧
      (waiting cancelled).after wording body (x :: rest) = running.after wording body behind := by
  rw [run_cons, after_cons, step_acknowledgement h]
  cases cancelled with
  | false => exact ⟨rfl, rfl⟩
  | true => exact ⟨by rfl, rfl⟩

theorem run_running (wording : Wording) (body : RequestBody) (incoming : List Incoming) :
    ∃ last, Closes (incoming.find? (!·.keepsRunning)) last ∧
      run wording body running incoming =
        (incoming.takeWhile Incoming.keepsRunning).flatMap Incoming.handled ++ last ∧
      running.after wording body incoming =
        if (incoming.find? (!·.keepsRunning)).isNone then running else finished := by
  have hfront : run wording body running (incoming.takeWhile Incoming.keepsRunning) = _ ∧ _ :=
    run_keepsRunning fun _ hx => List.mem_takeWhile_imp hx
  rcases takeWhile_cases Incoming.keepsRunning incoming with
    ⟨hnone, hall, -⟩ | ⟨x, rest, hsome, hx, hsplit, -⟩
  · rw [hall] at hfront
    rw [hnone, hall]
    exact ⟨[], .lasting, by rw [hfront.1, List.append_nil], hfront.2⟩
  · have hstep : ∃ last, Closes (some x) last ∧ running.step wording body x = (finished, last) := by
      by_cases hne : x = .unsubscribe
      · subst hne
        exact ⟨cancel, .unsubscribed, rfl⟩
      · obtain ⟨event, hevent, hstep⟩ := @step_closing wording body x hx hne
        exact ⟨_, .noticed hne hevent, hstep⟩
    obtain ⟨last, hlast, hstep⟩ := hstep
    refine ⟨last, hsome ▸ hlast, ?_, ?_⟩
    · conv_lhs => rw [hsplit]
      simp [hfront, hstep]
    · conv_lhs => rw [hsplit]
      simp [hfront, hstep, hsome]

end Phase

variable {incoming : List Incoming}

inductive Course (incoming : List Incoming) : Prop where
  /-- Nothing but what keeps the client waiting has come in. -/
  | waiting : behindAcknowledgement? incoming = none → closing? incoming = none →
      untilAcknowledged incoming = incoming → Course incoming
  /-- The session ended before the acknowledgement. -/
  | refused {x : Incoming} {rest : List Incoming} : behindAcknowledgement? incoming = none →
      closing? incoming = some x → ¬ x.keepsWaiting → ¬ x.isAcknowledgement →
      incoming = untilAcknowledged incoming ++ x :: rest → Course incoming
  | acknowledged {x : Incoming} {rest behind : List Incoming} : x.isAcknowledgement →
      incoming = untilAcknowledged incoming ++ x :: rest →
      behind = (if .unsubscribe ∈ untilAcknowledged incoming then .unsubscribe :: rest else rest) →
      behindAcknowledgement? incoming = some behind →
      closing? incoming = behind.find? (!·.keepsRunning) → Course incoming

theorem course (incoming : List Incoming) : Course incoming := by
  rcases takeWhile_cases Incoming.keepsWaiting incoming with
    ⟨hnone, hall, hdrop⟩ | ⟨x, rest, hsome, hx, hsplit, hdrop⟩
  · have hbehind : behindAcknowledgement? incoming = none := by
      rw [behindAcknowledgement?, hdrop]
    refine .waiting hbehind ?_ hall
    rw [closing?, hbehind]
    exact hnone
  · by_cases hack : x.isAcknowledgement
    · have hbehind := behindAcknowledgement?.eq_1 incoming
      simp only [hdrop, hack, if_true] at hbehind
      refine .acknowledged hack hsplit rfl hbehind ?_
      rw [closing?, hbehind]
    · have hbehind : behindAcknowledgement? incoming = none := by
        simp only [behindAcknowledgement?, hdrop, hack, Bool.false_eq_true, if_false]
      refine .refused hbehind ?_ hx hack hsplit
      rw [closing?, hbehind]
      exact hsome

theorem mem_of_closing? {x : Incoming} (h : closing? incoming = some x) : x ∈ incoming := by
  cases course incoming with
  | waiting _ hclosing => cases hclosing.symm.trans h
  | refused _ hclosing _ _ hsplit =>
    cases hclosing.symm.trans h
    rw [hsplit]
    exact List.mem_append_right _ List.mem_cons_self
  | acknowledged _ hsplit hrest _ hclosing =>
    have hx := List.mem_of_find?_eq_some (hclosing.symm.trans h)
    rw [hrest] at hx
    split_ifs at hx with hunsubscribe
    · rcases List.mem_cons.mp hx with rfl | hx
      · exact (List.takeWhile_subset _) hunsubscribe
      · rw [hsplit]
        exact List.mem_append_right _ (List.mem_cons_of_mem _ hx)
    · rw [hsplit]
      exact List.mem_append_right _ (List.mem_cons_of_mem _ hx)

def subscribing (body : RequestBody) (incoming : List Incoming) : List Outgoing :=
  if (behindAcknowledgement? incoming).isSome then [.send (.subscribe operationId body)] else []

/-- All that the client does, and the phase that it comes to, told from what comes in. -/
theorem run_course (wording : Wording) (body : RequestBody) (incoming : List Incoming) :
    ∃ last, Closes (closing? incoming) last ∧
      Phase.run wording body (.waiting false) incoming =
        (untilAcknowledged incoming).flatMap Incoming.handled ++ subscribing body incoming ++
          (whileRunning incoming).flatMap Incoming.handled ++ last ∧
      (Phase.waiting false).after wording body incoming =
        if (closing? incoming).isSome then .finished
        else if (behindAcknowledgement? incoming).isSome then .running
        else .waiting (decide (.unsubscribe ∈ incoming)) := by
  obtain ⟨hrun, hafter⟩ : Phase.run wording body (.waiting false) (untilAcknowledged incoming) = _ ∧
      _ :=
    Phase.run_keepsWaiting fun _ hx => List.mem_takeWhile_imp hx
  rw [Bool.false_or] at hafter
  cases course incoming with
  | waiting hbehind hclosing hall =>
    rw [hall] at hrun hafter
    refine ⟨[], hclosing ▸ .lasting, ?_, ?_⟩
    · simp [hrun, hall, subscribing, whileRunning, hbehind]
    · simp [hafter, hbehind, hclosing]
  | @refused x rest hbehind hclosing hx hack hsplit =>
    obtain ⟨error, hstep⟩ := @Phase.step_refused wording body
      (decide (.unsubscribe ∈ untilAcknowledged incoming)) x hx hack
    have hne : x ≠ .unsubscribe := by
      rintro rfl
      exact hx rfl
    refine ⟨[.deliver (.error error)], hclosing ▸ .noticed hne rfl, ?_, ?_⟩
    · conv_lhs => rw [hsplit]
      simp [hrun, hafter, hstep, subscribing, whileRunning, hbehind]
    · conv_lhs => rw [hsplit]
      simp [hafter, hstep, hclosing]
  | @acknowledged x rest behind hack hsplit hrest hbehind hclosing =>
    obtain ⟨last, hlast, hbehindRun, hbehindAfter⟩ := Phase.run_running wording body behind
    obtain ⟨hackRun, hackAfter⟩ := @Phase.run_acknowledgement wording body
      (decide (.unsubscribe ∈ untilAcknowledged incoming)) x hack rest
    simp only [decide_eq_true_eq, ← hrest] at hackRun hackAfter
    refine ⟨last, hclosing ▸ hlast, ?_, ?_⟩
    · conv_lhs => rw [hsplit, Phase.run_append, hrun, hafter, hackRun, hbehindRun]
      simp [subscribing, whileRunning, hbehind]
    · conv_lhs => rw [hsplit, Phase.after_append, hafter, hackAfter, hbehindAfter]
      rw [hclosing, hbehind]
      cases behind.find? (!·.keepsRunning) <;> rfl

/-! What is sent and what is delivered. -/

def Outgoing.sent? : Outgoing → Option ClientMessage
  | .send message => some message
  | _ => none

def Outgoing.delivered? : Outgoing → Option SinkEvent
  | .deliver event => some event
  | _ => none

def sends (outgoing : List Outgoing) : List ClientMessage := outgoing.filterMap Outgoing.sent?

def deliveries (outgoing : List Outgoing) : List SinkEvent :=
  outgoing.filterMap Outgoing.delivered?

/-- What comes in later does not change what the client did before. -/
@[simp] theorem session_append (wording : Wording) (params : Option Json) (body : RequestBody)
    (front back : List Incoming) :
    session wording params body (front ++ back) = session wording params body front ++
      Phase.run wording body ((Phase.waiting false).after wording body front) back := by
  simp [session]

/-- What the client passes over could as well not have come in. -/
theorem session_passed {wording : Wording} {body : RequestBody}
    {front : List Incoming} {x : Incoming}
    (h : ((Phase.waiting false).after wording body front).step wording body x =
      ((Phase.waiting false).after wording body front, []))
    (params : Option Json) (back : List Incoming) :
    session wording params body (front ++ x :: back) =
      session wording params body (front ++ back) := by
  simp [h]

/-! Frames as a server sends them. -/

def frameOf (fields : List (String × Json)) : Incoming := .frame (.text (Json.object fields).text)

def pingFrame : Incoming := frameOf [("type", .string "ping")]

def ackFrame : Incoming := frameOf [("type", .string "connection_ack")]

/-- What stands in failures for messages without a payload. -/
def plainWording : Wording where
  shown
    | .connectionAck none => "ConnectionAck \x7b payload: None \x7d"
    | .ping none => "Ping \x7b payload: None \x7d"
    | .pong none => "Pong \x7b payload: None \x7d"
    | _ => ""
  reason _ := "expected value at line 1 column 1"

def priceBody : RequestBody := ⟨"subscription price", .object []⟩

end Socket

end GraphQLClient
