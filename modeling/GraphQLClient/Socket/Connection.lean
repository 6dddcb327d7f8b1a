import GraphQLClient.Client.Basic
import GraphQLClient.Socket.Message

/-!
# One subscription over a WebSocket

The client introduces itself, waits for the acknowledgement, subscribes, and then hands on what
comes for its operation until the server ends it, the socket ends or the listener unsubscribes.
Messages are texts; other frames are passed over.
-/
namespace GraphQLClient.Socket

inductive Frame where
  | text (text : String)
  | binary
  | ping
  | pong
  | close
  deriving DecidableEq, Repr

/-- `ended` is an end of the socket without a close frame, `broken` one with an error. The handle
for unsubscribing comes in when it is used. A handle that is dropped is nothing that comes in: the
receiver of the cancellation is assumed to stay silent once its sender is gone, however often it is
asked. -/
inductive Incoming where
  | frame (frame : Frame)
  | ended
  | broken (reason : String)
  | unsubscribe
  deriving DecidableEq, Repr

inductive Outgoing where
  | send (message : ClientMessage)
  | closeFrame
  | deliver (event : SinkEvent)

/-- An unsubscription that comes before the acknowledgement waits for it. -/
inductive Phase where
  | waiting (cancelled : Bool)
  | running
  | finished
  deriving DecidableEq, Repr

/-- Texts that the client takes over from the libraries below it: how a message is shown to whoever
looks for a fault, and why a text is no message. -/
structure Wording where
  shown : ServerMessage → String
  reason : String → String

def socketError (message : String) : ClientError := .new .webSocketError message

namespace Phase

def failWith (error : ClientError) : Phase × List Outgoing :=
  (.finished, [.deliver (.error error)])

def cancel : List Outgoing := [.send (.complete operationId), .closeFrame]

def unexpected (wording : Wording) (message : ServerMessage) : ClientError :=
  socketError s!"Expected connection_ack, received {wording.shown message}"

/-- Before the acknowledgement only pings are answered. -/
def receiveWaiting (wording : Wording) (body : RequestBody) (cancelled : Bool) :
    ServerMessage → Phase × List Outgoing
  | .connectionAck _ =>
    let subscribe := Outgoing.send (.subscribe operationId body)
    if cancelled then (.finished, subscribe :: cancel) else (.running, [subscribe])
  | .ping _ => (.waiting cancelled, [.send .pong])
  | other => failWith (unexpected wording other)

/-- Messages for another operation say nothing. -/
def receiveRunning : ServerMessage → Phase × List Outgoing
  | .next id response =>
    if id = operationId then (.running, [.deliver (.next response)]) else (.running, [])
  | .error id errors =>
    if id = operationId then (.finished, [.deliver (.error (.ofResponseErrors errors))])
    else (.running, [])
  | .complete id => if id = operationId then (.finished, [.deliver .complete]) else (.running, [])
  | .ping _ => (.running, [.send .pong])
  | .connectionAck _ => (.running, [])
  | .pong _ => (.running, [])

def noMessage (wording : Wording) (text : String) : ClientError :=
  .ofForeign .webSocketError (wording.reason text) (some "Invalid protocol message")

def receive (wording : Wording) (body : RequestBody) (text : String) (phase : Phase) :
    Phase × List Outgoing :=
  match phase, ServerMessage.ofText? text with
  | .finished, _ => (.finished, [])
  | _, none => failWith (noMessage wording text)
  | .waiting cancelled, some message => receiveWaiting wording body cancelled message
  | .running, some message => receiveRunning message

/-- The end of the socket completes a running subscription. -/
def endSocket : Phase → Phase × List Outgoing
  | .waiting _ => failWith (socketError "Connection closed before acknowledgement")
  | .running => (.finished, [.deliver .complete])
  | .finished => (.finished, [])

def breakSocket (reason : String) : Phase → Phase × List Outgoing
  | .finished => (.finished, [])
  | _ => failWith (socketError reason)

def unsubscribe : Phase → Phase × List Outgoing
  | .waiting _ => (.waiting true, [])
  | .running => (.finished, cancel)
  | .finished => (.finished, [])

def step (wording : Wording) (body : RequestBody) (phase : Phase) : Incoming → Phase × List Outgoing
  | .frame (.text text) => phase.receive wording body text
  | .frame .close => phase.endSocket
  | .frame _ => (phase, [])
  | .ended => phase.endSocket
  | .broken reason => phase.breakSocket reason
  | .unsubscribe => phase.unsubscribe

def run (wording : Wording) (body : RequestBody) : Phase → List Incoming → List Outgoing
  | _, [] => []
  | phase, incoming :: rest =>
    let (next, outgoing) := phase.step wording body incoming
    outgoing ++ run wording body next rest

end Phase

def opening (params : Option Json) : Outgoing := .send (.connectionInit params)

def session (wording : Wording) (params : Option Json) (body : RequestBody)
    (incoming : List Incoming) : List Outgoing :=
  opening params :: Phase.run wording body (.waiting false) incoming

end GraphQLClient.Socket
