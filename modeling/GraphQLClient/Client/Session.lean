import GraphQLClient.Client.Basic
import GraphQLClient.Client.Error
import GraphQLClient.Text.Basic

/-!
# Sessions

What callers do with a client, step by step.
-/
namespace GraphQLClient

/-!
## Typed results

The value of a request read as a type. Nothing is converted: a float is no integer, whatever its
value.
-/

inductive ResultType where
  | any
  | int
  | text
  | bool
  | ints
  | optionalText
  deriving DecidableEq, Repr

namespace ResultType

/-- Integers have 64 bits and a sign. -/
def isInt : Json → Bool
  | .number (.int n) => -(Text.signedLimit : Int) ≤ n && n < Text.signedLimit
  | _ => false

def accepts : ResultType → Json → Bool
  | .any, _ => true
  | .int, value => isInt value
  | .text, .string _ => true
  | .bool, .bool _ => true
  | .ints, .array items => items.all isInt
  | .optionalText, .string _ => true
  | .optionalText, .null => true
  | _, _ => false

def read (type : ResultType) (value : Json) : ClientResult Json :=
  if type.accepts value then .ok value
  else .error (.new .deserializeError s!"invalid value: {value.describe}")

end ResultType

/-!
## Steps

A session is a run of steps on one client. What a step makes gets a name, and later steps refer to
it by that name. Each step tells its reply, what it sent, and what listeners heard.
-/

/-- What a name stands for. A subscription names its sink, if there is one to cancel. -/
inductive Handle where
  | call (c : Call)
  | selection (s : Selection)
  | request (id : Nat)
  | subscription (sink : Option Nat)

inductive Step where
  | call (kind : OperationKind) (name : String) (input : Option Json) (target : String)
  | select (on : String) (nodes : List Node) (target : String)
  | request (on target : String)
  | supply (on : String) (input : Json) (target : String)
  | supplyField (on field : String) (value : Json) (target : String)
  | supplyShortcut (on shortcut : String) (value : Json) (target : String)
  | inspect (on : String)
  | await (on : String) (type : Option ResultType)
  | subscribe (on : String) (quiet : Bool) (target : String)
  | unsubscribe (on : String)
  | event (sink : Nat) (event : SinkEvent)
  | hasWebSocket
  | execute (body : RequestBody)

inductive Reply where
  | done
  | request (dispatch : Dispatch)
  | operation (operation : Operation)
  | nodes (nodes : List Node)
  | value (value : Json)
  | flag (b : Bool)
  | response (response : Response)
  | failed (error : ClientError)
  | noHandle
  | notPossible

inductive Heard where
  | notice (listener : String) (notice : Notice)
  | unsubscribed (sink : Nat)

structure Session where
  client : Client
  transport : Transport
  ledger : Ledger
  handles : List (String × Handle)
  sinks : List (String × Sink)

structure Effects where
  reply : Reply
  subscribed : List RequestBody
  heard : List Heard

namespace Session

def start (client : Client) (transport : Transport) : Session :=
  ⟨client, transport, .empty, [], []⟩

def handle? (s : Session) (name : String) : Option Handle := Entries.get? name s.handles

def bind (s : Session) (name : String) (handle : Handle) : Session :=
  { s with handles := Entries.insert name handle s.handles }

def release (s : Session) (name : String) : Session :=
  { s with handles := s.handles.filter (·.1 != name) }

def quietly (reply : Reply) : Effects := ⟨reply, [], []⟩

def fail (s : Session) (error : ClientError) : Session × Effects := (s, quietly (.failed error))

def impossible (s : Session) : Session × Effects := (s, quietly .notPossible)

def showRequest (s : Session) (id : Nat) : Reply :=
  match s.ledger.get? id with
  | some dispatch => .request dispatch
  | none => .noHandle

def bindRequest (s : Session) (target : String) (made : ClientResult (Nat × Ledger)) :
    Session × Effects :=
  match made with
  | .error error => s.fail error
  | .ok (id, ledger) =>
    let s := { s with ledger := ledger }.bind target (.request id)
    (s, quietly (s.showRequest id))

def awaitRequest (s : Session) (request : ClientResult Nat) (type : Option ResultType) :
    Session × Effects :=
  match request with
  | .error error => s.fail error
  | .ok id =>
    let (outcome, ledger) := s.client.await s.transport s.ledger id
    let s := { s with ledger := ledger }
    match outcome.bind ((type.getD .any).read) with
    | .ok value => (s, quietly (.value value))
    | .error error => s.fail error

def subscribeRequest (s : Session) (listener : String) (request : ClientResult Nat) (quiet : Bool)
    (target : String) : Session × Effects :=
  match request.bind fun id => s.client.subscription? s.ledger id with
  | .error error => s.fail error
  | .ok none => (s.bind target (.subscription none), quietly .done)
  | .ok (some dispatch) =>
    let sink : Sink := ⟨dispatch.operation, quiet, false⟩
    let s' := s.bind target (.subscription (some s.sinks.length))
    ({ s' with sinks := s.sinks ++ [(listener, sink)] }, ⟨.done, [dispatch.body], []⟩)

def awaited? (s : Session) : Handle → Option (OperationKind × ClientResult Nat)
  | .call c => some (c.operation.kind, c.request)
  | .selection selection => some (selection.operation.kind, selection.request)
  | .request id => (s.ledger.get? id).map fun dispatch => (dispatch.operation.kind, .ok id)
  | .subscription _ => none

/-- Awaiting uses up a call or a selection, while a request can be awaited again. -/
def releaseAwaited (s : Session) (name : String) : Handle → Session
  | .request _ => s
  | _ => s.release name

def withHandle (s : Session) (name : String) (use : Handle → Session × Effects) :
    Session × Effects :=
  match s.handle? name with
  | none => (s, quietly .noHandle)
  | some handle => use handle

/-- Ends a subscription, whose name is given up before, as is the name of anything else. -/
def unsubscribe (s : Session) : Handle → Session × Effects
  | .subscription sink => (s, ⟨.done, [], sink.toList.map Heard.unsubscribed⟩)
  | _ => s.impossible

def step (s : Session) : Step → Session × Effects
  | .call kind name input target =>
    match s.client.call s.ledger kind name input with
    | .error error => s.fail error
    | .ok (c, ledger) => ({ s with ledger := ledger }.bind target (.call c), quietly .done)
  | .select on nodes target => s.withHandle on fun
    | .call c =>
      match s.client.select s.ledger c nodes with
      | .error error => s.fail error
      | .ok (selection, ledger) =>
        ({ s with ledger := ledger }.bind target (.selection selection), quietly .done)
    | _ => s.impossible
  | .request on target => s.withHandle on fun
    | .call c => s.bindRequest target (c.request.map fun id => (id, s.ledger))
    | .selection selection =>
      s.bindRequest target (selection.request.map fun id => (id, s.ledger))
    | _ => s.impossible
  | .supply on input target => s.withHandle on fun
    | .call c => s.bindRequest target (s.client.callBy s.ledger c input)
    | .selection selection => s.bindRequest target (s.client.selectionBy s.ledger selection input)
    | _ => s.impossible
  | .supplyField on field value target => s.withHandle on fun
    | .call c => s.bindRequest target (s.client.callByField s.ledger c field value)
    | .selection selection =>
      s.bindRequest target (s.client.selectionByField s.ledger selection field value)
    | _ => s.impossible
  | .supplyShortcut on shortcut value target => s.withHandle on fun
    | .call c => s.bindRequest target (s.client.callByShortcut s.ledger c shortcut value)
    | .selection selection =>
      s.bindRequest target (s.client.selectionByShortcut s.ledger selection shortcut value)
    | _ => s.impossible
  | .inspect on => s.withHandle on fun
    | .call c => (s, quietly (.operation c.operation))
    | .selection selection => (s, quietly (.nodes selection.nodes))
    | .request id => (s, quietly (s.showRequest id))
    | .subscription _ => s.impossible
  | .await on type => s.withHandle on fun handle =>
    match s.awaited? handle with
    | none => s.impossible
    | some (.subscription, _) => s.impossible
    | some (_, request) => (s.releaseAwaited on handle).awaitRequest request type
  | .subscribe on quiet target => s.withHandle on fun handle =>
    match s.awaited? handle with
    | some (.subscription, request) => s.subscribeRequest on request quiet target
    | _ => s.impossible
  | .unsubscribe on => s.withHandle on (s.release on).unsubscribe
  | .event sink event =>
    match s.sinks[sink]? with
    | none => (s, quietly .noHandle)
    | some (listener, receiver) =>
      let (notices, receiver) := receiver.deliver s.client event
      ({ s with sinks := s.sinks.set sink (listener, receiver) },
        ⟨.done, [], notices.map (Heard.notice listener)⟩)
  | .hasWebSocket => (s, quietly (.flag s.client.hasWebSocket))
  | .execute body =>
    let (answer, ledger) := Client.execute s.transport s.ledger body
    let s := { s with ledger := ledger }
    match answer with
    | .ok response => (s, quietly (.response response))
    | .error error => s.fail error

def run (s : Session) : List Step → List (Effects × List Sending)
  | [] => []
  | step :: rest =>
    let (s', effects) := s.step step
    (effects, s'.ledger.sent.drop s.ledger.sent.length) :: run s' rest

end Session

end GraphQLClient
