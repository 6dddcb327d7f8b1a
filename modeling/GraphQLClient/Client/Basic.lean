import GraphQLClient.Client.Request
import GraphQLClient.Selection.Basic

/-!
# Calls, selections and requests

A call names an operation, a selection narrows it, and a request is ready to be sent. Requests are
entries of a ledger, so all holders of a request share what became of it: it is sent when it is
first awaited, at most once, and never when a refinement has superseded it before.
-/
namespace GraphQLClient

structure Client where
  schema : Schema
  hasWebSocket : Bool

structure Dispatch where
  operation : Operation
  body : RequestBody
  superseded : Bool
  outcome : Option (ClientResult Json)

inductive Sending where
  | entry (id : Nat) (body : RequestBody)
  | own (body : RequestBody)

def Sending.body : Sending → RequestBody
  | .entry _ body => body
  | .own body => body

/-- A request is named by its place. `sent` lists what reached the transport, in order. -/
structure Ledger where
  dispatches : List Dispatch
  sent : List Sending

/-- What the server answers to the request before which `n` others were sent. -/
abbrev Transport := Nat → RequestBody → ClientResult Response

namespace Ledger

def empty : Ledger := ⟨[], []⟩

def get? (ledger : Ledger) (id : Nat) : Option Dispatch := ledger.dispatches[id]?

def enter (ledger : Ledger) (operation : Operation) (body : RequestBody) : Nat × Ledger :=
  (ledger.dispatches.length,
    { ledger with dispatches := ledger.dispatches ++ [⟨operation, body, false, none⟩] })

def supersede (ledger : Ledger) (id : Nat) : Ledger :=
  { ledger with
    dispatches := ledger.dispatches.modify id fun d => { d with superseded := true } }

def supersedeResult (ledger : Ledger) : ClientResult Nat → Ledger
  | .ok id => ledger.supersede id
  | .error _ => ledger

def record (ledger : Ledger) (id : Nat) (outcome : ClientResult Json) : Ledger :=
  { ledger with
    dispatches := ledger.dispatches.modify id fun d => { d with outcome := some outcome } }

end Ledger

structure Call where
  operation : Operation
  preset : Option Input
  request : ClientResult Nat

structure Selection where
  operation : Operation
  preset : Option Input
  nodes : List Node
  request : ClientResult Nat

namespace Client

/-- Makes an entry for a body, or keeps the failure to build one. -/
def enterResult (ledger : Ledger) (operation : Operation) :
    ClientResult RequestBody → ClientResult Nat × Ledger
  | .ok body =>
    let (id, ledger) := ledger.enter operation body
    (.ok id, ledger)
  | .error error => (.error error, ledger)

/-- Picks an operation. Trouble with the request of the call itself is kept until it is used. -/
def call (client : Client) (ledger : Ledger) (kind : OperationKind) (name : String)
    (input : Option Json) : ClientResult (Call × Ledger) := do
  let operation ← (client.schema.operation kind name).mapError ClientError.ofSchemaError
  let preset ← match input with
    | some given => some <$> operation.checkInput given
    | none => .ok none
  let body := do
    operation.defaultRequest client.schema.types (← client.schema.defaultSelection operation) preset
  let (request, ledger) := enterResult ledger operation body
  return (⟨operation, preset, request⟩, ledger)

def select (client : Client) (ledger : Ledger) (c : Call) (nodes : List Node) :
    ClientResult (Selection × Ledger) := do
  let o := c.operation
  if o.terminal then
    throw (.new .invalidSelection
      s!"Operation '{o.qualifiedName}' returns '{o.returnType}', which has no fields to select")
  (client.schema.types.checkSelection o.kind.sectionName o.name o.returnType nodes).mapError
    ClientError.ofSchemaError
  let ledger := ledger.supersedeResult c.request
  let (request, ledger) :=
    enterResult ledger o (o.defaultRequest client.schema.types nodes c.preset)
  return (⟨o, c.preset, nodes, request⟩, ledger)

/-- A request with input in place of the one called `replaced`. -/
def refine (client : Client) (ledger : Ledger) (o : Operation) (preset : Option Input)
    (nodes : List Node) (replaced : ClientResult Nat) (input : Json) :
    ClientResult (Nat × Ledger) := do
  let body ← o.inputRequest client.schema.types nodes preset input
  let (id, ledger) := ledger.enter o body
  return (id, ledger.supersedeResult replaced)

def callBy (client : Client) (ledger : Ledger) (c : Call) (input : Json) :
    ClientResult (Nat × Ledger) := do
  let nodes ← client.schema.defaultSelection c.operation
  client.refine ledger c.operation c.preset nodes c.request input

def selectionBy (client : Client) (ledger : Ledger) (s : Selection) (input : Json) :
    ClientResult (Nat × Ledger) :=
  client.refine ledger s.operation s.preset s.nodes s.request input

def callByField (client : Client) (ledger : Ledger) (c : Call) (field : String) (value : Json) :
    ClientResult (Nat × Ledger) := do
  client.callBy ledger c (← c.operation.singleInput field value)

def selectionByField (client : Client) (ledger : Ledger) (s : Selection) (field : String)
    (value : Json) : ClientResult (Nat × Ledger) := do
  client.selectionBy ledger s (← s.operation.singleInput field value)

def callByShortcut (client : Client) (ledger : Ledger) (c : Call) (shortcut : String)
    (value : Json) : ClientResult (Nat × Ledger) := do
  client.callByField ledger c (← c.operation.fieldOfShortcut shortcut) value

def selectionByShortcut (client : Client) (ledger : Ledger) (s : Selection) (shortcut : String)
    (value : Json) : ClientResult (Nat × Ledger) := do
  client.selectionByField ledger s (← s.operation.fieldOfShortcut shortcut) value

/-- The field of the operation in the data of a response, with its scalars converted. Data without
that field count as null. -/
def unwrap (client : Client) (o : Operation) (data : Json) : ClientResult Json :=
  client.schema.types.parseOutput o.returnType ((data.get? o.name).getD .null)

def outcomeOf (client : Client) (o : Operation) (response : Response) : ClientResult Json :=
  if !response.errors.isEmpty then .error (.ofResponseErrors response.errors)
  else
    match response.data with
    | none => .error (.new .noData s!"No data for '{o.qualifiedName}'")
    | some data => client.unwrap o data

def send (transport : Transport) (ledger : Ledger) (sending : Sending) :
    ClientResult Response × Ledger :=
  (transport ledger.sent.length sending.body, { ledger with sent := ledger.sent ++ [sending] })

def execute (transport : Transport) (ledger : Ledger) (body : RequestBody) :
    ClientResult Response × Ledger :=
  send transport ledger (.own body)

/-- The outcome of a request. The first time a request is awaited decides it for all. -/
def await (client : Client) (transport : Transport) (ledger : Ledger) (id : Nat) :
    ClientResult Json × Ledger :=
  match ledger.get? id with
  | none => (.ok .null, ledger)
  | some dispatch =>
    match dispatch.outcome with
    | some outcome => (outcome, ledger)
    | none =>
      if dispatch.superseded then (.ok .null, ledger.record id (.ok .null))
      else
        let (answer, ledger) := send transport ledger (.entry id dispatch.body)
        let outcome := answer.bind (client.outcomeOf dispatch.operation)
        (outcome, ledger.record id outcome)

end Client

def addWebSocket (hasWebSocket : Bool) : ClientResult Bool :=
  if hasWebSocket then
    .error (.new .webSocketAlreadyConfigured "A WebSocket client is already configured")
  else .ok true

/-!
## Subscriptions

A subscription is started with the body of a request. What the server then sends is turned into
notices for the listener. Completion is noticed once.
-/

inductive SinkEvent where
  | next (response : Response)
  | error (error : ClientError)
  | complete

inductive Notice where
  | next (value : Json)
  | error (error : ClientError)
  | complete

structure Sink where
  operation : Operation
  quiet : Bool
  completed : Bool

namespace Sink

def hears (sink : Sink) : Notice → Bool
  | .next _ => true
  | _ => !sink.quiet

/-- Errors of a response come before its data. -/
def noticesOf (client : Client) (sink : Sink) : SinkEvent → List Notice
  | .next response =>
    (if response.errors.isEmpty then [] else [.error (.ofResponseErrors response.errors)]) ++
      match response.data with
      | none => []
      | some data =>
        match client.unwrap sink.operation data with
        | .ok value => [.next value]
        | .error error => [.error error]
  | .error error => [.error error]
  | .complete => if sink.completed then [] else [.complete]

def deliver (client : Client) (sink : Sink) (event : SinkEvent) : List Notice × Sink :=
  ((sink.noticesOf client event).filter sink.hears,
    match event with
    | .complete => { sink with completed := true }
    | _ => sink)

end Sink

def Client.subscription? (client : Client) (ledger : Ledger) (id : Nat) :
    ClientResult (Option Dispatch) :=
  if client.hasWebSocket then
    .ok ((ledger.get? id).filter (!·.superseded))
  else
    .error (.new .noWebSocketClient
      "Subscriptions need a WebSocket client; call `with_websocket` first")

end GraphQLClient
