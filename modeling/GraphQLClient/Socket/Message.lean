import GraphQLClient.Client.Response
import GraphQLClient.Json.Printer

/-!
# Messages of the subscription protocol

What client and server say to each other over a WebSocket. Each socket carries one operation, whose
id is `1`.
-/
namespace GraphQLClient.Socket

def protocolName : String := "graphql-transport-ws"

def operationId : String := "1"

inductive ClientMessage where
  | connectionInit (payload : Option Json)
  | subscribe (id : String) (body : RequestBody)
  | complete (id : String)
  | pong

inductive ServerMessage where
  | connectionAck (payload : Option Json)
  | next (id : String) (response : Response)
  | error (id : String) (errors : List ResponseError)
  | complete (id : String)
  | ping (payload : Option Json)
  | pong (payload : Option Json)

namespace ClientMessage

def toJson : ClientMessage → Json
  | connectionInit none => .object [("type", .string "connection_init")]
  | connectionInit (some payload) =>
    .object [("type", .string "connection_init"), ("payload", payload)]
  | subscribe id body =>
    .object [("type", .string "subscribe"), ("id", .string id), ("payload", body.toJson)]
  | complete id => .object [("type", .string "complete"), ("id", .string id)]
  | pong => .object [("type", .string "pong")]

def text (message : ClientMessage) : String := message.toJson.text

end ClientMessage

namespace ServerMessage

/-- A message from its kind and its parts. Only some kinds look at both parts. -/
def ofParts? (type : String) (id payload : Option Json) : Option ServerMessage :=
  match type with
  | "connection_ack" => some (.connectionAck ((nullable payload).map Json.uniqueKeys))
  | "ping" => some (.ping ((nullable payload).map Json.uniqueKeys))
  | "pong" => some (.pong ((nullable payload).map Json.uniqueKeys))
  | "complete" => do return .complete (← (← id).string?)
  | "next" => do return .next (← (← id).string?) (← Response.ofJson? (← payload))
  | "error" => do
    return .error (← (← id).string?) (← ResponseError.listOfJson? (← (← payload).array?))
  | _ => none

def partNames? : String → Option (List String)
  | "connection_ack" | "ping" | "pong" => some ["payload"]
  | "complete" => some ["id"]
  | "next" | "error" => some ["id", "payload"]
  | _ => none

def part? (names : List String) (name : String) (fields : List (String × Json)) :
    Option (Option Json) :=
  if names.contains name then onlyEntry? name fields else some none

/-- Reads a message with its kind under `type`, or as an array that begins with its kind. -/
def ofJson? : Json → Option ServerMessage
  | .object fields => do
    let type ← (← ← onlyEntry? "type" fields).string?
    let names ← partNames? type
    ofParts? type (← part? names "id" fields) (← part? names "payload" fields)
  | .array (.string type :: parts) => do
    let names ← partNames? type
    if names.length < parts.length then none
    else
      let given := names.zip parts
      ofParts? type (Entries.get? "id" given) (Entries.get? "payload" given)
  | _ => none

def ofText? (text : String) : Option ServerMessage :=
  match Json.parseVerbatim .whole text.toList with
  | .ok value => ofJson? value
  | .error _ => none

end ServerMessage

end GraphQLClient.Socket
