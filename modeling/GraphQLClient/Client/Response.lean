import GraphQLClient.Client.Error
import GraphQLClient.Json.Reader

/-!
# Requests and responses

The body of a request, and the response of a server: data, errors, or both. A response may also come
as an array of its parts in order. Unknown keys are ignored whatever they hold, known keys occur
once.
-/
namespace GraphQLClient

/-- `bindings` gives the variables of the document their values. -/
structure RequestBody where
  query : String
  bindings : Json

def RequestBody.toJson (body : RequestBody) : Json :=
  .object [("query", .string body.query), ("variables", body.bindings)]

structure ResponseError where
  message : String
  path : Option (List Json)
  extensions : Option (List (String × Json))

structure Response where
  data : Option Json
  errors : List ResponseError

/-- The value of a key that occurs at most once. -/
def onlyEntry? (key : String) (fields : List (String × Json)) : Option (Option Json) :=
  match fields.filter (·.1 == key) with
  | [] => some none
  | [entry] => some (some entry.2)
  | _ => none

def nullable : Option Json → Option Json
  | some .null => none
  | part => part

namespace ResponseError

def shape : Json.Shape := .record [("message", .whole), ("path", .whole), ("extensions", .whole)]

def toJson (error : ResponseError) : Json :=
  .object ([("message", .string error.message)] ++
    (match error.path with
    | some path => [("path", .array path)]
    | none => []) ++
    match error.extensions with
    | some extensions => [("extensions", .object extensions)]
    | none => [])

def ofParts? (message : Json) (path extensions : Option Json) : Option ResponseError := do
  let message ← message.string?
  let path ← match nullable path with
    | none => some none
    | some value => (Json.uniqueKeys value).array?.map some
  let extensions ← match nullable extensions with
    | none => some none
    | some value => (Json.uniqueKeys value).object?.map some
  return ⟨message, path, extensions⟩

def ofJson? : Json → Option ResponseError
  | .object fields => do
    ofParts? (← ← onlyEntry? "message" fields) (← onlyEntry? "path" fields)
      (← onlyEntry? "extensions" fields)
  | .array [message] => ofParts? message none none
  | .array [message, path] => ofParts? message (some path) none
  | .array [message, path, extensions] => ofParts? message (some path) (some extensions)
  | _ => none

def listOfJson? : List Json → Option (List ResponseError)
  | [] => some []
  | error :: rest => do return (← ofJson? error) :: (← listOfJson? rest)

end ResponseError

namespace Response

def shape : Json.Shape := .record [("data", .whole), ("errors", .list ResponseError.shape)]

def ofParts? (data errors : Option Json) : Option Response := do
  let errors ← match errors with
    | none => some []
    | some value => ResponseError.listOfJson? (← value.array?)
  return ⟨(nullable data).map Json.uniqueKeys, errors⟩

/-- Reads a value whose repeated keys are still apart. -/
def ofJson? : Json → Option Response
  | .object fields => do ofParts? (← onlyEntry? "data" fields) (← onlyEntry? "errors" fields)
  | .array [] => ofParts? none none
  | .array [data] => ofParts? (some data) none
  | .array [data, errors] => ofParts? (some data) (some errors)
  | _ => none

def ofText? (text : String) : Option Response :=
  match Json.parseVerbatim shape text.toList with
  | .ok value => ofJson? value
  | .error _ => none

def errorsJson (errors : List ResponseError) : Json := .array (errors.map ResponseError.toJson)

/-- Data is always there, errors only when there are any. -/
def toJson (response : Response) : Json :=
  .object ([("data", response.data.getD .null)] ++
    if response.errors.isEmpty then [] else [("errors", errorsJson response.errors)])

end Response

def ClientError.ofResponseErrors (errors : List ResponseError) : ClientError :=
  (ClientError.new .executionError
    ("; ".intercalate (errors.map ResponseError.message))).withExtension
    "errors" (Response.errorsJson errors)

end GraphQLClient
