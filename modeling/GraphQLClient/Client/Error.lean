import GraphQLClient.Json.Value
import GraphQLClient.Schema.Error

/-!
# Client errors

Every failure of the client carries a code, so callers can tell kinds of failure apart without
looking at messages.
-/
namespace GraphQLClient

inductive ErrorCode where
  | networkError
  | timeout
  | connectionRefused
  | httpError
  | httpsNotSupported
  | invalidUrl
  | invalidResponse
  | executionError
  | noData
  | schemaError
  | unknownOperation
  | missingInput
  | invalidInput
  | invalidSelection
  | noWebSocketClient
  | webSocketAlreadyConfigured
  | webSocketError
  | serializeError
  | deserializeError
  | scalarError
  | internalError
  deriving DecidableEq, Repr

namespace ErrorCode

def all : List ErrorCode :=
  [networkError, timeout, connectionRefused, httpError, httpsNotSupported, invalidUrl,
    invalidResponse, executionError, noData, schemaError, unknownOperation, missingInput,
    invalidInput, invalidSelection, noWebSocketClient, webSocketAlreadyConfigured, webSocketError,
    serializeError, deserializeError, scalarError, internalError]

def text : ErrorCode → String
  | networkError => "NETWORK_ERROR"
  | timeout => "TIMEOUT"
  | connectionRefused => "CONNECTION_REFUSED"
  | httpError => "HTTP_ERROR"
  | httpsNotSupported => "HTTPS_NOT_SUPPORTED"
  | invalidUrl => "INVALID_URL"
  | invalidResponse => "INVALID_RESPONSE"
  | executionError => "EXECUTION_ERROR"
  | noData => "NO_DATA"
  | schemaError => "SCHEMA_ERROR"
  | unknownOperation => "UNKNOWN_OPERATION"
  | missingInput => "MISSING_INPUT"
  | invalidInput => "INVALID_INPUT"
  | invalidSelection => "INVALID_SELECTION"
  | noWebSocketClient => "NO_WEBSOCKET_CLIENT"
  | webSocketAlreadyConfigured => "WEBSOCKET_ALREADY_CONFIGURED"
  | webSocketError => "WEBSOCKET_ERROR"
  | serializeError => "SERIALIZE_ERROR"
  | deserializeError => "DESERIALIZE_ERROR"
  | scalarError => "SCALAR_ERROR"
  | internalError => "INTERNAL_ERROR"

/-- The name in serialized errors, which writes `WEB_SOCKET` as two words. -/
def serialName : ErrorCode → String
  | noWebSocketClient => "NO_WEB_SOCKET_CLIENT"
  | webSocketAlreadyConfigured => "WEB_SOCKET_ALREADY_CONFIGURED"
  | webSocketError => "WEB_SOCKET_ERROR"
  | code => code.text

def ofSerialName? (s : String) : Option ErrorCode := all.find? (·.serialName == s)

/-- Failures of the network may pass, all others stay. -/
def isRetryable : ErrorCode → Bool
  | networkError | timeout | connectionRefused => true
  | _ => false

def isConfigurationError : ErrorCode → Bool
  | schemaError | unknownOperation | missingInput | invalidInput | invalidSelection
  | noWebSocketClient | webSocketAlreadyConfigured | invalidUrl => true
  | _ => false

end ErrorCode

inductive ClientError where
  | mk (code : ErrorCode) (message : String) (extensions : Option (List (String × Json)))
    (source : Option ClientError)

namespace ClientError

def new (code : ErrorCode) (message : String) : ClientError := mk code message none none

instance : Inhabited ClientError := ⟨new .internalError ""⟩

def code : ClientError → ErrorCode
  | mk code _ _ _ => code

def message : ClientError → String
  | mk _ message _ _ => message

def extensions : ClientError → Option (List (String × Json))
  | mk _ _ extensions _ => extensions

def source? : ClientError → Option ClientError
  | mk _ _ _ source => source

def withExtension (key : String) (value : Json) : ClientError → ClientError
  | mk code message extensions source =>
    mk code message (some (Entries.insert key value (extensions.getD []))) source

def withSource (error source : ClientError) : ClientError :=
  mk error.code error.message error.extensions (some source)

def extension? (key : String) (error : ClientError) : Option Json :=
  error.extensions.bind (Entries.get? key)

def text (error : ClientError) : String := s!"[{error.code.text}] {error.message}"

def isRetryable (error : ClientError) : Bool := error.code.isRetryable

def isConfigurationError (error : ClientError) : Bool := error.code.isConfigurationError

def toJson (error : ClientError) : Json :=
  .object ([("code", .string error.code.serialName), ("message", .string error.message)] ++
    match error.extensions with
    | some extensions => [("extensions", .object extensions)]
    | none => [])

/-- A failure that another part of a program reports by a text. With a message of its own the error
keeps that text as data. -/
def ofForeign (code : ErrorCode) (cause : String) : Option String → ClientError
  | none => new code cause
  | some message => (new code message).withExtension "original_error" (.string cause)

def codeOfSchemaError : SchemaError → ErrorCode
  | .unknownOperation _ _ => .unknownOperation
  | .autoSelectRequiresArguments _ _ => .invalidSelection
  | .autoSelectCycle _ _ _ => .invalidSelection
  | .unknownField _ _ => .invalidSelection
  | .missingSelection _ _ => .invalidSelection
  | .unexpectedSelection _ _ => .invalidSelection
  | .missingArgument _ _ _ => .invalidSelection
  | .invalidArguments _ _ _ => .invalidSelection
  | .notAnObject _ => .invalidSelection
  | _ => .schemaError

def ofSchemaError (error : SchemaError) : ClientError :=
  new (codeOfSchemaError error) error.message

def ofSchemaErrors (errors : List SchemaError) : ClientError :=
  (new .schemaError (SchemaError.joinedMessage errors)).withExtension "errors"
    (.array (errors.map fun error => .string error.message))

end ClientError

abbrev ClientResult := Except ClientError

end GraphQLClient
