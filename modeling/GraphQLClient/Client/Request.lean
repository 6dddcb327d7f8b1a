import GraphQLClient.Client.Error
import GraphQLClient.Client.Response
import GraphQLClient.Document.Printer
import GraphQLClient.Schema.Basic
import GraphQLClient.Selection.Basic

/-!
# Requests

From an operation, a selection and an input to the body of a request.
-/
namespace GraphQLClient

/-!
## Codecs on values

A value is walked along its type: lists item by item, objects field by field. Where the type is a
custom scalar with a codec, the codec converts the value. Null and keys that the schema does not
know stay as they are.
-/

inductive Direction where
  | serialize
  | parse
  deriving DecidableEq, Repr

namespace Direction

def verb : Direction → String
  | .serialize => "serialize"
  | .parse => "parse"

def apply : Direction → Codec → Json → Except String Json
  | .serialize => Codec.serializeValue
  | .parse => Codec.parseValue

end Direction

namespace TypeTable

def resolveAlone (types : TypeTable) (expr : String) : ClientResult Resolved :=
  (types.resolve expr expr).mapError ClientError.ofSchemaError

def convert (types : TypeTable) (direction : Direction) (resolved : Resolved) (value : Json) :
    ClientResult Json :=
  match types.codec? resolved with
  | none => .ok value
  | some codec =>
    (direction.apply codec value).mapError fun reason =>
      .new .scalarError s!"Cannot {direction.verb} '{resolved.declared.core}': {reason}"

mutual

def walk (types : TypeTable) (direction : Direction) (expr : String) : Json → ClientResult Json
  | .null => .ok .null
  | .array items => do
    let resolved ← types.resolveAlone expr
    match resolved.element with
    | some element => return .array (← walkItems types direction element items)
    | none => types.convert direction resolved (.array items)
  | .object fields => do
    let resolved ← types.resolveAlone expr
    match resolved.target with
    | .object name =>
      match types.object? name with
      | some object => return .object (← walkFields types direction object fields)
      | none => return .object fields
    | _ => types.convert direction resolved (.object fields)
  | .bool b => do types.convert direction (← types.resolveAlone expr) (.bool b)
  | .number n => do types.convert direction (← types.resolveAlone expr) (.number n)
  | .string s => do types.convert direction (← types.resolveAlone expr) (.string s)

def walkItems (types : TypeTable) (direction : Direction) (expr : String) :
    List Json → ClientResult (List Json)
  | [] => .ok []
  | item :: rest => do
    let item ← walk types direction expr item
    return item :: (← walkItems types direction expr rest)

def walkFields (types : TypeTable) (direction : Direction) (object : ObjectDefinition) :
    List (String × Json) → ClientResult (List (String × Json))
  | [] => .ok []
  | (key, value) :: rest => do
    let value ← match ObjectDefinition.field? object key with
      | some field => walk types direction field.output value
      | none => .ok value
    return (key, value) :: (← walkFields types direction object rest)

end

def parseOutput (types : TypeTable) (expr : String) (value : Json) : ClientResult Json :=
  types.walk .parse expr value

def serializeVariables (types : TypeTable) (operation : Operation) :
    List (String × Json) → ClientResult (List (String × Json))
  | [] => .ok []
  | (name, value) :: rest => do
    let value ← match operation.inputType? name with
      | some expr => types.walk .serialize expr value
      | none => .ok value
    return (name, value) :: (← serializeVariables types operation rest)

end TypeTable

/-!
## Bodies

Input is an object of declared
fields in which no required field is missing.
-/

abbrev Input := List (String × Json)

namespace Operation

def invalidInput (o : Operation) (what : String) : ClientError :=
  .new .invalidInput s!"Operation '{o.qualifiedName}' {what}"

def expectObject (o : Operation) : Json → ClientResult Input
  | .object entries => .ok entries
  | other => .error (.new .invalidInput
      s!"Input for '{o.qualifiedName}' must be a JSON object, found {other.text}")

/-- Unknown fields are found before missing ones. -/
def checkEntries (o : Operation) (entries : Input) : ClientResult Input :=
  let names := Entries.keys entries
  if !o.hasInput && !entries.isEmpty then .error (o.invalidInput "takes no input")
  else
    match names.find? fun name => (o.inputType? name).isNone with
    | some name => .error (o.invalidInput s!"has no input field '{name}'")
    | none =>
      match o.required.find? fun field => !names.contains field with
      | some field => .error (.new .missingInput
          s!"Operation '{o.qualifiedName}' is missing required input '{field}'")
      | none => .ok entries

def checkInput (o : Operation) (input : Json) : ClientResult Input := do
  o.checkEntries (← o.expectObject input)

def buildRequest (types : TypeTable) (o : Operation) (nodes : List Node) (input : Input) :
    ClientResult RequestBody := do
  let bindings ← types.serializeVariables o input
  return ⟨Document.print o.kind o.name o.variableTypes nodes, .object bindings⟩

def inputHint (o : Operation) : String :=
  match o.shortcuts.keys with
  | shortcut :: _ => "`.by(...)` or `.abbreviated(\"" ++ shortcut ++ "\", ...)`"
  | [] => "`.by(...)`"

def defaultRequest (types : TypeTable) (o : Operation) (nodes : List Node)
    (preset : Option Input) : ClientResult RequestBody :=
  match preset with
  | some input => o.buildRequest types nodes input
  | none =>
    if o.required.isEmpty then o.buildRequest types nodes []
    else .error (.new .missingInput
      s!"Operation '{o.qualifiedName}' has required input; supply it with {o.inputHint} before awaiting")

def inputRequest (types : TypeTable) (o : Operation) (nodes : List Node) (preset : Option Input)
    (input : Json) : ClientResult RequestBody := do
  if !o.hasInput then throw (o.invalidInput "takes no input; await it directly")
  let given ← o.expectObject input
  let entries ← o.checkEntries (Entries.merge (preset.getD []) given)
  o.buildRequest types nodes entries

def singleInput (o : Operation) (field : String) (value : Json) : ClientResult Json :=
  if o.hasShortcutTo field then .ok (.object [(field, value)])
  else .error (o.invalidInput s!"has no abbreviated form for '{field}'; use `.by(...)`")

def fieldOfShortcut (o : Operation) (shortcut : String) : ClientResult String :=
  match o.shortcut? shortcut with
  | some field => .ok field
  | none => .error (o.invalidInput s!"has no shortcut '{shortcut}'")

end Operation

namespace Schema

def defaultSelection (schema : Schema) (o : Operation) : ClientResult (List Node) :=
  if o.terminal then .ok []
  else (schema.types.allFields o.returnType).mapError ClientError.ofSchemaError

end Schema

end GraphQLClient
