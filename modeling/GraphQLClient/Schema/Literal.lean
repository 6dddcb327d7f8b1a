import GraphQLClient.Json.Reader
import GraphQLClient.Schema.Basic

/-!
# Schema literals

The form in which schemas are written by hand, as JSON:

- a string declares a custom scalar with that alias;
- an object with the key `__graphQLType` declares an enum;
- any other object declares an object type, whose fields are type expressions or pairs of an input
  and a type expression;
- `Query`, `Mutation` and `Subscription` hold operations, `["=>", T]` or `[I, "=>", T]`.
-/
namespace GraphQLClient

namespace SchemaLiteral

def enumKey : String := "__graphQLType"

def arrow : String := "=>"

def readStrings? : List Json → Option (List String)
  | [] => some []
  | .string s :: rest => (readStrings? rest).map (s :: ·)
  | _ :: _ => none

def readEnum (name : String) (fields : List (String × Json)) :
    Except SchemaError TypeDefinition :=
  match Entries.get? enumKey fields with
  | some (.string "enum") =>
    match Entries.get? "values" fields with
    | some (.array values) =>
      match readStrings? values with
      | some values => .ok (.enumeration values)
      | none => .error (.invalidDefinition name .enumValueShape)
    | _ => .error (.invalidDefinition name .enumWithoutValues)
  | _ => .error (.invalidDefinition name .enumMarker)

def readInputEntries (location : String) :
    List (String × Json) → Except SchemaError (List (String × String))
  | [] => .ok []
  | (field, .string expr) :: rest => do
    return (field, expr) :: (← readInputEntries location rest)
  | (field, other) :: _ =>
    .error (.invalidDefinition location (.inputFieldShape field other.describe))

def readInput (location : String) : Json → Except SchemaError InputDefinition
  | .object fields => do return .ofList (← readInputEntries location fields)
  | other => .error (.invalidDefinition location (.inputShape other.describe))

def readField (location : String) : Json → Except SchemaError FieldDefinition
  | .string expr => .ok ⟨none, expr⟩
  | .array [input, .string output] => do return ⟨some (← readInput location input), output⟩
  | .array _ => .error (.invalidDefinition location .fieldPair)
  | other => .error (.invalidDefinition location (.fieldShape other.describe))

/-- Stops at the first field that cannot be read. -/
def readFields (typeName : String) :
    List (String × Json) → Except SchemaError (List (String × FieldDefinition))
  | [] => .ok []
  | (field, value) :: rest => do
    let definition ← readField (SchemaCheck.fieldLocation typeName field) value
    return (field, definition) :: (← readFields typeName rest)

def readType (name : String) : Json → Except SchemaError TypeDefinition
  | .string aliasExpr => .ok (.scalar aliasExpr none)
  | .object fields =>
    if (Entries.get? enumKey fields).isSome then readEnum name fields
    else do return .object (.ofList (← readFields name fields))
  | other => .error (.invalidDefinition name (.typeShape other.describe))

def readOperation (kind : OperationKind) (name : String) :
    Json → Except SchemaError OperationSignature
  | .array [.string middle, .string output] =>
    if middle = arrow then .ok ⟨none, output⟩ else .error (.invalidOperation kind name .malformed)
  | .array [.object input, .string middle, .string output] =>
    if middle = arrow then do
      return ⟨some (← readInput (Operation.location kind name) (.object input)), output⟩
    else .error (.invalidOperation kind name .malformed)
  | _ => .error (.invalidOperation kind name .malformed)

def readSection (kind : OperationKind) : Json → List (Except SchemaError Declaration)
  | .object operations => operations.map fun (name, value) =>
    (readOperation kind name value).map (.operation kind name)
  | other => [.error (.invalidDefinition kind.sectionName (.sectionShape other.describe))]

def readEntry (name : String) (value : Json) : List (Except SchemaError Declaration) :=
  match OperationKind.ofSectionName? name with
  | some kind => readSection kind value
  | none => [(readType name value).map (.type name)]

/-- The declarations of a literal in order, with the problems of its malformed entries. -/
def read : Json → List (Except SchemaError Declaration)
  | .object entries => entries.flatMap fun (name, value) => readEntry name value
  | other => [.error (.invalidDefinition "<schema>" (.notAnObject other.describe))]

end SchemaLiteral

namespace SchemaDraft

def ofJson (literal : Json) : SchemaDraft := empty.addAll (SchemaLiteral.read literal)

end SchemaDraft

namespace Schema

def ofJson (literal : Json) : Except (List SchemaError) Schema :=
  (SchemaDraft.ofJson literal).build

def ofText (text : String) : Except (List SchemaError) Schema :=
  match Json.parse text with
  | .ok literal => ofJson literal
  | .error reason => .error [.invalidDefinition "<schema>" (.notJson reason)]

end Schema

/-!
## Writing schema literals

The literal of a list of declarations has the types in their order and behind them one section for
each kind of operation that is declared. A literal has no codecs.
-/

namespace Declaration

def type? : Declaration → Option (String × TypeDefinition)
  | .type name definition => some (name, definition)
  | _ => none

def operation? (kind : OperationKind) : Declaration → Option (String × OperationSignature)
  | .operation declared name signature => if declared = kind then some (name, signature) else none
  | _ => none

end Declaration

namespace SchemaLiteral

def writeInput (input : InputDefinition) : Json :=
  .object (input.entries.map fun (name, expr) => (name, .string expr))

def writeField (field : FieldDefinition) : Json :=
  match field.input with
  | none => .string field.output
  | some input => .array [writeInput input, .string field.output]

def writeType : TypeDefinition → Json
  | .object fields => .object (fields.entries.map fun (name, field) => (name, writeField field))
  | .scalar aliasExpr _ => .string aliasExpr
  | .enumeration values =>
    .object [(enumKey, .string "enum"), ("values", .array (values.map .string))]

def writeOperation (signature : OperationSignature) : Json :=
  match signature.input with
  | none => .array [.string arrow, .string signature.output]
  | some input => .array [writeInput input, .string arrow, .string signature.output]

def writeSection (kind : OperationKind) (operations : List (String × OperationSignature)) :
    List (String × Json) :=
  if operations.isEmpty then []
  else [(kind.sectionName, .object (operations.map fun (name, signature) =>
    (name, writeOperation signature)))]

def write (declarations : List Declaration) : Json :=
  .object (((declarations.filterMap Declaration.type?).map fun (name, definition) =>
      (name, writeType definition)) ++
    OperationKind.all.flatMap fun kind =>
      writeSection kind (declarations.filterMap (Declaration.operation? kind)))

end SchemaLiteral

end GraphQLClient
