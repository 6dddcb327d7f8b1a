import GraphQLClient.Schema.Resolution
import GraphQLClient.Text.Basic

/-!
# Schemas

From declarations to the operations that a client may call.
-/
namespace GraphQLClient

/-!
## Operations

A checked operation with all that requests need to know: the types of its variables as a document
declares them, which input fields are required, and the shortcuts `by<Field>`.
-/

/-- `variableTypes` has the types of the document header, `shortcuts` leads from shortcut names to
input fields, `terminal` tells that the result takes no selection. -/
structure Operation where
  kind : OperationKind
  name : String
  variableTypes : OrderedMap String
  returnType : String
  required : List String
  optional : List String
  terminal : Bool
  shortcuts : OrderedMap String
  input : InputDefinition

namespace Operation

def location (kind : OperationKind) (name : String) : String := s!"{kind.sectionName}.{name}"

/-- The type of a variable in the document header. An optional variable may be left out, so it is
nullable there. -/
def variableType (location : String) (field : InputField) : Except SchemaError String := do
  let type ← TypeRef.parse field.expr s!"{location}({field.name})"
  return (if field.isOptional then type.toNullable else type).print

def variablePairs (location : String) :
    List InputField → Except SchemaError (List (String × String))
  | [] => .ok []
  | field :: rest => do
    let type ← variableType location field
    return (field.name, type) :: (← variablePairs location rest)

/-- Without required fields every field has a shortcut, with one only that one, else none. -/
def shortcutPairs (input : InputDefinition) : List (String × String) :=
  match InputDefinition.requiredNames input with
  | [] => (InputDefinition.fields input).map fun field =>
    (Text.shortcutName field.name, field.name)
  | [only] => [(Text.shortcutName only, only)]
  | _ => []

def compile (types : TypeTable) (kind : OperationKind) (name : String)
    (signature : OperationSignature) : Except SchemaError Operation := do
  let location := location kind name
  let input := signature.input.getD .empty
  let pairs ← variablePairs location (InputDefinition.fields input)
  let result ← types.resolve signature.output location
  return {
    kind := kind
    name := name
    variableTypes := .ofList pairs
    returnType := signature.output
    required := InputDefinition.requiredNames input
    optional := InputDefinition.optionalNames input
    terminal := result.isTerminal
    shortcuts := .ofList (shortcutPairs input)
    input := input }

def qualifiedName (operation : Operation) : String := location operation.kind operation.name

def hasInput (operation : Operation) : Bool := !operation.input.isEmpty

def shortcut? (operation : Operation) (shortcut : String) : Option String :=
  operation.shortcuts.get? shortcut

def hasShortcutTo (operation : Operation) (field : String) : Bool :=
  operation.shortcuts.values.contains field

def inputType? (operation : Operation) (field : String) : Option String :=
  (InputDefinition.field? operation.input field).map InputField.expr

end Operation

/-!
## Checking declarations

Every problem of every declaration, in the order of the declarations: types first, then operations.
-/

namespace SchemaCheck

def typeNameErrors (name : String) : List SchemaError :=
  if (BuiltinScalar.ofName? name).isSome || name == voidName then [.duplicateType name]
  else if (OperationKind.ofSectionName? name).isSome then [.reservedTypeName name]
  else if !Text.isName name then [.invalidDefinition name .typeName]
  else []

def fieldNameErrors (location name : String) : List SchemaError :=
  if Text.isName name then [] else [.invalidDefinition location (.fieldName name)]

/-- `void` stands only where an operation returns. -/
def exprErrors (types : TypeTable) (expr location : String) (voidAllowed : Bool) :
    List SchemaError :=
  match types.resolve expr location with
  | .ok resolved =>
    if resolved.target = .void ∧ voidAllowed = false then
      [.invalidDefinition location .misplacedVoid]
    else []
  | .error error => [error]

def argumentLocation (location name : String) : String := s!"{location}({name})"

def inputErrors (types : TypeTable) (location : String) (input : InputDefinition) :
    List SchemaError :=
  (InputDefinition.fields input).flatMap fun field =>
    let location := argumentLocation location field.name
    fieldNameErrors location field.name ++ exprErrors types field.expr location false

def fieldLocation (typeName field : String) : String := s!"{typeName}.{field}"

def fieldErrors (types : TypeTable) (typeName declared : String) (field : FieldDefinition) :
    List SchemaError :=
  let name := Text.baseName declared
  let location := fieldLocation typeName name
  fieldNameErrors location name ++
    (match field.input with
    | some input => inputErrors types location input
    | none => []) ++
    exprErrors types field.output location false

/-- `earlier` are the values in front, in any order. -/
def enumValueErrors (name : String) : List String → List String → List SchemaError
  | _, [] => []
  | earlier, value :: rest =>
    (if !Text.isName value then [.invalidDefinition name (.enumValueName value)]
    else if value ∈ earlier then [.invalidDefinition name (.repeatedEnumValue value)]
    else []) ++ enumValueErrors name (value :: earlier) rest

def enumErrors (name : String) (values : List String) : List SchemaError :=
  (if values.isEmpty then [.invalidDefinition name .emptyEnum] else []) ++
    enumValueErrors name [] values

/-- A scalar is checked by resolving its own name, which follows its aliases. -/
def definitionErrors (types : TypeTable) (name : String) :
    TypeDefinition → List SchemaError
  | .object fields => fields.entries.flatMap fun (declared, field) =>
    fieldErrors types name declared field
  | .scalar _ _ => exprErrors types name (Trail.scalarLocation name) false
  | .enumeration values => enumErrors name values

def typeErrors (types : TypeTable) (name : String) (definition : TypeDefinition) :
    List SchemaError :=
  typeNameErrors name ++ definitionErrors types name definition

def operationErrors (types : TypeTable) (kind : OperationKind) (name : String)
    (signature : OperationSignature) : List SchemaError :=
  let location := fieldLocation kind.sectionName name
  fieldNameErrors location (Text.baseName name) ++
    (match signature.input with
    | some input => inputErrors types location input
    | none => []) ++
    exprErrors types signature.output location true

def errors (types : TypeTable) (sections : OperationSections) : List SchemaError :=
  (types.entries.flatMap fun (name, definition) => typeErrors types name definition) ++
    sections.toList.flatMap fun (kind, name, signature) =>
      operationErrors types kind name signature

end SchemaCheck

/-!
## Drafts

A schema is drafted declaration by declaration and then built as a whole: every problem found while
drafting and every problem of the checker is reported, and only a draft without problems becomes a
schema.
-/

inductive Declaration where
  | type (name : String) (definition : TypeDefinition)
  | operation (kind : OperationKind) (name : String) (signature : OperationSignature)
  | codec (scalar : String) (codec : Codec)

structure SchemaDraft where
  types : TypeTable
  sections : OperationSections
  errors : List SchemaError

structure Schema where
  types : TypeTable
  sections : OperationSections
  operations : List Operation

namespace SchemaDraft

def empty : SchemaDraft := ⟨.empty, .empty, []⟩

def refuse (draft : SchemaDraft) (error : SchemaError) : SchemaDraft :=
  { draft with errors := draft.errors ++ [error] }

/-- A name is declared once; a codec goes to a scalar declared before. -/
def declare (draft : SchemaDraft) : Declaration → SchemaDraft
  | .type name definition =>
    if draft.types.contains name then draft.refuse (.duplicateType name)
    else { draft with types := draft.types.insert name definition }
  | .operation kind name signature =>
    if (draft.sections.operations kind).contains name then
      draft.refuse (.invalidOperation kind name .declaredTwice)
    else { draft with sections := draft.sections.insert kind name signature }
  | .codec scalar codec =>
    match draft.types.get? scalar with
    | some (.scalar aliasExpr _) =>
      { draft with types := draft.types.insert scalar (.scalar aliasExpr (some codec)) }
    | some other => draft.refuse (.invalidDefinition scalar (.codecOnOther other.describe))
    | none => draft.refuse (.invalidDefinition scalar .codecWithoutScalar)

/-- An entry that could not be read counts as a problem in its place. -/
def add (draft : SchemaDraft) : Except SchemaError Declaration → SchemaDraft
  | .ok declaration => draft.declare declaration
  | .error error => draft.refuse error

def addAll (draft : SchemaDraft) (entries : List (Except SchemaError Declaration)) : SchemaDraft :=
  entries.foldl add draft

def compileAll (types : TypeTable) :
    List (OperationKind × String × OperationSignature) → Except SchemaError (List Operation)
  | [] => .ok []
  | (kind, name, signature) :: rest => do
    let operation ← Operation.compile types kind name signature
    return operation :: (← compileAll types rest)

def build (draft : SchemaDraft) : Except (List SchemaError) Schema :=
  match draft.errors ++ SchemaCheck.errors draft.types draft.sections with
  | [] =>
    match compileAll draft.types draft.sections.toList with
    | .ok operations => .ok ⟨draft.types, draft.sections, operations⟩
    | .error error => .error [error]
  | errors => .error errors

end SchemaDraft

namespace Schema

def operation? (schema : Schema) (kind : OperationKind) (name : String) : Option Operation :=
  schema.operations.find? fun operation => operation.kind == kind && operation.name == name

def operation (schema : Schema) (kind : OperationKind) (name : String) :
    Except SchemaError Operation :=
  match schema.operation? kind name with
  | some operation => .ok operation
  | none => .error (.unknownOperation kind name)

end Schema

/-!
## Comparing schemas

Two schemas agree part by part. The order of types, fields, arguments, variables and operations in a
section does not count; the order of enum values, of required fields and of the compiled operations
does. A codec equals nothing, so definitions agree only where both have none.
-/

def sameInput (a b : InputDefinition) : Bool := a.sameEntries (· == ·) b

def sameInput? : Option InputDefinition → Option InputDefinition → Bool
  | none, none => true
  | some a, some b => sameInput a b
  | _, _ => false

def FieldDefinition.same (a b : FieldDefinition) : Bool :=
  sameInput? a.input b.input && a.output == b.output

def TypeDefinition.same : TypeDefinition → TypeDefinition → Bool
  | .object a, .object b => a.sameEntries FieldDefinition.same b
  | .scalar a codecA, .scalar b codecB => a == b && codecA.isNone && codecB.isNone
  | .enumeration a, .enumeration b => a == b
  | _, _ => false

def OperationSignature.same (a b : OperationSignature) : Bool :=
  sameInput? a.input b.input && a.output == b.output

def OperationSections.same (a b : OperationSections) : Bool :=
  OperationKind.all.all fun kind =>
    (a.operations kind).sameEntries OperationSignature.same (b.operations kind)

def Operation.same (a b : Operation) : Bool :=
  a.kind == b.kind && a.name == b.name && a.variableTypes.sameEntries (· == ·) b.variableTypes &&
    a.returnType == b.returnType && a.required == b.required && a.optional == b.optional &&
    a.terminal == b.terminal && a.shortcuts.sameEntries (· == ·) b.shortcuts &&
    sameInput a.input b.input

namespace Schema

def sameTypes (a b : Schema) : Bool := a.types.sameEntries TypeDefinition.same b.types

def sameSections (a b : Schema) : Bool := a.sections.same b.sections

def sameOperations (a b : Schema) : Bool :=
  a.operations.length == b.operations.length &&
    (a.operations.zip b.operations).all fun (x, y) => x.same y

end Schema

end GraphQLClient
