import GraphQLClient.Schema.Definition
import GraphQLClient.TypeExpr.Parser

/-!
# Schema errors

Causes of failure while a schema is registered and while a selection is built against it, their
messages, and the diagnostics that go with them.
-/
namespace GraphQLClient

inductive DefinitionFault where
  | notJson (reason : String)
  | notAnObject (found : String)
  | sectionShape (found : String)
  | typeShape (found : String)
  | enumMarker
  | enumWithoutValues
  | enumValueShape
  | fieldPair
  | fieldShape (found : String)
  | inputShape (found : String)
  | inputFieldShape (field found : String)
  | typeName
  | fieldName (name : String)
  | misplacedVoid
  | emptyEnum
  | enumValueName (value : String)
  | repeatedEnumValue (value : String)
  | codecWithoutScalar
  | codecOnOther (found : String)
  deriving DecidableEq, Repr

def DefinitionFault.message : DefinitionFault → String
  | .notJson reason => if reason = "" then "not valid JSON" else "not valid JSON: " ++ reason
  | .notAnObject found => s!"expected an object, found {found}"
  | .sectionShape found => s!"expected an object of operations, found {found}"
  | .typeShape found => s!"type definitions must be strings or objects, found {found}"
  | .enumMarker => "only \"enum\" is supported as __graphQLType"
  | .enumWithoutValues => "an enum needs a \"values\" array"
  | .enumValueShape => "enum values must be strings"
  | .fieldPair => "a field with arguments must be an [input, output] pair"
  | .fieldShape found => s!"expected a type expression or an [input, output] pair, found {found}"
  | .inputShape found => s!"input must be an object of type expressions, found {found}"
  | .inputFieldShape field found =>
    s!"input field '{field}' must be a type expression, found {found}"
  | .typeName => "type names must match [_A-Za-z][_0-9A-Za-z]*"
  | .fieldName name => s!"'{name}' is not a valid field name"
  | .misplacedVoid => s!"'{voidName}' is only allowed as an operation return type"
  | .emptyEnum => "an enum needs at least one value"
  | .enumValueName value => s!"'{value}' is not a valid enum value"
  | .repeatedEnumValue value => s!"enum value '{value}' is declared twice"
  | .codecWithoutScalar => "a codec was given for an undeclared scalar"
  | .codecOnOther found => s!"a codec needs a scalar, found {found}"

inductive OperationFault where
  | malformed
  | declaredTwice
  deriving DecidableEq, Repr

def OperationFault.message : OperationFault → String
  | .malformed => "must be `['=>', T]` or `[I, '=>', T]`"
  | .declaredTwice => "is declared twice"

inductive ArgumentsFault where
  | noneTaken
  | notAnObject (given : String)
  | unknown (name : String)
  deriving DecidableEq, Repr

def ArgumentsFault.message : ArgumentsFault → String
  | .noneTaken => "the field takes no arguments"
  | .notAnObject given => s!"arguments must be a JSON object, found {given}"
  | .unknown name => s!"unknown argument '{name}'"

/-- Locations name a place in the schema, such as `User.posts` or `scalar Date`. -/
inductive SchemaError where
  | duplicateType (name : String)
  | reservedTypeName (name : String)
  | badExpression (location expr : String) (error : TypeExpr.SyntaxError)
  | unresolvable (name location expr : String) (span : Text.Span)
  | resolutionDepthExceeded (name : String) (limit : Nat)
  | nestedList (expr location : String)
  | invalidDefinition (name : String) (fault : DefinitionFault)
  | invalidOperation (kind : OperationKind) (name : String) (fault : OperationFault)
  | unknownOperation (kind : OperationKind) (name : String)
  | autoSelectRequiresArguments (typeName field : String)
  | autoSelectCycle (typeName root : String) (fields : List String)
  | unknownField (typeName field : String)
  | missingSelection (typeName field : String)
  | unexpectedSelection (typeName field : String)
  | missingArgument (typeName field argument : String)
  | invalidArguments (typeName field : String) (fault : ArgumentsFault)
  | notAnObject (typeName : String)
  deriving DecidableEq, Repr

namespace SchemaError

def message : SchemaError → String
  | duplicateType name => s!"Type '{name}' is already defined"
  | reservedTypeName name => s!"Type name '{name}' is reserved for an operation section"
  | badExpression location _ error => s!"{error.fault.message} (in {location})"
  | unresolvable name location _ _ => s!"'{name}' is unresolvable (in {location})"
  | resolutionDepthExceeded name limit =>
    s!"Resolving '{name}' exceeded the maximum depth of {limit} aliases"
  | nestedList expr location => s!"Nested lists are not supported: '{expr}' (in {location})"
  | invalidDefinition name fault => s!"Invalid definition of '{name}': {fault.message}"
  | invalidOperation kind name fault =>
    s!"Operation '{name}' in {kind.sectionName} {fault.message}"
  | unknownOperation kind name => s!"Unknown {kind.sectionName} operation '{name}'"
  | autoSelectRequiresArguments typeName field =>
    s!"Cannot auto-select field '{field}' of type '{typeName}': it has required arguments"
  | autoSelectCycle typeName root fields =>
    let path := ".".intercalate (root :: fields)
    s!"Cannot auto-select '{path}': type '{typeName}' refers back to itself"
  | unknownField typeName field => s!"Field '{field}' does not exist on type '{typeName}'"
  | missingSelection typeName field =>
    s!"Field '{field}' of type '{typeName}' returns an object and needs a sub-selection"
  | unexpectedSelection typeName field =>
    s!"Field '{field}' of type '{typeName}' is a scalar and cannot have a sub-selection"
  | missingArgument typeName field argument =>
    s!"Field '{field}' of type '{typeName}' is missing required argument '{argument}'"
  | invalidArguments typeName field fault =>
    s!"Invalid arguments for field '{field}' of type '{typeName}': {fault.message}"
  | notAnObject typeName =>
    s!"Type '{typeName}' is not an object type and has no fields to select"

def codeName : SchemaError → String
  | duplicateType _ => "duplicate_type"
  | reservedTypeName _ => "reserved_type_name"
  | badExpression _ _ _ => "syntax"
  | unresolvable _ _ _ _ => "unresolvable"
  | resolutionDepthExceeded _ _ => "resolution_depth"
  | nestedList _ _ => "nested_list"
  | invalidDefinition _ _ => "invalid_definition"
  | invalidOperation _ _ _ => "invalid_operation"
  | unknownOperation _ _ => "unknown_operation"
  | autoSelectRequiresArguments _ _ => "auto_select_arguments"
  | autoSelectCycle _ _ _ => "auto_select_cycle"
  | unknownField _ _ => "unknown_field"
  | missingSelection _ _ => "missing_selection"
  | unexpectedSelection _ _ => "unexpected_selection"
  | missingArgument _ _ _ => "missing_argument"
  | invalidArguments _ _ _ => "invalid_arguments"
  | notAnObject _ => "not_an_object"

def code (error : SchemaError) : String := "tgql::schema::" ++ error.codeName

def help? : SchemaError → Option String
  | resolutionDepthExceeded _ _ => some "check for scalar aliases that refer to each other"
  | autoSelectRequiresArguments _ _ =>
    some "use `.select(...)` and pass the arguments explicitly"
  | autoSelectCycle _ _ _ => some "use `.select(...)` to cut the cycle"
  | _ => none

structure Label where
  text : String
  expr : String
  span : Text.Span

def label? : SchemaError → Option Label
  | badExpression _ expr error => some ⟨"here", expr, error.span⟩
  | unresolvable _ _ expr span => some ⟨"unknown type", expr, span⟩
  | _ => none

def joinedMessage (errors : List SchemaError) : String :=
  "Invalid schema: " ++ "; ".intercalate (errors.map message)

end SchemaError

end GraphQLClient
