import GraphQLClient.Json.Printer
import GraphQLClient.Json.Value
import GraphQLClient.Schema.Basic

/-!
# Selections

A selection is a list of nodes, one for each field that is asked for, in the order of the answer.
-/
namespace GraphQLClient

/-- A leaf picks a field, a block also picks fields of the object in it. Arguments are expected to
be an object, which the check of a selection makes sure of. -/
inductive Node where
  | leaf (key : String) (arguments : Option Json)
  | block (key : String) (arguments : Option Json) (children : List Node)
  deriving Repr

namespace Node

instance : Inhabited Node := ⟨.leaf "" none⟩

def key : Node → String
  | .leaf key _ => key
  | .block key _ _ => key

def arguments : Node → Option Json
  | .leaf _ arguments => arguments
  | .block _ arguments _ => arguments

def children? : Node → Option (List Node)
  | .leaf _ _ => none
  | .block _ _ children => some children

def ofParts (key : String) (arguments : Option Json) : Option (List Node) → Node
  | none => .leaf key arguments
  | some children => .block key arguments children

end Node

/-!
## The selection of all fields

Every field reachable from a type, without arguments. Fields with required arguments cannot be
selected so, and neither can a type that leads back to itself.
-/

namespace FieldDefinition

def requiresArguments (field : FieldDefinition) : Bool :=
  match field.input with
  | some input => !(InputDefinition.requiredNames input).isEmpty
  | none => false

end FieldDefinition

namespace TypeTable

def objectNames (types : TypeTable) : List String :=
  types.keys.filter fun name => (types.object? name).isSome

/-- The nodes of the given fields of `typeName`. `free` are the object types that are not on the way
from `root`, `path` the fields on that way. -/
def unfoldFields (types : TypeTable) (root : String) (free : List String) (typeName : String)
    (path : List String) : List (String × FieldDefinition) → Except SchemaError (List Node)
  | [] => .ok []
  | (declared, field) :: rest => do
    let name := Text.baseName declared
    if field.requiresArguments then throw (.autoSelectRequiresArguments typeName name)
    let resolved ← types.resolve field.output (SchemaCheck.fieldLocation typeName name)
    match resolved.object? with
    | none =>
      let nodes ← unfoldFields types root free typeName path rest
      return .leaf name none :: nodes
    | some child =>
      if _onFree : child ∈ free then
        match types.object? child with
        | none => throw (.notAnObject child)
        | some object =>
          let children ← unfoldFields types root (free.erase child) child (path ++ [name])
            object.entries
          let nodes ← unfoldFields types root free typeName path rest
          return .block name none children :: nodes
      else throw (.autoSelectCycle child root (path ++ [name]))
  termination_by fields => (free.length, fields.length)
  decreasing_by
    · exact Prod.Lex.right _ (by simp)
    · exact Prod.Lex.left _ _ (by
        have hpos := List.length_pos_of_mem _onFree
        rw [List.length_erase_of_mem _onFree]
        omega)
    · exact Prod.Lex.right _ (by simp)

/-- All fields of the type, and nothing for a type without fields. -/
def allFields (types : TypeTable) (expr : String) : Except SchemaError (List Node) := do
  let resolved ← types.resolve expr expr
  match resolved.object? with
  | none => return []
  | some root =>
    match types.object? root with
    | none => throw (.notAnObject root)
    | some object => types.unfoldFields root (types.objectNames.erase root) root [] object.entries

end TypeTable

/-!
## Checking selections

A selection is checked against the schema before it is sent: it picks declared fields only, objects
have a selection and other types have none, and arguments are known and complete.
-/

namespace SelectionCheck

def argumentEntries : Option Json → Except ArgumentsFault (List (String × Json))
  | none => .ok []
  | some (.object entries) => .ok entries
  | some other => .error (.notAnObject other.text)

def checkArguments (typeName key : String) (given : Option Json) (field : FieldDefinition) :
    Except SchemaError Unit :=
  match field.input, given with
  | none, none => .ok ()
  | none, some _ => .error (.invalidArguments typeName key .noneTaken)
  | some declared, given =>
    match argumentEntries given with
    | .error fault => .error (.invalidArguments typeName key fault)
    | .ok entries =>
      let names := Entries.keys entries
      match names.find? fun name => (InputDefinition.field? declared name).isNone with
      | some name => .error (.invalidArguments typeName key (.unknown name))
      | none =>
        match (InputDefinition.requiredNames declared).find? fun name => !names.contains name with
        | some name => .error (.missingArgument typeName key name)
        | none => .ok ()

/-- The object type to select from under `parent.field`, if the field has one. `given` tells whether
a selection is there. -/
def selectedObject (types : TypeTable) (parent field expr : String) (given : Bool) :
    Except SchemaError (Option String) := do
  let resolved ← types.resolve expr (SchemaCheck.fieldLocation parent field)
  match resolved.object?, given with
  | some object, true => return some object
  | some _, false => throw (.missingSelection parent field)
  | none, true => throw (.unexpectedSelection parent field)
  | none, false => return none

def fieldOf (types : TypeTable) (typeName key : String) : Except SchemaError FieldDefinition :=
  match types.object? typeName with
  | none => .error (.notAnObject typeName)
  | some object =>
    match ObjectDefinition.field? object key with
    | none => .error (.unknownField typeName key)
    | some field => .ok field

mutual

def checkNode (types : TypeTable) (typeName : String) : Node → Except SchemaError Unit
  | .leaf key arguments => do
    let field ← fieldOf types typeName key
    checkArguments typeName key arguments field
    let _ ← selectedObject types typeName key field.output false
  | .block key arguments children => do
    let field ← fieldOf types typeName key
    checkArguments typeName key arguments field
    match ← selectedObject types typeName key field.output (!children.isEmpty) with
    | some object => checkNodes types object children
    | none => return ()

def checkNodes (types : TypeTable) (typeName : String) : List Node → Except SchemaError Unit
  | [] => .ok ()
  | node :: rest => do
    checkNode types typeName node
    checkNodes types typeName rest

end

end SelectionCheck

namespace TypeTable

/-- Checks nodes as the selection of `parent.field`, a field of the given type. For an operation the
parent is its section. -/
def checkSelection (types : TypeTable) (parent field expr : String) (nodes : List Node) :
    Except SchemaError Unit := do
  match ← SelectionCheck.selectedObject types parent field expr (!nodes.isEmpty) with
  | some object => SelectionCheck.checkNodes types object nodes
  | none => return ()

end TypeTable

end GraphQLClient
