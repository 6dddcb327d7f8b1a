import GraphQLClient.Json.Printer
import GraphQLClient.OrderedMap
import GraphQLClient.Text.Basic

/-!
# Definitions

Types and operations as they are declared, and the codecs that custom scalars may have.
-/
namespace GraphQLClient

/-!
## Codecs

A custom scalar travels as its alias. A codec turns what travels into what callers work with and
back; a missing half passes values on. The codecs here are the ones for tagged texts, for boxed
values, and for scalars that must not be used.
-/

structure Codec where
  parse : Option (Json → Except String Json)
  serialize : Option (Json → Except String Json)

namespace Codec

def parseValue (codec : Codec) (value : Json) : Except String Json :=
  match codec.parse with
  | some convert => convert value
  | none => .ok value

def serializeValue (codec : Codec) (value : Json) : Except String Json :=
  match codec.serialize with
  | some convert => convert value
  | none => .ok value

def identity : Codec := ⟨none, none⟩

def removeTag (tag : String) (value : Json) : Except String Json :=
  let refusal : Except String Json := .error s!"expected {tag}..., found {value.text}"
  match value with
  | .string s =>
    if tag.toList.isPrefixOf s.toList then
      .ok (.string (String.ofList (s.toList.drop tag.toList.length)))
    else refusal
  | _ => refusal

def addTag (tag : String) (value : Json) : Except String Json :=
  match value with
  | .string s => .ok (.string (tag ++ s))
  | _ => .error s!"expected a string, found {value.text}"

/-- Texts that carry `tag` in front while they travel. -/
def tagged (tag : String) : Codec := ⟨some (removeTag tag), some (addTag tag)⟩

def unbox (value : Json) : Except String Json :=
  match value with
  | .object fields =>
    match Entries.get? "wrapped" fields with
    | some inner => .ok inner
    | none => .error "no value"
  | _ => .error s!"expected an object, got {value.text}"

/-- Values that callers see boxed under the key `wrapped`. -/
def boxed : Codec := ⟨some fun value => .ok (.object [("wrapped", value)]), some unbox⟩

def refusing : Codec :=
  ⟨some fun _ => .error "parse refused", some fun _ => .error "serialize refused"⟩

def onlyParse (codec : Codec) : Codec := { codec with serialize := none }

def onlySerialize (codec : Codec) : Codec := { codec with parse := none }

end Codec

/-!
## Declarations

What a schema declares: object types, enums, custom scalars, and operations in three sections. Types
are named by expressions, which stay as written.
-/

inductive BuiltinScalar where
  | id
  | int
  | float
  | string
  | boolean
  deriving DecidableEq, Repr

namespace BuiltinScalar

def name : BuiltinScalar → String
  | .id => "ID"
  | .int => "Int"
  | .float => "Float"
  | .string => "String"
  | .boolean => "Boolean"

def all : List BuiltinScalar := [.id, .int, .float, .string, .boolean]

def ofName? (s : String) : Option BuiltinScalar := all.find? (·.name == s)

end BuiltinScalar

/-- The return type of an operation that produces nothing. -/
def voidName : String := "void"

inductive OperationKind where
  | query
  | mutation
  | subscription
  deriving DecidableEq, Repr

namespace OperationKind

def all : List OperationKind := [.query, .mutation, .subscription]

def keyword : OperationKind → String
  | .query => "query"
  | .mutation => "mutation"
  | .subscription => "subscription"

def sectionName : OperationKind → String
  | .query => "Query"
  | .mutation => "Mutation"
  | .subscription => "Subscription"

def ofSectionName? (s : String) : Option OperationKind := all.find? (·.sectionName == s)

end OperationKind

/-- Declared names with type expressions. A name may carry the marker of an optional field. -/
abbrev InputDefinition := OrderedMap String

structure InputField where
  name : String
  isOptional : Bool
  expr : String
  deriving DecidableEq, Repr

def InputField.ofEntry (entry : String × String) : InputField :=
  let (name, isOptional) := Text.splitOptional entry.1
  ⟨name, isOptional, entry.2⟩

namespace InputDefinition

def fields (input : InputDefinition) : List InputField := input.entries.map InputField.ofEntry

/-- The first field of that name, the marker aside. -/
def field? (input : InputDefinition) (name : String) : Option InputField :=
  (fields input).find? (·.name == name)

def requiredNames (input : InputDefinition) : List String :=
  ((fields input).filter (!·.isOptional)).map InputField.name

def optionalNames (input : InputDefinition) : List String :=
  ((fields input).filter (·.isOptional)).map InputField.name

end InputDefinition

/-- A field with arguments has an input, be it empty. -/
structure FieldDefinition where
  input : Option InputDefinition
  output : String

abbrev ObjectDefinition := OrderedMap FieldDefinition

namespace ObjectDefinition

/-- The field declared exactly so, or else the first of that name, the marker aside. -/
def field? (object : ObjectDefinition) (name : String) : Option FieldDefinition :=
  match object.get? name with
  | some field => some field
  | none => (object.entries.find? fun entry => Text.baseName entry.1 == name).map Prod.snd

end ObjectDefinition

inductive TypeDefinition where
  | object (fields : ObjectDefinition)
  | scalar (aliasExpr : String) (codec : Option Codec)
  | enumeration (values : List String)

def TypeDefinition.describe : TypeDefinition → String
  | .object _ => "object"
  | .scalar _ _ => "scalar"
  | .enumeration _ => "enum"

structure OperationSignature where
  input : Option InputDefinition
  output : String

structure OperationSections where
  queries : OrderedMap OperationSignature
  mutations : OrderedMap OperationSignature
  subscriptions : OrderedMap OperationSignature

namespace OperationSections

def empty : OperationSections := ⟨.empty, .empty, .empty⟩

def operations (sections : OperationSections) : OperationKind → OrderedMap OperationSignature
  | .query => sections.queries
  | .mutation => sections.mutations
  | .subscription => sections.subscriptions

def insert (sections : OperationSections) (kind : OperationKind) (name : String)
    (signature : OperationSignature) : OperationSections :=
  match kind with
  | .query => { sections with queries := sections.queries.insert name signature }
  | .mutation => { sections with mutations := sections.mutations.insert name signature }
  | .subscription =>
    { sections with subscriptions := sections.subscriptions.insert name signature }

def toList (sections : OperationSections) :
    List (OperationKind × String × OperationSignature) :=
  OperationKind.all.flatMap fun kind =>
    (sections.operations kind).entries.map fun (name, signature) => (kind, name, signature)

end OperationSections

abbrev TypeTable := OrderedMap TypeDefinition

end GraphQLClient
