import GraphQLClient.Document.Printer
import GraphQLClient.Json.Reader

/-!
# Reading documents

What a server makes of the parts of a document in front of its selection.
-/
namespace GraphQLClient.Document

/-!
## Arguments

What a server makes of the arguments of a field, by the lexical grammar of GraphQL: commas, line
ends, comments and a byte order mark separate tokens and mean nothing else, and a name or a number
goes on as far as it can. Block strings are not read.
-/

inductive Literal where
  | null
  | bool (b : Bool)
  | number (n : JsonNumber)
  | text (s : String)
  | variable (name : String)
  | word (name : String)
  | list (items : List Literal)
  | object (fields : List (String × Literal))

namespace Literal

/-- `null`, `true` and `false` are no values of enums. -/
def ofWord (name : String) : Literal :=
  if name = "null" then .null
  else if name = "true" then .bool true
  else if name = "false" then .bool false
  else .word name

mutual

/-- A value as it is meant, when a text that looks like a variable stands for that variable. -/
def ofJson : Json → Literal
  | .null => .null
  | .bool b => .bool b
  | .number n => .number n
  | .string s =>
    if isVariable s.toList then .variable (String.ofList s.toList.tail) else .text s
  | .array items => .list (ofItems items)
  | .object fields => .object (ofFields fields)

def ofItems : List Json → List Literal
  | [] => []
  | item :: rest => ofJson item :: ofItems rest

def ofFields : List (String × Json) → List (String × Literal)
  | [] => []
  | (name, value) :: rest => (name, ofJson value) :: ofFields rest

end

mutual

/-- The value that a literal says itself, without variables and enums. -/
def toJson? : Literal → Option Json
  | .null => some .null
  | .bool b => some (.bool b)
  | .number n => some (.number n)
  | .text s => some (.string s)
  | .variable _ => none
  | .word _ => none
  | .list items => do return .array (← toItems? items)
  | .object fields => do return .object (← toFields? fields)

def toItems? : List Literal → Option (List Json)
  | [] => some []
  | item :: rest => do return (← toJson? item) :: (← toItems? rest)

def toFields? : List (String × Literal) → Option (List (String × Json))
  | [] => some []
  | (name, value) :: rest => do return (name, ← toJson? value) :: (← toFields? rest)

end

end Literal

def isIgnored (c : Char) : Bool :=
  c == ' ' || c == '\t' || c == '\n' || c == '\r' || c == ',' || c == '\uFEFF'

mutual

/-- What is left from the next token on. -/
def skipIgnored : List Char → List Char
  | [] => []
  | c :: rest =>
    if isIgnored c then skipIgnored rest
    else if c = '#' then skipComment rest
    else c :: rest

def skipComment : List Char → List Char
  | [] => []
  | c :: rest => if c = '\n' ∨ c = '\r' then skipIgnored rest else skipComment rest

end

def readName? (cs : List Char) : Option (String × List Char) :=
  let name := cs.takeWhile Text.isNameChar
  if Text.isNameList name then some (String.ofList name, cs.dropWhile Text.isNameChar) else none

/-- A number with a fraction or an exponent is the float next to it. -/
def numberOf? (t : Json.NumberText) : Option JsonNumber :=
  let whole : Int := Json.digitsNumber t.whole
  match t.fraction, t.exponent with
  | none, none => some (.int (if t.negative then -whole else whole))
  | fraction, exponent =>
    let behind := fraction.getD []
    (Binary64.ofDecimal? t.negative (Json.digitsNumber (t.whole ++ behind))
      ((exponent.map Json.Exponent.toInt).getD 0 - behind.length)).map .float

/-- Neither a point nor a name may stand directly behind a number. -/
def readNumber? (cs : List Char) : Option (JsonNumber × List Char) :=
  match Json.readNumberText cs with
  | .error _ => none
  | .ok (t, rest) =>
    match rest with
    | c :: _ => if c = '.' ∨ Text.isNameChar c then none else (numberOf? t).map (·, rest)
    | [] => (numberOf? t).map (·, rest)

def readText? (cs : List Char) : Option (String × List Char) :=
  match cs with
  | '"' :: '"' :: _ => none
  | _ =>
    match Json.readString cs with
    | .ok (text, rest) => some (String.ofList text, rest)
    | .error _ => none

mutual

/-- `fuel` bounds the number of steps. The length of the text is enough. -/
def readValue? : Nat → List Char → Option (Literal × List Char)
  | 0, _ => none
  | fuel + 1, cs =>
    match skipIgnored cs with
    | '$' :: rest => do
      let (name, rest) ← readName? (skipIgnored rest)
      return (.variable name, rest)
    | '"' :: rest => do
      let (text, rest) ← readText? rest
      return (.text text, rest)
    | '[' :: rest => do
      let (items, rest) ← readItems? fuel rest
      return (.list items, rest)
    | '{' :: rest => do
      let (fields, rest) ← readFields? fuel '}' rest
      return (.object fields, rest)
    | rest =>
      match readName? rest with
      | some (name, rest) => some (.ofWord name, rest)
      | none => do
        let (n, rest) ← readNumber? rest
        return (.number n, rest)

def readItems? : Nat → List Char → Option (List Literal × List Char)
  | 0, _ => none
  | fuel + 1, cs =>
    match skipIgnored cs with
    | ']' :: rest => some ([], rest)
    | rest => do
      let (item, rest) ← readValue? fuel rest
      let (items, rest) ← readItems? fuel rest
      return (item :: items, rest)

def readFields? : Nat → Char → List Char → Option (List (String × Literal) × List Char)
  | 0, _, _ => none
  | fuel + 1, closing, cs =>
    match skipIgnored cs with
    | [] => none
    | c :: rest =>
      if c = closing then some ([], rest)
      else do
        let (name, rest) ← readName? (c :: rest)
        match skipIgnored rest with
        | ':' :: rest =>
          let (value, rest) ← readValue? fuel rest
          let (fields, rest) ← readFields? fuel closing rest
          return ((name, value) :: fields, rest)
        | _ => none

end

/-- The arguments of a field behind its name. Parentheses are not empty, but need not be there. -/
def readArguments? (cs : List Char) : Option (List (String × Literal) × List Char) :=
  match skipIgnored cs with
  | '(' :: rest =>
    match readFields? (rest.length + 1) ')' rest with
    | some ([], _) => none
    | found => found
  | _ => some ([], cs)

/-!
## Headers

What a server makes of a document in front of its selection: the kind and the name of the operation,
the variables declared for it, and the call of a field with its arguments. An operation without
name, a default value, a directive and an alias are not read.
-/

inductive TypeLiteral where
  | named (name : String) (nullable : Bool)
  | list (items : TypeLiteral) (nullable : Bool)
  deriving DecidableEq, Repr

def TypeLiteral.isNullable : TypeLiteral → Bool
  | .named _ nullable => nullable
  | .list _ nullable => nullable

def readBang (cs : List Char) : Bool × List Char :=
  match skipIgnored cs with
  | '!' :: rest => (false, rest)
  | _ => (true, cs)

/-- Every bracket takes a step of the fuel. -/
def readType? : Nat → List Char → Option (TypeLiteral × List Char)
  | 0, _ => none
  | fuel + 1, cs =>
    match skipIgnored cs with
    | '[' :: rest => do
      let (items, rest) ← readType? fuel rest
      match skipIgnored rest with
      | ']' :: rest =>
        let (nullable, rest) := readBang rest
        return (.list items nullable, rest)
      | _ => none
    | rest => do
      let (name, rest) ← readName? rest
      let (nullable, rest) := readBang rest
      return (.named name nullable, rest)

def readDeclarations? : Nat → List Char → Option (List (String × TypeLiteral) × List Char)
  | 0, _ => none
  | fuel + 1, cs =>
    match skipIgnored cs with
    | ')' :: rest => some ([], rest)
    | '$' :: rest => do
      let (name, rest) ← readName? (skipIgnored rest)
      match skipIgnored rest with
      | ':' :: rest =>
        let (type, rest) ← readType? (rest.length + 1) rest
        let (others, rest) ← readDeclarations? fuel rest
        return ((name, type) :: others, rest)
      | _ => none
    | _ => none

/-- The variables behind the name of an operation. Parentheses are not empty, but need not be
there. -/
def readVariables? (cs : List Char) : Option (List (String × TypeLiteral) × List Char) :=
  match skipIgnored cs with
  | '(' :: rest =>
    match readDeclarations? (rest.length + 1) rest with
    | some ([], _) => none
    | found => found
  | _ => some ([], cs)

def readKind? (cs : List Char) : Option (OperationKind × List Char) := do
  let (word, rest) ← readName? (skipIgnored cs)
  let kind ← OperationKind.all.find? (·.keyword == word)
  return (kind, rest)

def dropMarker : List Char → List Char
  | '?' :: rest => rest
  | cs => cs

/-- Kind, name and variables of a document. A marker behind the name is passed over, though no
document may contain one. -/
def readDeclared? (cs : List Char) :
    Option (OperationKind × String × List (String × TypeLiteral)) := do
  let (kind, rest) ← readKind? cs
  let (name, rest) ← readName? (skipIgnored rest)
  let (declared, _) ← readVariables? (dropMarker rest)
  return (kind, name, declared)

structure Header where
  kind : OperationKind
  name : String
  declared : List (String × TypeLiteral)
  field : String
  passed : List (String × Literal)

/-- Behind the call stands a selection, or the end of the operation. -/
def readHeader? (cs : List Char) : Option (Header × List Char) := do
  let (kind, rest) ← readKind? cs
  let (name, rest) ← readName? (skipIgnored rest)
  let (declared, rest) ← readVariables? rest
  match skipIgnored rest with
  | '{' :: rest =>
    let (field, rest) ← readName? (skipIgnored rest)
    let (passed, rest) ← readArguments? rest
    match skipIgnored rest with
    | '{' :: _ => return (⟨kind, name, declared, field, passed⟩, rest)
    | '}' :: _ => return (⟨kind, name, declared, field, passed⟩, rest)
    | _ => none
  | _ => none

end GraphQLClient.Document
