import GraphQLClient.Text.Basic

/-!
# Type expressions

A type expression is a name under one of six wrappings. Lists do not nest.
-/
namespace GraphQLClient

inductive Wrapping where
  | single (nullable : Bool)
  | list (itemsNullable nullable : Bool)
  deriving DecidableEq, Repr

namespace Wrapping

def all : List Wrapping :=
  [.single false, .single true, .list false false, .list false true, .list true false,
    .list true true]

def isList : Wrapping → Bool
  | .single _ => false
  | .list _ _ => true

def isNullable : Wrapping → Bool
  | .single nullable => nullable
  | .list _ nullable => nullable

/-- False for what is no list. -/
def itemsNullable : Wrapping → Bool
  | .single _ => false
  | .list itemsNullable _ => itemsNullable

def toNullable : Wrapping → Wrapping
  | .single _ => .single true
  | .list itemsNullable _ => .list itemsNullable true

/-- The first word is about the items, the last about the whole. -/
def label : Wrapping → String
  | .single false => "SIMPLE"
  | .single true => "SIMPLE-NULLABLE"
  | .list false false => "LIST"
  | .list false true => "LIST-NULLABLE"
  | .list true false => "NULLABLE-LIST"
  | .list true true => "NULLABLE-LIST-NULLABLE"

end Wrapping

/-- `coreSpan` is the place of the core in the expression it was read from. -/
structure TypeRef where
  core : String
  wrapping : Wrapping
  coreSpan : Text.Span
  deriving DecidableEq, Repr

namespace TypeRef

def named (core : String) (wrapping : Wrapping) : TypeRef :=
  ⟨core, wrapping, ⟨0, Text.byteLength core.toList⟩⟩

def toNullable (t : TypeRef) : TypeRef := { t with wrapping := t.wrapping.toNullable }

def bang (nullable : Bool) : String := if nullable then "" else "!"

def print (t : TypeRef) : String :=
  match t.wrapping with
  | .single nullable => t.core ++ bang nullable
  | .list itemsNullable nullable => "[" ++ t.core ++ bang itemsNullable ++ "]" ++ bang nullable

end TypeRef

end GraphQLClient

/-!
## Tokens of type expressions

The tokens tile the text: a name is as long as possible, brackets, bangs and characters that have no
place in an expression stand alone, and nothing is skipped.
-/
namespace GraphQLClient.TypeExpr

inductive TokenKind where
  | name
  | openBracket
  | closeBracket
  | bang
  | unexpected
  | stop
  deriving DecidableEq, Repr

structure Token where
  kind : TokenKind
  start : Nat
  chars : List Char
  deriving DecidableEq, Repr

namespace Token

def span (t : Token) : Text.Span := ⟨t.start, t.start + Text.byteLength t.chars⟩

def text (t : Token) : String := String.ofList t.chars

end Token

def singleKind (c : Char) : TokenKind :=
  if c = '[' then .openBracket
  else if c = ']' then .closeBracket
  else if c = '!' then .bang
  else .unexpected

def scan (start : Nat) : List Char → List Token
  | [] => []
  | c :: rest =>
    if Text.isNameStart c then
      let name := c :: rest.takeWhile Text.isNameChar
      ⟨.name, start, name⟩ :: scan (start + Text.byteLength name) (rest.dropWhile Text.isNameChar)
    else ⟨singleKind c, start, [c]⟩ :: scan (start + c.utf8Size) rest
  termination_by cs => cs.length
  decreasing_by
    · simpa using Nat.lt_succ_of_le (List.dropWhile_sublist _).length_le
    · simp

/-- All tokens, and an empty one at the end of the text. -/
def tokenize (cs : List Char) : List Token := scan 0 cs ++ [⟨.stop, Text.byteLength cs, []⟩]

/-!
## Reading type expressions

`Name`, `Name!`, `[Name]` and `[Name!]`, a list optionally followed by `!`. A fault points at the
first character that no expression has at its place, or at the end of the text.
-/

inductive Fault where
  | missingType
  | missingTypeBeforeBang
  | missingTypeBeforeBracket
  | missingOpening
  | missingClosing (bangPossible : Bool)
  | unexpected (c : Char)
  deriving DecidableEq, Repr

def Fault.message : Fault → String
  | .missingType => "Missing expected type"
  | .missingTypeBeforeBang => "Missing expected type before '!'"
  | .missingTypeBeforeBracket => "Missing expected type before ']'"
  | .missingOpening => "Missing expected '[' at the beginning"
  | .missingClosing true => "Missing expected ']' or '!'"
  | .missingClosing false => "Missing expected ']'"
  | .unexpected c => s!"Unexpected character '{c}'"

structure SyntaxError where
  fault : Fault
  span : Text.Span
  deriving DecidableEq, Repr

/-- Of a misplaced token only the first character is to blame. -/
def unexpected (t : Token) : SyntaxError :=
  let c := t.chars.headD ' '
  ⟨.unexpected c, ⟨t.start, t.start + c.utf8Size⟩⟩

def atToken (fault : Fault) (t : Token) : SyntaxError := ⟨fault, t.span⟩

def atStop (fault : Fault) (stop : Nat) : SyntaxError := ⟨fault, ⟨stop, stop⟩⟩

def readName (stop : Nat) (list : Bool) : List Token → Except SyntaxError (Token × List Token)
  | [] => .error (atStop (if list then .missingClosing true else .missingType) stop)
  | t :: rest =>
    match t.kind with
    | .name => .ok (t, rest)
    | .bang => .error (atToken .missingTypeBeforeBang t)
    | .closeBracket =>
      .error (atToken (if list then .missingTypeBeforeBracket else .missingOpening) t)
    | _ => .error (unexpected t)

/-- Whether the value may be null, and what follows the `!` that says it may not. -/
def readBang : List Token → Bool × List Token
  | [] => (true, [])
  | t :: rest => if t.kind = .bang then (false, rest) else (true, t :: rest)

def readClosing (stop : Nat) (itemsNullable : Bool) : List Token → Except SyntaxError (List Token)
  | [] => .error (atStop (.missingClosing itemsNullable) stop)
  | t :: rest => if t.kind = .closeBracket then .ok rest else .error (unexpected t)

def readStop (list : Bool) : List Token → Except SyntaxError Unit
  | [] => .ok ()
  | t :: _ =>
    if t.kind = .closeBracket ∧ list = false then .error (atToken .missingOpening t)
    else .error (unexpected t)

def readSingle (stop : Nat) (tokens : List Token) : Except SyntaxError TypeRef := do
  let (name, rest) ← readName stop false tokens
  let (nullable, rest) := readBang rest
  readStop false rest
  return ⟨name.text, .single nullable, name.span⟩

def readList (stop : Nat) (tokens : List Token) : Except SyntaxError TypeRef := do
  let (name, rest) ← readName stop true tokens
  let (itemsNullable, rest) := readBang rest
  let rest ← readClosing stop itemsNullable rest
  let (nullable, rest) := readBang rest
  readStop true rest
  return ⟨name.text, .list itemsNullable nullable, name.span⟩

def readTokens (stop : Nat) : List Token → Except SyntaxError TypeRef
  | [] => readSingle stop []
  | t :: rest =>
    if t.kind = .openBracket then readList stop rest else readSingle stop (t :: rest)

def parse (expr : String) : Except SyntaxError TypeRef :=
  readTokens (Text.byteLength expr.toList) (scan 0 expr.toList)

end GraphQLClient.TypeExpr
