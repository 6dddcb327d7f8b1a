/-!
# Texts

Names and their markers, blank characters, casing, numerals, and byte ranges inside a text.
-/
namespace GraphQLClient.Text

/-!
## Names

The names a document may contain, and the marker `?` that a declaration puts behind the name of an
optional field.
-/

def isNameStart (c : Char) : Bool := c.isAlpha || c == '_'

def isNameChar (c : Char) : Bool := c.isAlphanum || c == '_'

def isNameList : List Char → Bool
  | [] => false
  | first :: rest => isNameStart first && rest.all isNameChar

/-- `[_A-Za-z][_0-9A-Za-z]*` -/
def isName (s : String) : Bool := isNameList s.toList

/-- A declared name with one trailing `?` taken off, and whether there was one. -/
def splitOptional (declared : String) : String × Bool :=
  if declared.toList.getLast? = some '?' then (String.ofList declared.toList.dropLast, true)
  else (declared, false)

def baseName (declared : String) : String := (splitOptional declared).1

/-!
## Blank characters

The characters with the Unicode property `White_Space`, and cutting texts at them.
-/

def isBlank (c : Char) : Bool :=
  let n := c.toNat
  (9 ≤ n && n ≤ 13) || n == 0x20 || n == 0x85 || n == 0xA0 || n == 0x1680 ||
    (0x2000 ≤ n && n ≤ 0x200A) || n == 0x2028 || n == 0x2029 || n == 0x202F || n == 0x205F ||
    n == 0x3000

def trimLeft (cs : List Char) : List Char := cs.dropWhile isBlank

def trimRight (cs : List Char) : List Char := (cs.reverse.dropWhile isBlank).reverse

def trim (cs : List Char) : List Char := trimRight (trimLeft cs)

/-- The runs of characters between blanks. `word` is the run being read, last character first. -/
def wordsFrom (word : List Char) : List Char → List (List Char)
  | [] => if word.isEmpty then [] else [word.reverse]
  | c :: rest =>
    if isBlank c then
      if word.isEmpty then wordsFrom [] rest else word.reverse :: wordsFrom [] rest
    else wordsFrom (c :: word) rest

def words (cs : List Char) : List (List Char) := wordsFrom [] cs

/-!
## Casing

Shortcut names and camel case. Only ASCII letters change their case.
-/

def capitalizeFirst (s : String) : String :=
  match s.toList with
  | [] => ""
  | first :: rest => String.ofList (first.toUpper :: rest)

/-- The shortcut for an input field: `id` has `byId`. -/
def shortcutName (field : String) : String := "by" ++ capitalizeFirst field

/-- Drops underscores, and raises the character after a run of them. `raise` tells that such a run
has just been passed. -/
def joinWords : Bool → List Char → List Char
  | _, [] => []
  | raise, c :: rest =>
    if c = '_' then joinWords true rest
    else (if raise then c.toUpper else c) :: joinWords false rest

/-- Leading underscores stay, so `__typename` is its own camel case. -/
def camelCaseList (cs : List Char) : List Char :=
  cs.takeWhile (· == '_') ++ joinWords false (cs.dropWhile (· == '_'))

def camelCase (s : String) : String := String.ofList (camelCaseList s.toList)

/-!
## Numerals

Unsigned numerals in a radix up to 16, with an upper bound. One `+` may stand in front, leading
zeros are fine.
-/

def signedLimit : Nat := 9223372036854775808

def unsignedLimit : Nat := 18446744073709551616

def hexDigit? (c : Char) : Option Nat :=
  if '0' ≤ c ∧ c ≤ '9' then some (c.toNat - '0'.toNat)
  else if 'a' ≤ c ∧ c ≤ 'f' then some (c.toNat - 'a'.toNat + 10)
  else if 'A' ≤ c ∧ c ≤ 'F' then some (c.toNat - 'A'.toNat + 10)
  else none

def digit? (radix : Nat) (c : Char) : Option Nat := (hexDigit? c).filter (· < radix)

def digitsValue? (radix : Nat) : Nat → List Char → Option Nat
  | value, [] => some value
  | value, c :: rest => do digitsValue? radix (value * radix + (← digit? radix c)) rest

/-- A numeral of at least one digit whose number is at most `limit`. -/
def numeral? (radix limit : Nat) (cs : List Char) : Option Nat :=
  let digits := match cs with
    | '+' :: rest => rest
    | _ => cs
  if digits.isEmpty then none else (digitsValue? radix 0 digits).filter (· ≤ limit)

def digitsOf (radix n : Nat) : List Char := Nat.toDigits radix n

/-!
## Spans

Byte ranges inside a text. A slice exists only between character boundaries.
-/

def byteLength : List Char → Nat
  | [] => 0
  | c :: rest => c.utf8Size + byteLength rest

def splitBytes : Nat → List Char → Option (List Char × List Char)
  | 0, cs => some ([], cs)
  | _ + 1, [] => none
  | n + 1, c :: rest =>
    if c.utf8Size ≤ n + 1 then
      (splitBytes (n + 1 - c.utf8Size) rest).map fun (taken, left) => (c :: taken, left)
    else none

structure Span where
  start : Nat
  stop : Nat
  deriving DecidableEq, Repr

namespace Span

def length (s : Span) : Nat := s.stop - s.start

def isEmpty (s : Span) : Bool := s.start == s.stop

def sliceList (s : Span) (cs : List Char) : Option (List Char) :=
  if s.start ≤ s.stop then do
    let (_, rest) ← splitBytes s.start cs
    let (taken, _) ← splitBytes (s.stop - s.start) rest
    return taken
  else none

/-- The text under the span, empty when the span is out of range or cuts a character. -/
def slice (s : Span) (source : String) : String :=
  String.ofList ((s.sliceList source.toList).getD [])

end Span

end GraphQLClient.Text
