import GraphQLClient.Json.Value
import GraphQLClient.Text.Basic

/-!
# Reading JSON

From a text to a value, or to the place of what is wrong with it.
-/
namespace GraphQLClient.Json

/-!
## Faults

What is wrong with a text and at which line and column. Lines count from one, columns count bytes.
-/

inductive Fault where
  | eofInList
  | eofInObject
  | eofInString
  | eofInValue
  | expectedColon
  | expectedListSeparator
  | expectedObjectSeparator
  | expectedIdent
  | expectedValue
  | invalidEscape
  | invalidNumber
  | numberOutOfRange
  | controlCharacter
  | keyNotString
  | loneSurrogate
  | trailingComma
  | trailingCharacters
  | hexEscapeEnd
  | tooDeep
  deriving DecidableEq, Repr

def Fault.message : Fault → String
  | .eofInList => "EOF while parsing a list"
  | .eofInObject => "EOF while parsing an object"
  | .eofInString => "EOF while parsing a string"
  | .eofInValue => "EOF while parsing a value"
  | .expectedColon => "expected `:`"
  | .expectedListSeparator => "expected `,` or `]`"
  | .expectedObjectSeparator => "expected `,` or `\x7d`"
  | .expectedIdent => "expected ident"
  | .expectedValue => "expected value"
  | .invalidEscape => "invalid escape"
  | .invalidNumber => "invalid number"
  | .numberOutOfRange => "number out of range"
  | .controlCharacter => "control character (\\u0000-\\u001F) found while parsing a string"
  | .keyNotString => "key must be a string"
  | .loneSurrogate => "lone leading surrogate in hex escape"
  | .trailingComma => "trailing comma"
  | .trailingCharacters => "trailing characters"
  | .hexEscapeEnd => "unexpected end of hex escape"
  | .tooDeep => "recursion limit exceeded"

/-- Reading stopped `bytes` bytes into `rest`, the part of the text that was left. -/
structure Stop where
  fault : Fault
  rest : List Char
  bytes : Nat

namespace Stop

def before (fault : Fault) (rest : List Char) : Stop := ⟨fault, rest, 0⟩

def after (fault : Fault) (rest : List Char) : Stop := ⟨fault, rest, 1⟩

def locate (line column : Nat) : Nat → List Char → Nat × Nat
  | 0, _ => (line, column)
  | _ + 1, [] => (line, column)
  | offset + 1, c :: rest =>
    if c = '\n' then locate (line + 1) 0 offset rest
    else locate line (column + min (offset + 1) c.utf8Size) (offset + 1 - c.utf8Size) rest

def message (stop : Stop) (text : List Char) : String :=
  let offset := Text.byteLength text - Text.byteLength stop.rest + stop.bytes
  let (line, column) := locate 1 0 offset text
  s!"{stop.fault.message} at line {line} column {column}"

end Stop

/-!
## Numbers

A number is first cut into its digits, then valued. Floats are valued from those leading digits that
fit in 64 bits, by one product or quotient with a power of ten.
-/

structure Exponent where
  negative : Bool
  digits : List Char

structure NumberText where
  negative : Bool
  whole : List Char
  fraction : Option (List Char)
  exponent : Option Exponent

def readDigits (cs : List Char) : Except Stop (List Char × List Char) :=
  match cs.takeWhile Char.isDigit, cs with
  | [], [] => .error (.before .eofInValue cs)
  | [], _ :: _ => .error (.after .invalidNumber cs)
  | digits, _ => .ok (digits, cs.dropWhile Char.isDigit)

/-- No further digit follows a leading zero. -/
def readWhole : List Char → Except Stop (List Char × List Char)
  | '0' :: rest =>
    match rest with
    | c :: _ => if c.isDigit then .error (.after .invalidNumber rest) else .ok (['0'], rest)
    | [] => .ok (['0'], rest)
  | cs => readDigits cs

def digitsNumber (digits : List Char) : Nat :=
  digits.foldl (fun n c => n * 10 + (c.toNat - '0'.toNat)) 0

def readFraction : List Char → Except Stop (Option (List Char) × List Char)
  | '.' :: rest => do
    let (digits, rest) ← readDigits rest
    return (some digits, rest)
  | cs => .ok (none, cs)

def Exponent.toInt (e : Exponent) : Int :=
  let n : Int := digitsNumber e.digits
  if e.negative then -n else n

def readExponent : List Char → Except Stop (Option Exponent × List Char)
  | [] => .ok (none, [])
  | c :: rest =>
    if c = 'e' ∨ c = 'E' then do
      let (negative, unsigned) := match rest with
        | '+' :: more => (false, more)
        | '-' :: more => (true, more)
        | _ => (false, rest)
      let (digits, rest) ← readDigits unsigned
      return (some ⟨negative, digits⟩, rest)
    else .ok (none, c :: rest)

def readNumberText (cs : List Char) : Except Stop (NumberText × List Char) := do
  let (negative, unsigned) := match cs with
    | '-' :: rest => (true, rest)
    | _ => (false, cs)
  let (whole, rest) ← readWhole unsigned
  let (fraction, rest) ← readFraction rest
  let (exponent, rest) ← readExponent rest
  return (⟨negative, whole, fraction, exponent⟩, rest)

/-- The number of as many leading digits as fit, after `n`, and how many are left. -/
def fitDigits (n : Nat) : List Char → Nat × Nat
  | [] => (n, 0)
  | c :: rest =>
    let next := n * 10 + (c.toNat - '0'.toNat)
    if next < Text.unsignedLimit then fitDigits next rest else (n, rest.length + 1)

/-- Divides by `10 ^ n`, by at most `10 ^ 308` at a time. -/
def divideByPower (x : Binary64) (n : Nat) : Option Binary64 :=
  if n ≤ 308 then do x.div? (← Binary64.ofDecimal? false 1 n)
  else if x.isZero then some x
  else do divideByPower (← x.div? (← Binary64.ofDecimal? false 1 308)) (n - 308)
  termination_by n

/-- The float `significand * 10 ^ exponent`, each of its two steps rounded. -/
def scale? (significand : Nat) (exponent : Int) : Option Binary64 := do
  let x ← Binary64.ofRatio? false significand 1
  if exponent < 0 then divideByPower x exponent.natAbs
  else if exponent ≤ 308 then x.mul? (← Binary64.ofDecimal? false 1 exponent)
  else if x.isZero then some x
  else none

def NumberText.float? (t : NumberText) : Option Binary64 := do
  let (whole, dropped) := fitDigits 0 t.whole
  let fraction := t.fraction.getD []
  let (significand, unread) := fitDigits whole fraction
  let used := fraction.length - unread
  let x ← scale? significand (dropped - used + (t.exponent.map Exponent.toInt).getD 0)
  return if t.negative then x.neg else x

/-- A number without fraction and exponent is an integer when it fits in 64 bits; `-0` is a
float. -/
def NumberText.value? (t : NumberText) : Option JsonNumber :=
  let n := digitsNumber t.whole
  if t.fraction.isNone && t.exponent.isNone && t.negative && n != 0 && n ≤ Text.signedLimit then
    some (.int (-n))
  else if t.fraction.isNone && t.exponent.isNone && !t.negative && n < Text.unsignedLimit then
    some (.int n)
  else t.float?.map .float

def exponentLimit : Nat := 2147483647

/-- The digits behind the first one that takes the number, after `n`, over the limit. -/
def behindLimit? (n : Nat) : List Char → Option (List Char)
  | [] => none
  | c :: rest =>
    let next := n * 10 + (c.toNat - '0'.toNat)
    if exponentLimit < next then some rest else behindLimit? next rest

/-- A number out of range is known at its end, or where its exponent passes the limit. -/
def NumberText.unreadDigits (t : NumberText) : List Char :=
  ((t.exponent.map Exponent.digits).bind (behindLimit? 0)).getD []

def readNumber (cs : List Char) : Except Stop (JsonNumber × List Char) := do
  let (text, rest) ← readNumberText cs
  match text.value? with
  | some n => return (n, rest)
  | none => throw (.before .numberOutOfRange (text.unreadDigits ++ rest))

/-!
## Values

`parseVerbatim` keeps repeated keys apart for readers that refuse them, and passes over what its
shape ignores; `parse` gives a repeated key its first place and its last value. At most 127 arrays
and objects may stand in each other.
-/

def isSpace (c : Char) : Bool := c == ' ' || c == '\n' || c == '\t' || c == '\r'

def skipSpace (cs : List Char) : List Char := cs.dropWhile isSpace

def codeUnit? (a b c d : Char) : Option Nat := do
  return ((← Text.hexDigit? a) * 16 + (← Text.hexDigit? b)) * 256 +
    (← Text.hexDigit? c) * 16 + (← Text.hexDigit? d)

def simpleEscape? : Char → Option Char
  | '"' => some '"'
  | '\\' => some '\\'
  | '/' => some '/'
  | 'b' => some '\x08'
  | 'f' => some '\x0c'
  | 'n' => some '\n'
  | 'r' => some '\r'
  | 't' => some '\t'
  | _ => none

def isHighSurrogate (n : Nat) : Bool := 0xD800 ≤ n && n < 0xDC00

def isLowSurrogate (n : Nat) : Bool := 0xDC00 ≤ n && n < 0xE000

def readCodeUnit (cs : List Char) : Except Stop Nat :=
  match cs with
  | a :: b :: c :: d :: _ =>
    match codeUnit? a b c d with
    | some unit => .ok unit
    | none => .error ⟨.invalidEscape, cs, 4⟩
  | _ =>
    if Text.byteLength cs < 4 then .error (.before .eofInString [])
    else .error ⟨.invalidEscape, cs, 4⟩

/-- Reads up to the closing quote. Surrogates occur only as pairs. -/
def readString : List Char → Except Stop (List Char × List Char)
  | [] => .error (.before .eofInString [])
  | '"' :: rest => .ok ([], rest)
  | '\\' :: [] => .error (.before .eofInString [])
  | '\\' :: 'u' :: a :: b :: c :: d :: rest => do
    let unit ← readCodeUnit (a :: b :: c :: d :: rest)
    if isHighSurrogate unit then
      match rest with
      | [] => .error (.before .eofInString [])
      | '\\' :: [] => .error (.before .eofInString [])
      | '\\' :: 'u' :: e :: f :: g :: h :: rest' =>
        let low ← readCodeUnit (e :: f :: g :: h :: rest')
        if isLowSurrogate low then
          let (cs, left) ← readString rest'
          return (Char.ofNat (0x10000 + (unit - 0xD800) * 0x400 + (low - 0xDC00)) :: cs, left)
        else .error (.before .loneSurrogate rest')
      | '\\' :: 'u' :: few =>
        let _ ← readCodeUnit few
        .error (.before .eofInString [])
      | '\\' :: other => .error (.after .hexEscapeEnd other)
      | other => .error (.after .hexEscapeEnd other)
    else if isLowSurrogate unit then .error (.before .loneSurrogate rest)
    else
      let (cs, left) ← readString rest
      return (Char.ofNat unit :: cs, left)
  | '\\' :: e :: rest =>
    if e = 'u' then do
      let _ ← readCodeUnit rest
      .error (.before .eofInString [])
    else
      match simpleEscape? e with
      | none => .error (.after .invalidEscape (e :: rest))
      | some c => do
        let (cs, left) ← readString rest
        return (c :: cs, left)
  | c :: rest =>
    if c.toNat < 0x20 then .error (.after .controlCharacter (c :: rest))
    else do
      let (cs, left) ← readString rest
      return (c :: cs, left)

/-- What is left behind the closing quote of a string whose escapes may name any code unit. -/
def skipString : List Char → Except Stop (List Char)
  | [] => .error (.before .eofInString [])
  | '"' :: rest => .ok rest
  | '\\' :: [] => .error (.before .eofInString [])
  | '\\' :: 'u' :: a :: b :: c :: d :: rest => do
    let _ ← readCodeUnit (a :: b :: c :: d :: rest)
    skipString rest
  | '\\' :: e :: rest =>
    if e = 'u' then do
      let _ ← readCodeUnit rest
      .error (.before .eofInString [])
    else
      match simpleEscape? e with
      | none => .error (.after .invalidEscape (e :: rest))
      | some _ => skipString rest
  | c :: rest =>
    if c.toNat < 0x20 then .error (.after .controlCharacter (c :: rest)) else skipString rest

/-- A string behind its opening quote. An ignored one reads as empty. -/
def readText (shape : Shape) (cs : List Char) : Except Stop (String × List Char) :=
  if shape.isIgnored then do return ("", ← skipString cs)
  else do
    let (text, rest) ← readString cs
    return (String.ofList text, rest)

/-- A number. An ignored one reads as null. -/
def readNumeral (shape : Shape) (cs : List Char) : Except Stop (Json × List Char) :=
  if shape.isIgnored then do
    let (_, rest) ← readNumberText cs
    return (.null, rest)
  else do
    let (n, rest) ← readNumber cs
    return (.number n, rest)

def readLetters : List Char → List Char → Except Stop (List Char)
  | [], cs => .ok cs
  | _ :: _, [] => .error (.before .eofInValue [])
  | letter :: letters, c :: rest =>
    if c = letter then readLetters letters rest else .error (.after .expectedIdent (c :: rest))

def readWord (word : String) (value : Json) (cs : List Char) : Except Stop (Json × List Char) := do
  return (value, ← readLetters word.toList cs)

/-- A comma or the end of a list, between two items. The result tells whether an item follows. -/
def readListSeparator (cs : List Char) : Except Stop (Bool × List Char) :=
  match skipSpace cs with
  | [] => .error (.before .eofInList [])
  | ']' :: rest => .ok (false, rest)
  | ',' :: rest =>
    match skipSpace rest with
    | [] => .error (.before .eofInValue [])
    | ']' :: rest => .error (.after .trailingComma (']' :: rest))
    | rest => .ok (true, rest)
  | rest => .error (.after .expectedListSeparator rest)

def readObjectSeparator (cs : List Char) : Except Stop (Bool × List Char) :=
  match skipSpace cs with
  | [] => .error (.before .eofInObject [])
  | '}' :: rest => .ok (false, rest)
  | ',' :: rest =>
    match skipSpace rest with
    | [] => .error (.before .eofInValue [])
    | '}' :: rest => .error (.after .trailingComma ('}' :: rest))
    | rest => .ok (true, rest)
  | rest => .error (.after .expectedObjectSeparator rest)

def readKey (shape : Shape) (cs : List Char) : Except Stop (String × List Char) :=
  match cs with
  | '"' :: rest => do
    let (key, rest) ← readText shape rest
    match skipSpace rest with
    | [] => .error (.before .eofInObject [])
    | ':' :: rest => .ok (key, rest)
    | rest => .error (.after .expectedColon rest)
  | _ => .error (.after .keyNotString cs)

mutual

/-- `fuel` bounds the number of steps, `depth` the brackets that may still be opened. A bracket
takes two steps, so twice the length of the text is fuel enough. -/
def readValue : Nat → Nat → Shape → List Char → Except Stop (Json × List Char)
  | 0, _, _, cs => .error (.before .eofInValue cs)
  | fuel + 1, depth, shape, cs =>
    match skipSpace cs with
    | [] => .error (.before .eofInValue [])
    | '"' :: rest => do
      let (text, rest) ← readText shape rest
      return (.string text, rest)
    | '[' :: rest =>
      match shape.depthInside? depth with
      | none => .error (.after .tooDeep ('[' :: rest))
      | some depth =>
        match skipSpace rest with
        | [] => .error (.before .eofInList [])
        | ']' :: rest => .ok (.array [], rest)
        | rest => do
          let (items, rest) ← readItems fuel depth shape 0 rest
          return (.array items, rest)
    | '{' :: rest =>
      match shape.depthInside? depth with
      | none => .error (.after .tooDeep ('{' :: rest))
      | some depth =>
        match skipSpace rest with
        | [] => .error (.before .eofInObject [])
        | '}' :: rest => .ok (.object [], rest)
        | rest => do
          let (fields, rest) ← readMembers fuel depth shape rest
          return (.object fields, rest)
    | c :: rest =>
      if c = 'n' then readWord "ull" .null rest
      else if c = 't' then readWord "rue" (.bool true) rest
      else if c = 'f' then readWord "alse" (.bool false) rest
      else if c = '-' ∨ c.isDigit then readNumeral shape (c :: rest)
      else .error (.after .expectedValue (c :: rest))

def readItems : Nat → Nat → Shape → Nat → List Char → Except Stop (List Json × List Char)
  | 0, _, _, _, cs => .error (.before .eofInList cs)
  | fuel + 1, depth, shape, i, cs => do
    let (item, rest) ← readValue fuel depth (shape.item i) cs
    let (more, rest) ← readListSeparator rest
    if more then
      let (items, rest) ← readItems fuel depth shape (i + 1) rest
      return (item :: items, rest)
    else return ([item], rest)

def readMembers : Nat → Nat → Shape → List Char → Except Stop (List (String × Json) × List Char)
  | 0, _, _, cs => .error (.before .eofInObject cs)
  | fuel + 1, depth, shape, cs => do
    let (key, rest) ← readKey shape cs
    let (value, rest) ← readValue fuel depth (shape.member key) rest
    let (more, rest) ← readObjectSeparator rest
    if more then
      let (fields, rest) ← readMembers fuel depth shape rest
      return ((key, value) :: fields, rest)
    else return ([(key, value)], rest)

end

def depthLimit : Nat := 127

def parseVerbatim (shape : Shape) (cs : List Char) : Except Stop Json := do
  let (value, rest) ← readValue (2 * cs.length + 1) depthLimit shape cs
  match skipSpace rest with
  | [] => return value
  | rest => throw (.after .trailingCharacters rest)

mutual

/-- Gives each repeated key its first place and its last value, at every level. -/
def uniqueKeys : Json → Json
  | .array items => .array (uniqueKeysItems items)
  | .object fields => .object (Entries.ofList (uniqueKeysFields fields))
  | .null => .null
  | .bool b => .bool b
  | .number n => .number n
  | .string s => .string s

def uniqueKeysItems : List Json → List Json
  | [] => []
  | item :: rest => uniqueKeys item :: uniqueKeysItems rest

def uniqueKeysFields : List (String × Json) → List (String × Json)
  | [] => []
  | (key, value) :: rest => (key, uniqueKeys value) :: uniqueKeysFields rest

end

def parse (text : String) : Except String Json :=
  match parseVerbatim .whole text.toList with
  | .ok value => .ok (uniqueKeys value)
  | .error stop => .error (stop.message text.toList)

mutual

def sortKeys : Json → Json
  | .array items => .array (sortKeysItems items)
  | .object fields => .object ((sortKeysFields fields).mergeSort fun a b => a.1 ≤ b.1)
  | .null => .null
  | .bool b => .bool b
  | .number n => .number n
  | .string s => .string s

def sortKeysItems : List Json → List Json
  | [] => []
  | item :: rest => sortKeys item :: sortKeysItems rest

def sortKeysFields : List (String × Json) → List (String × Json)
  | [] => []
  | (key, value) :: rest => (key, sortKeys value) :: sortKeysFields rest

end

end GraphQLClient.Json
