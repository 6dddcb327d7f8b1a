import GraphQLClient.Number.Binary64
import GraphQLClient.Selection.Basic
import GraphQLClient.Text.Basic

/-!
# Selection texts

Selections as callers write them.
-/
namespace GraphQLClient.SelectionText

/-!
## Tokens

Identifiers, numbers, quoted texts and single marks, with blanks between them. Characters outside
ASCII count as letters. `r#` in front of an identifier keeps it from being read as a word of its
own.
-/

inductive Token where
  | ident (raw : Bool) (name : List Char)
  | int (n : Nat)
  | float (x : Binary64)
  | text (cs : List Char)
  | mark (c : Char)
  deriving DecidableEq, Repr

def isLetterStart (c : Char) : Bool := Text.isNameStart c || (0x80 ≤ c.toNat && !Text.isBlank c)

def isLetter (c : Char) : Bool := Text.isNameChar c || (0x80 ≤ c.toNat && !Text.isBlank c)

def isMark (c : Char) : Bool := "$:,-()[]\x7b\x7d".toList.contains c

def simpleEscape? : Char → Option Char
  | 'n' => some '\n'
  | 'r' => some '\r'
  | 't' => some '\t'
  | '0' => some (Char.ofNat 0)
  | '\\' => some '\\'
  | '\'' => some '\''
  | '"' => some '"'
  | _ => none

def isGap (c : Char) : Bool := c == ' ' || c == '\n' || c == '\t' || c == '\r'

/-- Where a reader of a quoted text stands: between characters, perhaps behind a backslash that
ended a line, or inside a braced code point. -/
inductive TextMode where
  | between (dropGap : Bool)
  | braced (n : Nat)
  deriving DecidableEq, Repr

def prepend (c : Char) : Option (List Char × List Char) → Option (List Char × List Char)
  | none => none
  | some (cs, rest) => some (c :: cs, rest)

/-- Reads up to the closing quote. A backslash at the end of a line drops the gap after it. -/
def readText? : TextMode → List Char → Option (List Char × List Char)
  | _, [] => none
  | .braced n, c :: rest =>
    if c = '}' then prepend (Char.ofNat n) (readText? (.between false) rest)
    else if c = '_' then readText? (.braced n) rest
    else
      match Text.hexDigit? c with
      | some d => readText? (.braced (n * 16 + d)) rest
      | none => none
  | .between dropGap, c :: rest =>
    if dropGap && isGap c then readText? (.between true) rest
    else if c = '"' then some ([], rest)
    else if c = '\\' then
      match rest with
      | [] => none
      | '\n' :: more => readText? (.between true) more
      | 'u' :: '{' :: more => readText? (.braced 0) more
      | 'x' :: a :: b :: more =>
        match Text.hexDigit? a, Text.hexDigit? b with
        | some high, some low =>
          prepend (Char.ofNat (high * 16 + low)) (readText? (.between false) more)
        | _, _ => none
      | e :: more =>
        match simpleEscape? e with
        | some c => prepend c (readText? (.between false) more)
        | none => none
    else prepend c (readText? (.between false) rest)

/-- The number of the digits in front, between which underscores may stand, with their count. -/
def readDigits (radix : Nat) (n count : Nat) : List Char → Nat × Nat × List Char
  | [] => (n, count, [])
  | c :: rest =>
    if c = '_' then readDigits radix n count rest
    else
      match Text.digit? radix c with
      | some d => readDigits radix (n * radix + d) (count + 1) rest
      | none => (n, count, c :: rest)

def readExponent? : List Char → Option (Int × List Char)
  | [] => none
  | e :: rest =>
    if e = 'e' ∨ e = 'E' then
      let (negative, digits) := match rest with
        | '+' :: more => (false, more)
        | '-' :: more => (true, more)
        | _ => (false, rest)
      match readDigits 10 0 0 digits with
      | (_, 0, _) => none
      | (n, _, left) => some (if negative then -n else n, left)
    else none

/-- Takes off the letters of a type name. Those of a float make any number a float. -/
def endNumber (digits : Nat) (exponent : Option Int) (rest : List Char) :
    Option (Token × List Char) :=
  let suffixed := "f32".toList.isPrefixOf rest || "f64".toList.isPrefixOf rest
  let left := rest.dropWhile isLetter
  match exponent, suffixed with
  | none, false => some (.int digits, left)
  | _, _ => (Binary64.ofDecimal? false digits (exponent.getD 0)).map fun x => (.float x, left)

/-- A point belongs to the number unless a name or another point follows. -/
def readFraction? : List Char → Option (List Char)
  | '.' :: rest =>
    match rest with
    | [] => some []
    | c :: _ => if c = '.' ∨ isLetterStart c then none else some rest
  | _ => none

def readDecimal (cs : List Char) : Option (Token × List Char) :=
  let (whole, _, rest) := readDigits 10 0 0 cs
  match readFraction? rest with
  | some behind =>
    let (digits, places, rest) := readDigits 10 whole 0 behind
    match readExponent? rest with
    | some (exponent, rest) => endNumber digits (some (exponent - places)) rest
    | none => endNumber digits (some (-places)) rest
  | none =>
    match readExponent? rest with
    | some (exponent, rest) => endNumber whole (some exponent) rest
    | none => endNumber whole none rest

def readNumber : List Char → Option (Token × List Char)
  | '0' :: 'x' :: rest => readRadix 16 rest
  | '0' :: 'o' :: rest => readRadix 8 rest
  | '0' :: 'b' :: rest => readRadix 2 rest
  | cs => readDecimal cs
where
  readRadix (radix : Nat) (cs : List Char) : Option (Token × List Char) :=
    let (n, _, rest) := readDigits radix 0 0 cs
    some (.int n, rest.dropWhile isLetter)

def readToken? : List Char → Option (Token × List Char)
  | [] => none
  | 'r' :: '#' :: rest =>
    some (.ident true (rest.takeWhile isLetter), rest.dropWhile isLetter)
  | c :: rest =>
    if isLetterStart c then
      some (.ident false (c :: rest.takeWhile isLetter), rest.dropWhile isLetter)
    else if c.isDigit then readNumber (c :: rest)
    else if c = '"' then
      (readText? (.between false) rest).map fun (cs, left) => (.text cs, left)
    else if isMark c then some (.mark c, rest)
    else none

/-- All tokens; each takes at least one character, so the length of the text is fuel enough. -/
def scan? : Nat → List Char → Option (List Token)
  | 0, cs => if (Text.trimLeft cs).isEmpty then some [] else none
  | fuel + 1, cs =>
    match Text.trimLeft cs with
    | [] => some []
    | c :: rest => do
      let (token, left) ← readToken? (c :: rest)
      return token :: (← scan? fuel left)

def tokens? (cs : List Char) : Option (List Token) := scan? cs.length cs

/-!
## Selections

Selections as they are written by hand: `posts(first: 10, by: $user) { title }`. Commas between
fields may be left out, and one may stand at the end of any list. A variable is read as the text
that names it.
-/

def skipComma : List Token → List Token
  | .mark ',' :: rest => rest
  | tokens => tokens

/-- Integers lie within 64 bits, and the least of them cannot be written. -/
def integer? (negative : Bool) (n : Nat) : Option Json :=
  if n < Text.signedLimit then some (.number (.int (if negative then -n else n))) else none

def word? (name : List Char) : Option Json :=
  match String.ofList name with
  | "null" => some .null
  | "true" => some (.bool true)
  | "false" => some (.bool false)
  | _ => none

mutual

def readValue? : Nat → List Token → Option (Json × List Token)
  | 0, _ => none
  | fuel + 1, tokens =>
    match tokens with
    | .mark '$' :: .ident _ name :: rest => some (.string (String.ofList ('$' :: name)), rest)
    | .mark '[' :: rest => do
      let (items, rest) ← readItems? fuel rest
      return (.array items, rest)
    | .mark '{' :: rest => do
      let (entries, rest) ← readEntries? fuel '}' rest
      return (.object (Entries.ofList entries), rest)
    | .mark '-' :: .int n :: rest => do return (← integer? true n, rest)
    | .mark '-' :: .float x :: rest => some (.number (.float x.neg), rest)
    | .int n :: rest => do return (← integer? false n, rest)
    | .float x :: rest => some (.number (.float x), rest)
    | .text cs :: rest => some (.string (String.ofList cs), rest)
    | .ident false name :: rest => do return (← word? name, rest)
    | _ => none

def readItems? : Nat → List Token → Option (List Json × List Token)
  | 0, _ => none
  | fuel + 1, tokens =>
    match tokens with
    | .mark ']' :: rest => some ([], rest)
    | _ => do
      let (item, rest) ← readValue? fuel tokens
      match rest with
      | .mark ',' :: rest =>
        let (items, rest) ← readItems? fuel rest
        return (item :: items, rest)
      | .mark ']' :: rest => return ([item], rest)
      | _ => none

def readEntries? : Nat → Char → List Token → Option (List (String × Json) × List Token)
  | 0, _, _ => none
  | fuel + 1, closing, tokens =>
    match tokens with
    | .ident _ name :: .mark ':' :: rest => do
      let (value, rest) ← readValue? fuel rest
      match rest with
      | .mark c :: rest =>
        if c = ',' then
          let (entries, rest) ← readEntries? fuel closing rest
          return ((String.ofList name, value) :: entries, rest)
        else if c = closing then return ([(String.ofList name, value)], rest)
        else none
      | _ => none
    | .mark c :: rest => if c = closing then some ([], rest) else none
    | _ => none

end

/-- Arguments in parentheses; an empty pair of parentheses is an empty object. -/
def readArguments? (fuel : Nat) : List Token → Option (Option Json × List Token)
  | .mark '(' :: rest => do
    let (entries, rest) ← readEntries? fuel ')' rest
    return (some (.object (Entries.ofList entries)), rest)
  | tokens => some (none, tokens)

def readNodes? : Nat → List Token → Option (List Node × List Token)
  | 0, _ => none
  | fuel + 1, tokens =>
    match tokens with
    | .ident _ name :: rest => do
      let key := String.ofList name
      let (arguments, rest) ← readArguments? fuel rest
      match rest with
      | .mark '{' :: rest =>
        let (children, rest) ← readNodes? fuel rest
        match children, rest with
        | _ :: _, .mark '}' :: rest =>
          let (nodes, rest) ← readNodes? fuel (skipComma rest)
          return (.block key arguments children :: nodes, rest)
        | _, _ => none
      | _ =>
        let (nodes, rest) ← readNodes? fuel (skipComma rest)
        return (.leaf key arguments :: nodes, rest)
    | _ => some ([], tokens)

/-- The nodes of a whole text, `none` when it is no selection. No step passes a token twice, and of
two steps one at least takes a token. -/
def read? (text : String) : Option (List Node) := do
  let tokens ← tokens? text.toList
  match ← readNodes? (2 * tokens.length + 2) tokens with
  | (nodes, []) => return nodes
  | _ => none

end GraphQLClient.SelectionText
