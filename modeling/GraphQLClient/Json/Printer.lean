import GraphQLClient.Json.Value
import GraphQLClient.Number.Binary64
import GraphQLClient.Text.Basic

/-!
# JSON text

The compact text of a value. Floats print with the fewest digits that read back, and never without a
fraction unless they have an exponent.
-/
namespace GraphQLClient.Json

structure FloatLayout where
  leastPoint : Int
  greatestPoint : Int

/-- `0.00001` is the least value written plainly, `1e+16` the least with a positive exponent. -/
def floatLayout : FloatLayout := ⟨-4, 16⟩

/-- With `p` the position of the decimal point relative to the first digit. -/
def layoutDecimal (layout : FloatLayout) (digits : List Char) (p : Int) : List Char :=
  if layout.leastPoint ≤ p ∧ p ≤ layout.greatestPoint then
    if p ≤ 0 then "0.".toList ++ List.replicate (-p).toNat '0' ++ digits
    else if p.toNat < digits.length then
      digits.take p.toNat ++ '.' :: digits.drop p.toNat
    else digits ++ List.replicate (p.toNat - digits.length) '0' ++ ".0".toList
  else
    let exponent := p - 1
    let fraction := match digits.drop 1 with
      | [] => []
      | more => '.' :: more
    digits.take 1 ++ fraction ++ 'e' :: (if exponent < 0 then '-' else '+') ::
      Text.digitsOf 10 exponent.natAbs

def printFloat (x : Binary64) : List Char :=
  let magnitude :=
    if x.isZero then "0.0".toList
    else
      let c := Decimal.shortest x
      let digits := Text.digitsOf 10 c.digits
      layoutDecimal floatLayout digits (digits.length + c.exponent)
  if x.negative then '-' :: magnitude else magnitude

def printInt (n : Int) : List Char :=
  if n < 0 then '-' :: Text.digitsOf 10 n.natAbs else Text.digitsOf 10 n.natAbs

def printNumber : JsonNumber → List Char
  | .int n => printInt n
  | .float x => printFloat x

/-- Escapes with a letter, and `\u00xx` for the other characters below U+0020. -/
def escapeChar (c : Char) : List Char :=
  if c = '"' then ['\\', '"']
  else if c = '\\' then ['\\', '\\']
  else if c = '\x08' then ['\\', 'b']
  else if c = '\x0c' then ['\\', 'f']
  else if c = '\n' then ['\\', 'n']
  else if c = '\r' then ['\\', 'r']
  else if c = '\t' then ['\\', 't']
  else if c.toNat < 0x20 then
    ['\\', 'u', '0', '0', Nat.digitChar (c.toNat / 16), Nat.digitChar (c.toNat % 16)]
  else [c]

def printString (cs : List Char) : List Char := '"' :: cs.flatMap escapeChar ++ ['"']

mutual

def printValue : Json → List Char
  | .null => "null".toList
  | .bool true => "true".toList
  | .bool false => "false".toList
  | .number n => printNumber n
  | .string s => printString s.toList
  | .array items => '[' :: printItems items ++ [']']
  | .object fields => '{' :: printFields fields ++ ['}']

def printItems : List Json → List Char
  | [] => []
  | [item] => printValue item
  | item :: rest => printValue item ++ ',' :: printItems rest

def printFields : List (String × Json) → List Char
  | [] => []
  | [(key, value)] => printString key.toList ++ ':' :: printValue value
  | (key, value) :: rest =>
    printString key.toList ++ ':' :: printValue value ++ ',' :: printFields rest

end

def text (value : Json) : String := String.ofList (printValue value)

end GraphQLClient.Json
