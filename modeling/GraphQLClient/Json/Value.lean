import GraphQLClient.Number.Binary64
import GraphQLClient.OrderedMap

/-!
# JSON values

Objects keep the order of their keys.
-/
namespace GraphQLClient

/-- A literal that fits in 64 bits, signed or not, stays an integer. -/
inductive JsonNumber where
  | int (n : Int)
  | float (x : Binary64)
  deriving DecidableEq, Repr

inductive Json where
  | null
  | bool (b : Bool)
  | number (n : JsonNumber)
  | string (s : String)
  | array (items : List Json)
  | object (fields : List (String × Json))
  deriving Repr

namespace Json

instance : Inhabited Json := ⟨.null⟩

def isNull : Json → Bool
  | .null => true
  | _ => false

def string? : Json → Option String
  | .string s => some s
  | _ => none

def array? : Json → Option (List Json)
  | .array items => some items
  | _ => none

def object? : Json → Option (List (String × Json))
  | .object fields => some fields
  | _ => none

def bool? : Json → Option Bool
  | .bool b => some b
  | _ => none

def int? : Json → Option Int
  | .number (.int n) => some n
  | _ => none

def get? (value : Json) (key : String) : Option Json :=
  value.object?.bind (Entries.get? key)

def describe : Json → String
  | .null => "null"
  | .bool _ => "a boolean"
  | .number _ => "a number"
  | .string _ => "a string"
  | .array _ => "an array"
  | .object _ => "an object"

end Json

end GraphQLClient

/-!
## Shapes of JSON text

What a reader wants of a text. Of an ignored value only the form is checked: its numbers may be of
any size, its escapes may name lone surrogates, and its brackets may nest at will.
-/
namespace GraphQLClient.Json

inductive Shape where
  | whole
  | ignored
  | list (item : Shape)
  | record (fields : List (String × Shape))

namespace Shape

def isIgnored : Shape → Bool
  | .ignored => true
  | _ => false

/-- The shape of the item at a place. A record may come as an array of its members in order. -/
def item : Shape → Nat → Shape
  | .whole, _ => .whole
  | .ignored, _ => .ignored
  | .list item, _ => item
  | .record fields, i => (fields[i]?.map Prod.snd).getD .whole

/-- The shape of the member under a key. A record ignores the keys that it does not name. -/
def member : Shape → String → Shape
  | .whole, _ => .whole
  | .ignored, _ => .ignored
  | .list _, _ => .whole
  | .record fields, key => (Entries.get? key fields).getD .ignored

/-- How many brackets may be opened inside a bracket, when `depth` may be opened around it. -/
def depthInside? (shape : Shape) (depth : Nat) : Option Nat :=
  if shape.isIgnored then some depth
  else if depth = 0 then none
  else some (depth - 1)

end Shape

end GraphQLClient.Json
