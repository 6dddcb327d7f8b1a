import GraphQLClient.Schema.Error

/-!
# Resolution

A type expression is resolved by following scalar aliases from its core until a built-in scalar, an
object or an enum. The outermost expression decides whether the value may be null, and at most one
expression on the way may be a list.
-/
namespace GraphQLClient

inductive Target where
  | builtin (scalar : BuiltinScalar)
  | object (name : String)
  | enumeration (name : String)
  | void
  deriving DecidableEq, Repr

def Target.isTerminal : Target → Bool
  | .object _ => false
  | _ => true

/-- `element` names the items of a list: for a list alias those of the alias. `aliases` are the
custom scalars passed on the way, outermost first. -/
structure Resolved where
  declared : TypeRef
  wrapping : Wrapping
  target : Target
  element : Option String
  aliases : List String
  deriving DecidableEq, Repr

namespace Resolved

def isTerminal (r : Resolved) : Bool := r.target.isTerminal

def object? (r : Resolved) : Option String :=
  match r.target with
  | .object name => some name
  | _ => none

end Resolved

def TypeRef.parse (expr location : String) : Except SchemaError TypeRef :=
  (TypeExpr.parse expr).mapError (.badExpression location expr)

/-- How far the aliases of an expression have been followed. `current` is the last expression
reached, with its text and its location. -/
structure Trail where
  wrapping : Wrapping
  element : Option String
  aliases : List String
  current : TypeRef
  expr : String
  location : String

namespace Trail

def start (declared : TypeRef) (expr location : String) : Trail where
  wrapping := declared.wrapping
  element := if declared.wrapping.isList then some declared.core else none
  aliases := []
  current := declared
  expr := expr
  location := location

def finish (trail : Trail) (declared : TypeRef) (target : Target) : Resolved :=
  ⟨declared, trail.wrapping, target, trail.element, trail.aliases⟩

def scalarLocation (scalar : String) : String := "scalar " ++ scalar

/-- Goes on to the alias of the current scalar, or refuses a list inside a list. -/
def advance? (trail : Trail) (expr : String) (next : TypeRef) : Option Trail :=
  let aliases := trail.aliases ++ [trail.current.core]
  let location := scalarLocation trail.current.core
  match next.wrapping, trail.wrapping with
  | .single _, _ =>
    some { trail with aliases := aliases, current := next, expr := expr, location := location }
  | .list itemsNullable _, .single nullable =>
    some ⟨.list itemsNullable nullable, some next.core, aliases, next, expr, location⟩
  | .list _ _, .list _ _ => none

end Trail

namespace TypeTable

def maxAliases : Nat := 50

def follow (types : TypeTable) (declared : TypeRef) (expr location : String) :
    Nat → Trail → Except SchemaError Resolved
  | 0, _ => .error (.resolutionDepthExceeded declared.core maxAliases)
  | steps + 1, trail =>
    let core := trail.current.core
    match BuiltinScalar.ofName? core with
    | some scalar => .ok (trail.finish declared (.builtin scalar))
    | none =>
      match types.get? core with
      | none => .error (.unresolvable core trail.location trail.expr trail.current.coreSpan)
      | some (.object _) => .ok (trail.finish declared (.object core))
      | some (.enumeration _) => .ok (trail.finish declared (.enumeration core))
      | some (.scalar aliasExpr _) => do
        let next ← TypeRef.parse aliasExpr (Trail.scalarLocation core)
        match trail.advance? aliasExpr next with
        | some trail => follow types declared expr location steps trail
        | none => .error (.nestedList expr location)

/-- What the expression refers to. `void` refers to nothing, whatever its wrapping. -/
def resolve (types : TypeTable) (expr location : String) : Except SchemaError Resolved := do
  let declared ← TypeRef.parse expr location
  if declared.core = voidName then return ⟨declared, declared.wrapping, .void, none, []⟩
  follow types declared expr location (maxAliases + 1) (.start declared expr location)

def isTerminal (types : TypeTable) (expr : String) : Except SchemaError Bool := do
  return (← types.resolve expr expr).isTerminal

def object? (types : TypeTable) (name : String) : Option ObjectDefinition :=
  match types.get? name with
  | some (.object fields) => some fields
  | _ => none

def isEnum (types : TypeTable) (name : String) : Bool :=
  match types.get? name with
  | some (.enumeration _) => true
  | _ => false

def knows (types : TypeTable) (name : String) : Bool :=
  (BuiltinScalar.ofName? name).isSome || types.contains name

def scalarCodec? (types : TypeTable) (name : String) : Option Codec :=
  match types.get? name with
  | some (.scalar _ codec) => codec
  | _ => none

/-- The codec of the first scalar on the way that has one. -/
def codec? (types : TypeTable) (r : Resolved) : Option Codec :=
  r.aliases.findSome? types.scalarCodec?

end TypeTable

end GraphQLClient
