/-!
# Binary floats of 64 bits

The finite values only, each as a sign, a significand and a power of two. All arithmetic is exact
on natural numbers and rounds once, to the nearest value, ties to the even significand.
-/
namespace GraphQLClient

def twoPow (k : Nat) : Nat := Nat.pow 2 k

def tenPow (k : Nat) : Nat := Nat.pow 10 k

/-- The value is `significand * 2 ^ exponent` under its sign. Zero has both signs. -/
structure Binary64 where
  negative : Bool
  significand : Nat
  exponent : Int
  canonical : significand < twoPow 53 ∧ -1074 ≤ exponent ∧ exponent ≤ 971 ∧
    (twoPow 52 ≤ significand ∨ exponent = -1074)
  deriving DecidableEq, Repr

namespace Binary64

def zero (negative : Bool) : Binary64 := ⟨negative, 0, -1074, by decide⟩

instance : Inhabited Binary64 := ⟨zero false⟩

def isZero (x : Binary64) : Bool := x.significand == 0

def neg (x : Binary64) : Binary64 := { x with negative := !x.negative }

def ratio (x : Binary64) : Nat × Nat :=
  (x.significand * twoPow x.exponent.toNat, twoPow (-x.exponent).toNat)

/-- The integer nearest to `n / d`, of two the even one. -/
def roundDiv (n d : Nat) : Nat :=
  let q := n / d
  let twice := 2 * (n % d)
  if twice < d then q else if d < twice then q + 1 else q + q % 2

/-- The greatest `k` with `2 ^ k ≤ n / d`, for positive `n` and `d`. -/
def binaryExponent (n d : Nat) : Int :=
  let k : Int := (n.log2 : Int) - d.log2
  if d * twoPow k.toNat ≤ n * twoPow (-k).toNat then k else k - 1

def ofParts? (negative : Bool) (significand : Nat) (exponent : Int) : Option Binary64 :=
  if h : significand < twoPow 53 ∧ -1074 ≤ exponent ∧ exponent ≤ 971 ∧
      (twoPow 52 ≤ significand ∨ exponent = -1074) then
    some ⟨negative, significand, exponent, h⟩
  else none

/-- The value nearest to `n / d` under the sign, and `none` beyond the greatest one. -/
def ofRatio? (negative : Bool) (n d : Nat) : Option Binary64 :=
  if n = 0 then some (zero negative)
  else
    let exponent := max (-1074) (binaryExponent n d - 52)
    let significand := roundDiv (n * twoPow (-exponent).toNat) (d * twoPow exponent.toNat)
    if significand = twoPow 53 then ofParts? negative (twoPow 52) (exponent + 1)
    else ofParts? negative significand exponent

/-- The value nearest to `digits * 10 ^ exponent`. Exponents far outside the range are settled by
the number of digits alone. -/
def ofDecimal? (negative : Bool) (digits : Nat) (exponent : Int) : Option Binary64 :=
  let point := ((Nat.toDigits 10 digits).length : Int) + exponent
  if digits = 0 ∨ point < -330 then some (zero negative)
  else if 310 < point then none
  else ofRatio? negative (digits * tenPow exponent.toNat) (tenPow (-exponent).toNat)

def mul? (x y : Binary64) : Option Binary64 :=
  ofRatio? (x.negative != y.negative) (x.ratio.1 * y.ratio.1) (x.ratio.2 * y.ratio.2)

def div? (x y : Binary64) : Option Binary64 :=
  if y.isZero then none
  else ofRatio? (x.negative != y.negative) (x.ratio.1 * y.ratio.2) (x.ratio.2 * y.ratio.1)

end Binary64

/-!
## Shortest decimals

The decimal with the fewest digits that reads back to a given float, of several the nearest. The
candidates of one length are the two neighbours of the value on the grid of that length, and each is
tried by reading it back.
-/

structure Decimal where
  digits : Nat
  exponent : Int
  deriving DecidableEq, Repr

namespace Decimal

/-- The power of ten just above `n / d`: with it `p`, `10 ^ (p - 1) ≤ n / d < 10 ^ p`. -/
def pointPosition (n d : Nat) : Int :=
  let p : Int := ((Nat.toDigits 10 n).length : Int) - (Nat.toDigits 10 d).length
  if d * tenPow p.toNat ≤ n * tenPow (-p).toNat then p + 1 else p

def readsBack (x : Binary64) (c : Decimal) : Bool :=
  Binary64.ofDecimal? x.negative c.digits c.exponent == some x

/-- The best candidate of at most `length` digits, if one reads back. Of two the nearer wins, at a
tie the even one. -/
def candidate? (x : Binary64) (length : Nat) : Option Decimal :=
  let n := x.ratio.1
  let d := x.ratio.2
  let exponent := pointPosition n d - length
  let num := n * tenPow (-exponent).toNat
  let den := d * tenPow exponent.toNat
  let low : Decimal := ⟨num / den, exponent⟩
  let high : Decimal := ⟨num / den + 1, exponent⟩
  let near := if Binary64.roundDiv num den = low.digits then low else high
  let far := if near = low then high else low
  if readsBack x near then some near else if readsBack x far then some far else none

def exact (x : Binary64) : Decimal :=
  if x.exponent < 0 then ⟨x.significand * Nat.pow 5 (-x.exponent).toNat, x.exponent⟩
  else ⟨x.significand * twoPow x.exponent.toNat, 0⟩

/-- Moves trailing zeros of the digits into the exponent, at most `fuel` of them. -/
def stripZeros : Nat → Decimal → Decimal
  | 0, c => c
  | fuel + 1, c =>
    if c.digits ≠ 0 ∧ c.digits % 10 = 0 then stripZeros fuel ⟨c.digits / 10, c.exponent + 1⟩ else c

def shortest (x : Binary64) : Decimal :=
  let found := (List.range 17).findSome? fun i => candidate? x (i + 1)
  stripZeros 400 (found.getD (exact x))

end Decimal

end GraphQLClient
