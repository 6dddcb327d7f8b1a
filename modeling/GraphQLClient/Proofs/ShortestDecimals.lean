import GraphQLClient.Number.Binary64
import GraphQLClient.Proofs.BinaryRounding

/-!
# Shortest decimals read back

The decimal chosen for a float is one that reads as the float: a candidate that was tried, or
failing these all digits of the value.
-/
namespace GraphQLClient

theorem length_toDigits_mul_ten {n : Nat} (hn : 0 < n) :
    (Nat.toDigits 10 (n * 10)).length = (Nat.toDigits 10 n).length + 1 := by
  have happend :=
    Nat.toDigits_append_toDigits (b := 10) (n := n) (d := 0) (by decide) hn (by decide)
  rw [Nat.add_zero, mul_comm] at happend
  rw [← happend, List.length_append, Nat.toDigits_zero]
  rfl

theorem lt_ten_pow_length (n : Nat) : n < 10 ^ (Nat.toDigits 10 n).length :=
  (Nat.length_toDigits_le_iff (by decide) Nat.length_toDigits_pos).mp (Nat.le_refl _)

theorem length_toDigits_le {n k : Nat} (hk : 0 < k) (h : n < 10 ^ k) :
    (Nat.toDigits 10 n).length ≤ k :=
  (Nat.length_toDigits_le_iff (by decide) hk).mpr h

namespace Binary64

/-- A decimal in range is rounded as the quotient that it is. -/
theorem ofDecimal?_eq_ofRatio? {negative : Bool} {digits : Nat} {exponent : ℤ} (hd : digits ≠ 0)
    (hlower : -330 ≤ ((Nat.toDigits 10 digits).length : ℤ) + exponent)
    (hupper : ((Nat.toDigits 10 digits).length : ℤ) + exponent ≤ 310) :
    ofDecimal? negative digits exponent =
      ofRatio? negative (digits * tenPow exponent.toNat) (tenPow (-exponent).toNat) := by
  have hsmall : ¬ (digits = 0 ∨ ((Nat.toDigits 10 digits).length : ℤ) + exponent < -330) := by
    rintro (h | h)
    · exact hd h
    · omega
  have hlarge : ¬ 310 < ((Nat.toDigits 10 digits).length : ℤ) + exponent := by omega
  simp only [ofDecimal?, if_neg hsmall, if_neg hlarge]

/-- A trailing zero counts in the exponent. -/
theorem ofDecimal?_mul_ten (negative : Bool) (digits : Nat) (exponent : ℤ) :
    ofDecimal? negative (digits * 10) exponent = ofDecimal? negative digits (exponent + 1) := by
  rcases Nat.eq_zero_or_pos digits with rfl | hpos
  · simp [ofDecimal?]
  have hratio : ofRatio? negative (digits * 10 * tenPow exponent.toNat) (tenPow (-exponent).toNat) =
      ofRatio? negative (digits * tenPow (exponent + 1).toNat)
        (tenPow (-(exponent + 1)).toNat) := by
    rcases Int.lt_or_le exponent 0 with hneg | hnonneg
    · have hden : tenPow (-exponent).toNat = tenPow (-(exponent + 1)).toNat * 10 := by
        rw [tenPow_eq, tenPow_eq, ← pow_succ]
        congr 1
        omega
      have hexponent : exponent.toNat = 0 ∧ (exponent + 1).toNat = 0 := by omega
      rw [hden, hexponent.1, hexponent.2, Nat.mul_right_comm]
      exact ofRatio?_scale negative _ (tenPow_pos _) (by decide)
    · have hnum : tenPow (exponent + 1).toNat = 10 * tenPow exponent.toNat := by
        rw [tenPow_eq, tenPow_eq, ← pow_succ']
        congr 1
        omega
      rw [hnum, Nat.mul_assoc, show (-exponent).toNat = 0 by omega,
        show (-(exponent + 1)).toNat = 0 by omega]
  have hlength := length_toDigits_mul_ten hpos
  simp only [ofDecimal?, hlength, hratio]
  have hpoint : (((Nat.toDigits 10 digits).length + 1 : ℕ) : ℤ) + exponent =
      (Nat.toDigits 10 digits).length + (exponent + 1) := by
    push_cast
    ring
  have hzero : digits * 10 = 0 ↔ digits = 0 := by omega
  rw [hpoint]
  simp only [hzero]

theorem ofDecimal?_mul_tenPow (negative : Bool) (digits k : Nat) (exponent : ℤ) :
    ofDecimal? negative (digits * tenPow k) exponent =
      ofDecimal? negative digits (exponent + k) := by
  induction k generalizing exponent with
  | zero => simp
  | succ k ih =>
    have hsucc : digits * tenPow (k + 1) = digits * tenPow k * 10 := by
      rw [tenPow_eq, tenPow_eq, pow_succ, Nat.mul_assoc]
    rw [hsucc, ofDecimal?_mul_ten, ih]
    congr 1
    push_cast
    ring

def abs (x : Binary64) : Binary64 := { x with negative := false }

theorem ofParts?_abs (negative : Bool) (significand : Nat) (exponent : ℤ) :
    ofParts? false significand exponent = (ofParts? negative significand exponent).map abs := by
  unfold ofParts?
  split_ifs
  · rfl
  · rfl

theorem ofRatio?_abs (negative : Bool) (n d : Nat) :
    ofRatio? false n d = (ofRatio? negative n d).map abs := by
  simp only [ofRatio?]
  split_ifs
  · rfl
  · exact ofParts?_abs negative _ _
  · exact ofParts?_abs negative _ _

theorem ofDecimal?_abs (negative : Bool) (digits : Nat) (exponent : ℤ) :
    ofDecimal? false digits exponent = (ofDecimal? negative digits exponent).map abs := by
  simp only [ofDecimal?]
  split_ifs
  · rfl
  · rfl
  · exact ofRatio?_abs negative _ _

end Binary64

namespace Decimal

open Binary64

/-- The decimal reads as the float, whatever sign is put before both. -/
def Names (c : Decimal) (x : Binary64) : Prop :=
  ofDecimal? x.negative c.digits c.exponent = some x

variable {x : Binary64} {c : Decimal}

theorem stripZeros_names (fuel : Nat) (h : c.Names x) : (stripZeros fuel c).Names x := by
  induction fuel generalizing c with
  | zero => exact h
  | succ fuel ih =>
    simp only [stripZeros]
    split_ifs with hzero
    · refine ih ?_
      have hdigits : c.digits / 10 * 10 = c.digits := by omega
      change ofDecimal? x.negative (c.digits / 10) (c.exponent + 1) = some x
      rw [← ofDecimal?_mul_ten, hdigits]
      exact h
    · exact h

theorem candidate?_names {length : Nat} (h : candidate? x length = some c) : c.Names x := by
  simp only [candidate?] at h
  split_ifs at h with hnear hfar
  all_goals
    cases h
    exact beq_iff_eq.mp ‹_›

/-- With `k` digits behind the point, the digits of `s / 2 ^ k` number about `k`. -/
theorem exact_point {s k : Nat} (hs : s ≠ 0) (hs' : s < 10 ^ 16) (hk : k ≤ 1074) :
    k ≤ (Nat.toDigits 10 (s * 5 ^ k)).length + 330 ∧
      (Nat.toDigits 10 (s * 5 ^ k)).length ≤ 16 + k := by
  have htwo : (2 : ℕ) ^ k * 5 ^ k = 10 ^ k := (mul_pow 2 5 k).symm
  constructor
  · by_contra hlt
    have hdigits := lt_ten_pow_length (s * 5 ^ k)
    have hfive : 5 ^ k ≤ s * 5 ^ k := Nat.le_mul_of_pos_left _ (Nat.pos_of_ne_zero hs)
    have htiny : (2 : ℕ) ^ k < 10 ^ 331 :=
      calc (2 : ℕ) ^ k ≤ 2 ^ 1074 := Nat.pow_le_pow_right (by decide) hk
        _ < 10 ^ 331 := by decide +kernel
    have hsplit : 10 ^ (Nat.toDigits 10 (s * 5 ^ k)).length * 10 ^ 331 ≤ 10 ^ k := by
      rw [← pow_add]
      exact Nat.pow_le_pow_right (by decide) (by omega)
    have hcontra : 10 ^ k < 10 ^ k :=
      calc (10 : ℕ) ^ k = 5 ^ k * 2 ^ k := by rw [← htwo, mul_comm]
        _ < 10 ^ (Nat.toDigits 10 (s * 5 ^ k)).length * 10 ^ 331 :=
          Nat.mul_lt_mul'' (hfive.trans_lt hdigits) htiny
        _ ≤ 10 ^ k := hsplit
    exact Nat.lt_irrefl _ hcontra
  · refine length_toDigits_le (by omega) ?_
    rw [pow_add]
    refine Nat.mul_lt_mul_of_lt_of_le hs' (Nat.pow_le_pow_left (by decide) k) ?_
    positivity

theorem exact_names (hx : x.significand ≠ 0) : (exact x).Names x := by
  obtain ⟨hlt, hleast, hgreatest, -⟩ := x.canonical
  have hratio := ofRatio?_ratio x
  have hlt' : x.significand < 2 ^ 53 := hlt
  unfold Names exact
  split_ifs with hneg
  · obtain ⟨k, hk⟩ : ∃ k : ℕ, (-x.exponent).toNat = k := ⟨_, rfl⟩
    have hexponent : x.exponent.toNat = 0 := by omega
    have hsmall : x.significand < 10 ^ 16 := hlt'.trans (by norm_num)
    obtain ⟨hlower, hupper⟩ := exact_point (k := k) hx hsmall (by omega)
    have hdigits : x.significand * 5 ^ k ≠ 0 := Nat.mul_ne_zero hx (by positivity)
    change ofDecimal? x.negative (x.significand * 5 ^ (-x.exponent).toNat) x.exponent = some x
    rw [hk, ofDecimal?_eq_ofRatio? hdigits (by omega) (by omega), hk, hexponent]
    have hten : tenPow k = twoPow k * 5 ^ k := mul_pow 2 5 k
    have hone : x.significand * 5 ^ k * tenPow 0 = x.significand * 5 ^ k := by simp
    rw [hone, hten, ofRatio?_scale _ _ (twoPow_pos _) (by positivity), ← hratio]
    simp [ratio, hexponent, hk]
  · have hdigits : x.significand * twoPow x.exponent.toNat ≠ 0 :=
      Nat.mul_ne_zero hx (twoPow_pos _).ne'
    have hpow : twoPow x.exponent.toNat ≤ twoPow 971 := twoPow_le (by omega)
    have hbound : x.significand * twoPow x.exponent.toNat < 10 ^ 309 :=
      calc x.significand * twoPow x.exponent.toNat
          < twoPow 53 * twoPow 971 := Nat.mul_lt_mul_of_lt_of_le hlt hpow (twoPow_pos _)
        _ < 10 ^ 309 := by decide +kernel
    have hlength := length_toDigits_le (by decide) hbound
    change ofDecimal? x.negative (x.significand * twoPow x.exponent.toNat) 0 = some x
    rw [ofDecimal?_eq_ofRatio? hdigits (by omega) (by omega), ← hratio]
    have hexponent : (-x.exponent).toNat = 0 := by omega
    simp [ratio, hexponent]

/-- The decimal with which a float is printed reads as the float. -/
theorem shortest_names (hx : x.isZero = false) : (shortest x).Names x := by
  have hne : x.significand ≠ 0 := by simpa [isZero] using hx
  refine stripZeros_names 400 ?_
  cases hfound : (List.range 17).findSome? fun i => candidate? x (i + 1) with
  | none => exact exact_names hne
  | some c =>
    obtain ⟨i, -, hi⟩ := List.exists_of_findSome?_eq_some hfound
    exact candidate?_names hi

end Decimal

end GraphQLClient
