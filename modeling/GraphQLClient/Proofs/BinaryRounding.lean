import GraphQLClient.Number.Binary64
import Mathlib.Algebra.Order.Field.Power
import Mathlib.Data.Int.Log
import Mathlib.Data.Rat.Floor
import Mathlib.Tactic.Linarith

/-!
# Rounding to floats

The nearest float of a quotient depends on nothing but its value, and that of a float's own value is
the float.
-/
namespace GraphQLClient

@[simp] theorem twoPow_eq (k : Nat) : twoPow k = 2 ^ k := rfl

@[simp] theorem tenPow_eq (k : Nat) : tenPow k = 10 ^ k := rfl

theorem twoPow_pos (k : Nat) : 0 < twoPow k := Nat.pow_pos (by decide)

theorem tenPow_pos (k : Nat) : 0 < tenPow k := Nat.pow_pos (by decide)

theorem twoPow_le {a b : Nat} (h : a ≤ b) : twoPow a ≤ twoPow b :=
  Nat.pow_le_pow_right (by decide) h

/-- A power of two with its exponent split into a numerator and a denominator. -/
theorem two_zpow_eq_div (k : ℤ) : (2 : ℚ) ^ k = 2 ^ k.toNat / 2 ^ (-k).toNat := by
  rcases le_total 0 k with h | h
  · rw [show (-k).toNat = 0 by omega, pow_zero, div_one, ← zpow_natCast, Int.toNat_of_nonneg h]
  · rw [show k.toNat = 0 by omega, pow_zero, one_div, ← zpow_natCast, ← zpow_neg,
      Int.toNat_of_nonneg (by omega), neg_neg]

theorem two_zpow_sub (a b : Nat) : (2 : ℚ) ^ ((a : ℤ) - b) = 2 ^ a / 2 ^ b := by
  rw [zpow_sub₀ (by norm_num), zpow_natCast, zpow_natCast]

namespace Binary64

variable {n d : Nat}

theorem roundDiv_scale (n d : Nat) {k : Nat} (hk : 0 < k) :
    roundDiv (n * k) (d * k) = roundDiv n d := by
  have hmod : n * k % (d * k) = n % d * k := Nat.mul_mod_mul_right k n d
  have hdiv : n * k / (d * k) = n / d := Nat.mul_div_mul_right n d hk
  have htwice : 2 * (n % d * k) = 2 * (n % d) * k := by rw [mul_assoc]
  simp only [roundDiv, hmod, hdiv, htwice, Nat.mul_lt_mul_right hk]

theorem roundDiv_exact (n : Nat) (hd : 0 < d) : roundDiv (n * d) d = n := by
  simp [roundDiv, Nat.mul_div_cancel n hd, hd]

theorem twoPow_le_iff (hd : 0 < d) (k : ℤ) :
    d * twoPow k.toNat ≤ n * twoPow (-k).toNat ↔ (2 : ℚ) ^ k ≤ n / d := by
  have hpos : (0 : ℚ) < 2 ^ (-k).toNat := by positivity
  have hd' : (0 : ℚ) < d := by exact_mod_cast hd
  rw [two_zpow_eq_div, div_le_div_iff₀ hpos hd', twoPow_eq, twoPow_eq, mul_comm d]
  exact_mod_cast Iff.rfl

/-- The estimate from the sizes of `n` and `d` is off by one at most, which one test settles. -/
theorem binaryExponent_eq_log (hn : 0 < n) (hd : 0 < d) :
    binaryExponent n d = Int.log 2 ((n : ℚ) / d) := by
  have hq : (0 : ℚ) < n / d := by positivity
  have hd' : (0 : ℚ) < d := by exact_mod_cast hd
  have hn₁ : (2 : ℚ) ^ n.log2 ≤ n := by exact_mod_cast Nat.log2_self_le hn.ne'
  have hn₂ : (n : ℚ) < 2 ^ (n.log2 + 1) := by exact_mod_cast Nat.lt_log2_self
  have hd₁ : (2 : ℚ) ^ d.log2 ≤ d := by exact_mod_cast Nat.log2_self_le hd.ne'
  have hd₂ : (d : ℚ) < 2 ^ (d.log2 + 1) := by exact_mod_cast Nat.lt_log2_self
  have hlower : (n.log2 : ℤ) - (d.log2 + 1 : ℕ) ≤ Int.log 2 ((n : ℚ) / d) := by
    rw [← Int.zpow_le_iff_le_log (by norm_num) hq]
    push_cast only [Nat.cast_ofNat]
    rw [two_zpow_sub, div_le_div_iff₀ (by positivity) hd']
    exact mul_le_mul hn₁ hd₂.le hd'.le (by positivity)
  have hupper : Int.log 2 ((n : ℚ) / d) < (n.log2 + 1 : ℕ) - (d.log2 : ℤ) := by
    rw [← Int.lt_zpow_iff_log_lt (by norm_num) hq]
    push_cast only [Nat.cast_ofNat]
    rw [two_zpow_sub, div_lt_div_iff₀ hd' (by positivity)]
    exact mul_lt_mul hn₂ hd₁ (by positivity) (by positivity)
  have htest := (twoPow_le_iff (n := n) hd ((n.log2 : ℤ) - d.log2)).trans
    (Int.zpow_le_iff_le_log (by norm_num) hq)
  generalize Int.log 2 ((n : ℚ) / d) = l at *
  simp only [binaryExponent]
  split_ifs with h
  · have hle := htest.mp h
    omega
  · have hlt : ¬ (n.log2 : ℤ) - d.log2 ≤ l := fun hle => h (htest.mpr hle)
    omega

theorem binaryExponent_scale (hn : 0 < n) (hd : 0 < d) {k : Nat} (hk : 0 < k) :
    binaryExponent (n * k) (d * k) = binaryExponent n d := by
  have hk' : (k : ℚ) ≠ 0 := by exact_mod_cast hk.ne'
  rw [binaryExponent_eq_log (Nat.mul_pos hn hk) (Nat.mul_pos hd hk), binaryExponent_eq_log hn hd]
  push_cast
  rw [mul_div_mul_right _ _ hk']

/-- Rounding sees the value of a quotient only. -/
theorem ofRatio?_scale (negative : Bool) (n : Nat) (hd : 0 < d) {k : Nat} (hk : 0 < k) :
    ofRatio? negative (n * k) (d * k) = ofRatio? negative n d := by
  rcases Nat.eq_zero_or_pos n with rfl | hn
  · simp [ofRatio?]
  · have hne : n * k ≠ 0 := (Nat.mul_pos hn hk).ne'
    simp only [ofRatio?, hne, hn.ne', if_false, binaryExponent_scale hn hd hk]
    rw [Nat.mul_right_comm n, Nat.mul_right_comm d, roundDiv_scale _ _ hk]

theorem binaryExponent_ratio (x : Binary64) (hx : 0 < x.significand) :
    binaryExponent x.ratio.1 x.ratio.2 = x.significand.log2 + x.exponent := by
  have hn : 0 < x.ratio.1 := Nat.mul_pos hx (twoPow_pos _)
  have hd : 0 < x.ratio.2 := twoPow_pos _
  rw [binaryExponent_eq_log hn hd]
  have hvalue : (x.ratio.1 : ℚ) / x.ratio.2 = x.significand * 2 ^ x.exponent := by
    rw [two_zpow_eq_div, ← mul_div_assoc]
    simp [ratio]
  have hs₁ : (2 : ℚ) ^ x.significand.log2 ≤ x.significand := by
    exact_mod_cast Nat.log2_self_le hx.ne'
  have hs₂ : (x.significand : ℚ) < 2 ^ (x.significand.log2 + 1) := by
    exact_mod_cast Nat.lt_log2_self
  have hpos : (0 : ℚ) < x.significand * 2 ^ x.exponent := by positivity
  have hpow : ∀ k : ℕ, (2 : ℚ) ^ ((k : ℤ) + x.exponent) = 2 ^ k * 2 ^ x.exponent := by
    intro k
    rw [zpow_add₀ (by norm_num), zpow_natCast]
  have hlower : (x.significand.log2 : ℤ) + x.exponent ≤
      Int.log 2 ((x.significand : ℚ) * 2 ^ x.exponent) := by
    rw [← Int.zpow_le_iff_le_log (by norm_num) hpos]
    push_cast only [Nat.cast_ofNat]
    rw [hpow]
    exact mul_le_mul_of_nonneg_right hs₁ (by positivity)
  have hupper : Int.log 2 ((x.significand : ℚ) * 2 ^ x.exponent) <
      ((x.significand.log2 + 1 : ℕ) : ℤ) + x.exponent := by
    rw [← Int.lt_zpow_iff_log_lt (by norm_num) hpos]
    push_cast only [Nat.cast_ofNat]
    rw [hpow]
    exact mul_lt_mul_of_pos_right hs₂ (by positivity)
  rw [hvalue]
  generalize Int.log 2 ((x.significand : ℚ) * 2 ^ x.exponent) = l at *
  omega

@[simp] theorem ofParts?_self (x : Binary64) :
    ofParts? x.negative x.significand x.exponent = some x := by
  simp only [ofParts?, x.canonical, and_self, dite_true]

theorem eq_zero (x : Binary64) (h : x.significand = 0) : x = zero x.negative := by
  obtain ⟨negative, significand, exponent, hlt, hleast, hgreatest, hnormal⟩ := x
  subst h
  have hexponent : exponent = -1074 := by
    rcases hnormal with h | h
    · exact absurd h (Nat.not_le.mpr (twoPow_pos 52))
    · exact h
  subst hexponent
  rfl

theorem ofRatio?_ratio (x : Binary64) : ofRatio? x.negative x.ratio.1 x.ratio.2 = some x := by
  rcases Nat.eq_zero_or_pos x.significand with hzero | hpos
  · have hn : x.ratio.1 = 0 := by simp [ratio, hzero]
    rw [ofRatio?, if_pos hn, ← eq_zero x hzero]
  · have hn : x.ratio.1 ≠ 0 := (Nat.mul_pos hpos (twoPow_pos _)).ne'
    obtain ⟨hlt, hleast, hgreatest, hnormal⟩ := x.canonical
    have hexponent : max (-1074) ((x.significand.log2 : ℤ) + x.exponent - 52) = x.exponent := by
      have hlog : x.significand.log2 < 53 := (Nat.log2_lt hpos.ne').mpr hlt
      rcases hnormal with hbig | hsubnormal
      · have hlog' : 52 ≤ x.significand.log2 := (Nat.le_log2 hpos.ne').mpr hbig
        omega
      · omega
    have hround : roundDiv (x.ratio.1 * twoPow (-x.exponent).toNat)
        (x.ratio.2 * twoPow x.exponent.toNat) = x.significand := by
      have hswap : x.ratio.1 * twoPow (-x.exponent).toNat =
          x.significand * (x.ratio.2 * twoPow x.exponent.toNat) := by
        simp only [ratio]
        rw [mul_assoc, mul_comm (twoPow x.exponent.toNat)]
      rw [hswap]
      exact roundDiv_exact _ (Nat.mul_pos (twoPow_pos _) (twoPow_pos _))
    simp only [ofRatio?, hn, if_false, binaryExponent_ratio x hpos, hexponent, hround, hlt.ne,
      ofParts?_self]

end Binary64

end GraphQLClient
