import GraphQLClient.Http.Retry
import Mathlib.Algebra.Order.Ring.Nat
import Mathlib.Tactic.Common

/-!
# Waits that double

The wait before a retry is the base delay times a power of two, up to the largest word and the
longest duration. It is what the words of a clock come to, none of which wraps on the way.
-/
namespace GraphQLClient.Http

section Words

variable {n : Nat}

theorem word32?_of_lt (h : n < UInt32.size) : ∃ w, word32? n = some w ∧ w.toNat = n :=
  ⟨.ofNat n, if_pos h, UInt32.toNat_ofNat_of_lt' h⟩

theorem word64?_of_lt (h : n < UInt64.size) : ∃ w, word64? n = some w ∧ w.toNat = n :=
  ⟨.ofNat n, if_pos h, UInt64.toNat_ofNat_of_lt' h⟩

theorem saturatingSub_toNat (a b : UInt32) : (saturatingSub a b).toNat = a.toNat - b.toNat := by
  unfold saturatingSub
  split_ifs with h
  · exact UInt32.toNat_sub_of_le a b h
  · rw [UInt32.le_iff_toNat_le] at h
    exact (Nat.sub_eq_zero_of_le (by omega)).symm

theorem checkedPow?_of_lt {base : UInt32} (h : base.toNat ^ n < UInt32.size) :
    ∃ w, checkedPow? base n = some w ∧ w.toNat = base.toNat ^ n := by
  induction n with
  | zero => exact ⟨1, rfl, rfl⟩
  | succ n ih =>
    have hfits : base.toNat ^ n < UInt32.size := by
      by_cases hzero : base.toNat = 0
      · calc base.toNat ^ n
            ≤ 1 ^ n := Nat.pow_le_pow_left (by omega) n
          _ = 1 := Nat.one_pow n
          _ < UInt32.size := by decide
      · exact Nat.lt_of_le_of_lt (Nat.pow_le_pow_right (Nat.pos_of_ne_zero hzero) (Nat.le_succ n)) h
    obtain ⟨w, hw, hvalue⟩ := ih hfits
    rw [Nat.pow_succ] at h ⊢
    obtain ⟨next, hnext, hproduct⟩ := word32?_of_lt h
    refine ⟨next, ?_, hproduct⟩
    rw [checkedPow?, hw, ← hnext, ← hvalue]
    rfl

theorem checkedPow?_of_le {base : UInt32} (h : UInt32.size ≤ base.toNat ^ n) :
    checkedPow? base n = none := by
  induction n with
  | zero =>
    rw [Nat.pow_zero] at h
    exact absurd h (by decide)
  | succ n ih =>
    by_cases hfits : base.toNat ^ n < UInt32.size
    · obtain ⟨w, hw, hvalue⟩ := checkedPow?_of_lt hfits
      rw [checkedPow?, hw, Option.bind_eq_bind, Option.bind_some, hvalue, ← Nat.pow_succ]
      exact if_neg (Nat.not_lt.mpr h)
    · rw [checkedPow?, ih (Nat.le_of_not_lt hfits)]
      rfl

theorem saturatingPow_toNat (base exponent : UInt32) :
    (saturatingPow base exponent).toNat = min (base.toNat ^ exponent.toNat) (2 ^ 32 - 1) := by
  have hsize : UInt32.size = 2 ^ 32 := rfl
  unfold saturatingPow
  by_cases hfits : base.toNat ^ exponent.toNat < UInt32.size
  · obtain ⟨w, hw, hvalue⟩ := checkedPow?_of_lt hfits
    rw [hw, Option.getD_some, hvalue]
    omega
  · rw [checkedPow?_of_le (Nat.le_of_not_lt hfits), Option.getD_none]
    change 2 ^ 32 - 1 = _
    omega

end Words

namespace Clock

def total (d : Clock) : Nat := d.seconds.toNat * nanosPerSecond + d.nanos.toNat

theorem total_inj {d e : Clock} (h : d.total = e.total) : d = e := by
  have hd := d.carried
  have he := e.carried
  unfold total nanosPerSecond at *
  obtain ⟨seconds, nanos, _⟩ := d
  obtain ⟨seconds', nanos', _⟩ := e
  have hseconds : seconds = seconds' := UInt64.toNat_inj.mp (by dsimp only at *; omega)
  have hnanos : nanos = nanos' := UInt32.toNat_inj.mp (by dsimp only at *; omega)
  subst hseconds hnanos
  rfl

/-- The nanoseconds below a second, as often as a word of 32 bits says, fit in one of 64 bits. -/
theorem nanos_product (d : Clock) (factor : UInt32) :
    (d.nanos.toUInt64 * factor.toUInt64).toNat = d.nanos.toNat * factor.toNat := by
  rw [UInt64.toNat_mul, UInt32.toNat_toUInt64, UInt32.toNat_toUInt64]
  apply Nat.mod_eq_of_lt
  calc d.nanos.toNat * factor.toNat
      < nanosPerSecond * 2 ^ 32 := Nat.mul_lt_mul_of_lt_of_lt d.carried factor.toNat_lt
    _ ≤ 2 ^ 64 := by decide

/-- The whole seconds of a product: those of the seconds, and those carried over from the
nanoseconds. -/
def wholeSeconds (d : Clock) (factor : UInt32) : Nat :=
  d.seconds.toNat * factor.toNat + d.nanos.toNat * factor.toNat / nanosPerSecond

theorem total_product (d : Clock) (factor : UInt32) :
    d.total * factor.toNat =
      d.wholeSeconds factor * nanosPerSecond + d.nanos.toNat * factor.toNat % nanosPerSecond := by
  have hcarry : d.nanos.toNat * factor.toNat / nanosPerSecond * nanosPerSecond +
      d.nanos.toNat * factor.toNat % nanosPerSecond = d.nanos.toNat * factor.toNat :=
      Nat.div_add_mod' _ _
  rw [total, wholeSeconds, Nat.add_mul, Nat.add_mul, Nat.add_assoc, hcarry, Nat.mul_right_comm]

theorem carry_product (d : Clock) (factor : UInt32) :
    (d.nanos.toUInt64 * factor.toUInt64 / 1000000000).toNat =
      d.nanos.toNat * factor.toNat / nanosPerSecond := by
  rw [UInt64.toNat_div, d.nanos_product factor]
  rfl

/-- A product is come to where its seconds fit in their word. -/
theorem times?_of_lt {d : Clock} {factor : UInt32} (h : d.wholeSeconds factor < UInt64.size) :
    ∃ e, d.times? factor = some e ∧ e.total = d.total * factor.toNat := by
  have hbelow : (d.nanos.toUInt64 * factor.toUInt64 % 1000000000).toUInt32.toNat =
      d.nanos.toNat * factor.toNat % nanosPerSecond := by
    rw [UInt64.toNat_toUInt32, UInt64.toNat_mod, d.nanos_product factor]
    change _ % 1000000000 % 4294967296 = _ % 1000000000
    omega
  obtain ⟨seconds, hseconds, hvalue⟩ := word64?_of_lt (Nat.lt_of_le_of_lt (Nat.le_add_right _ _) h)
  have hsum : seconds.toNat + (d.nanos.toUInt64 * factor.toUInt64 / 1000000000).toNat =
      d.wholeSeconds factor := by rw [hvalue, d.carry_product factor, wholeSeconds]
  obtain ⟨carried, hcarried, hcarriedValue⟩ := word64?_of_lt (hsum ▸ h)
  refine ⟨⟨carried, _, nanos_carried (d.nanos.toUInt64 * factor.toUInt64)⟩, ?_, ?_⟩
  · simp only [times?, hseconds, hcarried, Option.bind_eq_bind, Option.bind_some, Option.pure_def]
  · rw [total_product, total, hcarriedValue, hsum, hbelow]

theorem times?_of_le {d : Clock} {factor : UInt32} (h : UInt64.size ≤ d.wholeSeconds factor) :
    d.times? factor = none := by
  by_cases hfits : d.seconds.toNat * factor.toNat < UInt64.size
  · obtain ⟨seconds, hseconds, hvalue⟩ := word64?_of_lt hfits
    have hsum : seconds.toNat + (d.nanos.toUInt64 * factor.toUInt64 / 1000000000).toNat =
        d.wholeSeconds factor := by rw [hvalue, d.carry_product factor, wholeSeconds]
    have hnone : word64? (seconds.toNat + (d.nanos.toUInt64 * factor.toUInt64 / 1000000000).toNat) =
        none :=
      if_neg (hsum ▸ Nat.not_lt.mpr h)
    simp only [times?, hseconds, hnone, Option.bind_eq_bind, Option.bind_some, Option.bind_none]
  · have hnone : word64? (d.seconds.toNat * factor.toNat) = none := if_neg hfits
    simp only [times?, hnone, Option.bind_eq_bind, Option.bind_none]

theorem total_saturatingTimes (d : Clock) (factor : UInt32) :
    (d.saturatingTimes factor).total = min (d.total * factor.toNat) Duration.longest.nanos := by
  have hlimit : UInt64.size * nanosPerSecond = Duration.longest.nanos + 1 := rfl
  have hbelow : d.nanos.toNat * factor.toNat % nanosPerSecond < nanosPerSecond :=
    Nat.mod_lt _ (by decide)
  rw [saturatingTimes]
  rcases Nat.lt_or_ge (d.wholeSeconds factor) UInt64.size with hfits | hexceeds
  · obtain ⟨e, he, htotal⟩ := times?_of_lt hfits
    have hless : d.total * factor.toNat < Duration.longest.nanos + 1 := by
      calc d.total * factor.toNat
          = d.wholeSeconds factor * nanosPerSecond +
              d.nanos.toNat * factor.toNat % nanosPerSecond := total_product d factor
        _ < (d.wholeSeconds factor + 1) * nanosPerSecond := by
            rw [Nat.succ_mul]
            exact Nat.add_lt_add_left hbelow _
        _ ≤ UInt64.size * nanosPerSecond := Nat.mul_le_mul_right _ hfits
        _ = Duration.longest.nanos + 1 := hlimit
    rw [he, Option.getD_some, htotal]
    exact (Nat.min_eq_left (Nat.le_of_lt_succ hless)).symm
  · have hmore : Duration.longest.nanos + 1 ≤ d.total * factor.toNat := by
      calc Duration.longest.nanos + 1
          = UInt64.size * nanosPerSecond := hlimit.symm
        _ ≤ d.wholeSeconds factor * nanosPerSecond := Nat.mul_le_mul_right _ hexceeds
        _ ≤ d.total * factor.toNat := by
            rw [total_product d factor]
            exact Nat.le_add_right _ _
    rw [times?_of_le hexceeds, Option.getD_none, Nat.min_eq_right (Nat.le_of_succ_le hmore)]
    decide

end Clock

namespace Duration

theorem ofNanos_nanos (n : Nat) : (ofNanos n).nanos = min n longest.nanos := by
  have hlongest : longest.nanos = secondsLimit * nanosPerSecond - 1 := rfl
  unfold ofNanos
  split_ifs with h
  · change n = _
    omega
  · omega

theorem total_clock (d : Duration) : d.clock.total = d.nanos := by
  have hbound := d.bounded
  have hseconds : d.clock.seconds.toNat = d.nanos / nanosPerSecond := by
    apply UInt64.toNat_ofNat_of_lt'
    exact Nat.div_lt_of_lt_mul (by rwa [Nat.mul_comm])
  have hnanos : d.clock.nanos.toNat = d.nanos % nanosPerSecond := by
    apply UInt32.toNat_ofNat_of_lt'
    exact Nat.lt_trans (Nat.mod_lt _ (by decide)) (by decide)
  rw [Clock.total, hseconds, hnanos]
  exact Nat.div_add_mod' d.nanos nanosPerSecond

end Duration

namespace RetryPolicy

theorem factor_eq (n : Nat) : factor n = min (2 ^ (n - 1)) (2 ^ 32 - 1) := by
  unfold factor
  split_ifs with h
  · have hpow : 2 ^ (n - 1) ≤ 2 ^ 31 := Nat.pow_le_pow_right (by decide) (by omega)
    change 2 ^ (n - 1) = _
    omega
  · have hpow : 2 ^ 32 ≤ 2 ^ (n - 1) := Nat.pow_le_pow_right (by decide) (by omega)
    omega

theorem factor_mono {m n : Nat} (h : m ≤ n) : factor m ≤ factor n := by
  have hpow : 2 ^ (m - 1) ≤ 2 ^ (n - 1) := Nat.pow_le_pow_right (by decide) (by omega)
  rw [factor_eq, factor_eq]
  omega

theorem factor_succ {n : Nat} (h : 1 ≤ n) (h' : n ≤ 31) : factor (n + 1) = 2 * factor n := by
  have hpow : 2 ^ n ≤ 2 ^ 31 := Nat.pow_le_pow_right (by decide) h'
  have hdouble : 2 ^ n = 2 * 2 ^ (n - 1) := by
    rw [← Nat.pow_succ']
    congr 1
    omega
  rw [factor_eq, factor_eq, Nat.add_sub_cancel]
  omega

theorem backoff_nanos (policy : RetryPolicy) (n : Nat) :
    (policy.backoff n).nanos = min (policy.baseDelay.nanos * factor n) Duration.longest.nanos :=
  Duration.ofNanos_nanos _

theorem backoff_clock (policy : RetryPolicy) (attempt : UInt32) :
    policy.baseDelay.clock.backoff attempt = (policy.backoff attempt.toNat).clock := by
  have hfactor : (saturatingPow 2 (saturatingSub attempt 1)).toNat = factor attempt.toNat := by
    rw [saturatingPow_toNat, saturatingSub_toNat, factor_eq]
    rfl
  apply Clock.total_inj
  rw [Clock.backoff, Clock.total_saturatingTimes, hfactor, Duration.total_clock,
    Duration.total_clock, backoff_nanos]

end RetryPolicy

/-- The wait before a retry is what the words of a clock come to: the base delay times a power of
two, up to the largest word and the longest duration. A later retry never waits less, up to the 32nd
each waits twice as long as the one before or as long as there is, and number zero waits like the
first. -/
theorem waits_saturate (policy : RetryPolicy) :
    (∀ attempt : UInt32,
      policy.baseDelay.clock.backoff attempt = (policy.backoff attempt.toNat).clock) ∧
    (∀ n, (policy.backoff n).nanos =
      min (policy.baseDelay.nanos * min (2 ^ (max n 1 - 1)) (2 ^ 32 - 1)) Duration.longest.nanos) ∧
    (∀ m n, m ≤ n → (policy.backoff m).nanos ≤ (policy.backoff n).nanos) ∧
    (∀ n, 1 ≤ n → n ≤ 31 →
      (policy.backoff (n + 1)).nanos = min (2 * (policy.backoff n).nanos) Duration.longest.nanos) ∧
    policy.backoff 0 = policy.backoff 1 := by
  refine ⟨policy.backoff_clock, ?_, ?_, ?_, rfl⟩
  · intro n
    have hexponent : max n 1 - 1 = n - 1 := by omega
    rw [policy.backoff_nanos, RetryPolicy.factor_eq, hexponent]
  · intro m n hle
    have hproduct := Nat.mul_le_mul_left policy.baseDelay.nanos (RetryPolicy.factor_mono hle)
    rw [policy.backoff_nanos, policy.backoff_nanos]
    omega
  · intro n hfirst hlast
    have hdouble : policy.baseDelay.nanos * RetryPolicy.factor (n + 1) =
        2 * (policy.baseDelay.nanos * RetryPolicy.factor n) := by
      rw [RetryPolicy.factor_succ hfirst hlast, Nat.mul_left_comm]
    rw [policy.backoff_nanos, policy.backoff_nanos, hdouble]
    omega

def patientPolicy : RetryPolicy := ⟨2, .ofNanos (9223372036854775808 * nanosPerSecond)⟩

/-- The last doubling and what comes behind it, and a wait that cannot be doubled. -/
theorem long_waits :
    (1 ≤ 31 ∧ 31 ≤ 31 ∧ (RetryPolicy.standard.backoff 32).nanos =
      2 * (RetryPolicy.standard.backoff 31).nanos) ∧
    (32 ≤ 33 ∧ (RetryPolicy.standard.backoff 32).nanos ≤ (RetryPolicy.standard.backoff 33).nanos ∧
      (RetryPolicy.standard.backoff 33).nanos < 2 * (RetryPolicy.standard.backoff 32).nanos) ∧
    (1 ≤ 1 ∧ 1 ≤ 31 ∧ (patientPolicy.backoff 2).nanos = Duration.longest.nanos ∧
      patientPolicy.baseDelay.clock.backoff 4294967295 = .longest) := by
  obtain ⟨-, -, hmono, hdouble, -⟩ := waits_saturate .standard
  obtain ⟨hclock, -, -, hdouble', -⟩ := waits_saturate patientPolicy
  refine ⟨⟨by decide, by decide, ?_⟩, ⟨by decide, hmono 32 33 (by decide), by decide⟩,
    by decide, by decide, ?_, ?_⟩
  · rw [hdouble 31 (by decide) (by decide)]
    decide
  · rw [hdouble' 1 (by decide) (by decide)]
    decide
  · rw [hclock]
    decide

end GraphQLClient.Http
