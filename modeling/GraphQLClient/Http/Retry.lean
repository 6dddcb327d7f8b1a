import GraphQLClient.Client.Response
import GraphQLClient.Text.Basic

/-!
# Retrying

Failures that may pass are tried again a bounded number of times, and the wait doubles from one
attempt to the next. Durations saturate.
-/
namespace GraphQLClient.Http

def secondsLimit : Nat := Text.unsignedLimit

def nanosPerSecond : Nat := 1000000000

structure Duration where
  nanos : Nat
  bounded : nanos < secondsLimit * nanosPerSecond
  deriving DecidableEq, Repr

namespace Duration

def longest : Duration := ⟨secondsLimit * nanosPerSecond - 1, by decide⟩

/-- The longest duration stands for all that are longer. -/
def ofNanos (n : Nat) : Duration :=
  if h : n < secondsLimit * nanosPerSecond then ⟨n, h⟩ else longest

def ofMillis (n : Nat) : Duration := ofNanos (n * 1000000)

def seconds (d : Duration) : Nat := d.nanos / nanosPerSecond

def subsecondNanos (d : Duration) : Nat := d.nanos % nanosPerSecond

def scale (d : Duration) (factor : Nat) : Duration := ofNanos (d.nanos * factor)

end Duration

structure RetryPolicy where
  maxRetries : Nat
  baseDelay : Duration
  deriving DecidableEq, Repr

namespace RetryPolicy

def standard : RetryPolicy := ⟨3, .ofMillis 100⟩

/-- A power of two that stops growing at 32 bits. -/
def factor (attempt : Nat) : Nat :=
  if attempt ≤ 32 then Nat.pow 2 (attempt - 1) else 4294967295

/-- The wait before retry number `attempt`, counted from one. -/
def backoff (policy : RetryPolicy) (attempt : Nat) : Duration :=
  policy.baseDelay.scale (factor attempt)

end RetryPolicy

structure Attempts (α : Type) where
  count : Nat
  waits : List Duration
  outcome : ClientResult α

/-- Makes attempt number `attempt`, counted from zero, and at most `left` more. -/
def tryFrom {α : Type} (policy : RetryPolicy) (post : Nat → ClientResult α) :
    (left attempt : Nat) → Attempts α
  | left, attempt =>
    match post attempt with
    | .ok value => ⟨1, [], .ok value⟩
    | .error error =>
      match left with
      | 0 => ⟨1, [], .error error⟩
      | left + 1 =>
        if error.isRetryable then
          let more := tryFrom policy post left (attempt + 1)
          ⟨more.count + 1, policy.backoff (attempt + 1) :: more.waits, more.outcome⟩
        else ⟨1, [], .error error⟩

def unreadable (reason text : String) : ClientError :=
  .new .invalidResponse
    s!"Failed to parse response: {reason}. Body: {String.ofList (text.toList.take 200)}"

/-- `explain` tells why a text is no response. -/
def readResponse (explain : String → String) (text : String) : ClientResult Response :=
  match Response.ofText? text with
  | some response => .ok response
  | none => .error (unreadable (explain text) text)

def requestWith (explain : String → String) (policy : RetryPolicy)
    (post : Nat → ClientResult String) : Attempts Response :=
  let attempts := tryFrom policy post policy.maxRetries 0
  ⟨attempts.count, attempts.waits, attempts.outcome.bind (readResponse explain)⟩

/-!
## Waits on machine words

The wait before a retry as words of 32 and 64 bits give it. A duration is kept as seconds and the
nanoseconds below a second. What does not fit in its word is noticed before it wraps, and ends at
the largest value.
-/

def word32? (n : Nat) : Option UInt32 := if n < UInt32.size then some (.ofNat n) else none

def word64? (n : Nat) : Option UInt64 := if n < UInt64.size then some (.ofNat n) else none

def saturatingSub (a b : UInt32) : UInt32 := if b ≤ a then a - b else 0

def checkedPow? (base : UInt32) : Nat → Option UInt32
  | 0 => some 1
  | n + 1 => do word32? ((← checkedPow? base n).toNat * base.toNat)

def saturatingPow (base exponent : UInt32) : UInt32 :=
  (checkedPow? base exponent.toNat).getD 4294967295

structure Clock where
  seconds : UInt64
  nanos : UInt32
  carried : nanos.toNat < nanosPerSecond
  deriving DecidableEq, Repr

namespace Clock

def longest : Clock := ⟨18446744073709551615, 999999999, by decide⟩

theorem nanos_carried (nanos : UInt64) : (nanos % 1000000000).toUInt32.toNat < nanosPerSecond := by
  rw [UInt64.toNat_toUInt32, UInt64.toNat_mod]
  change nanos.toNat % 1000000000 % 4294967296 < 1000000000
  omega

/-- The nanoseconds are multiplied in a word of 64 bits and their whole seconds carried over. -/
def times? (d : Clock) (factor : UInt32) : Option Clock := do
  let nanos := d.nanos.toUInt64 * factor.toUInt64
  let seconds ← word64? (d.seconds.toNat * factor.toNat)
  let carried ← word64? (seconds.toNat + (nanos / 1000000000).toNat)
  return ⟨carried, (nanos % 1000000000).toUInt32, nanos_carried nanos⟩

def saturatingTimes (d : Clock) (factor : UInt32) : Clock := (d.times? factor).getD longest

def backoff (base : Clock) (attempt : UInt32) : Clock :=
  base.saturatingTimes (saturatingPow 2 (saturatingSub attempt 1))

end Clock

def Duration.clock (d : Duration) : Clock where
  seconds := .ofNat d.seconds
  nanos := .ofNat d.subsecondNanos
  carried := by
    rw [UInt32.toNat_ofNat']
    exact Nat.lt_of_le_of_lt (Nat.mod_le _ _) (Nat.mod_lt _ (by decide))

end GraphQLClient.Http
