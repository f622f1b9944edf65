import Cadenza.Time

/-!
# Clock time

Waits are whole nanoseconds, counted in 64 bits: a span of seconds is rounded to the nearest, a tie
away from zero, and a span that is not positive is no wait.
-/

namespace Cadenza

set_option autoImplicit false

/-- Nanoseconds. -/
structure ClockTime where
  nanos : UInt64
  deriving DecidableEq, Repr

namespace ClockTime

def nanosPerSecond : Nat := 1000000000

variable {τ : Type} [Time τ]

def ofSeconds (seconds : τ) : ClockTime :=
  let span := if Time.zero ≤ seconds then seconds else Time.zero
  ⟨(Time.exact (span * (nanosPerSecond : τ))).count .awayFromZero⟩

def toSeconds (t : ClockTime) : τ :=
  (t.nanos.toNat : τ) / (nanosPerSecond : τ)

def split (t : ClockTime) : Nat × Nat :=
  (t.nanos.toNat / nanosPerSecond, t.nanos.toNat % nanosPerSecond)

end ClockTime

end Cadenza
