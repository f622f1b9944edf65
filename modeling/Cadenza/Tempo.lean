import Cadenza.Time

/-!
# Tempo, seconds and ticks

A beat is a quarter note, so a whole note lasts four of them. Ticks cut a beat into equal parts and
are counted in 64 bits: a span is rounded to the nearest tick, a tie to the even one.
-/

namespace Cadenza

set_option autoImplicit false

/-- Beats per minute. -/
structure Tempo (τ : Type) where
  bpm : τ
  deriving BEq, DecidableEq, Repr

def defaultTicksPerBeat : UInt16 := 480

namespace Tempo

variable {τ : Type} [Time τ]

def default : Tempo τ :=
  ⟨((120 : Nat) : τ)⟩

def secondsPerBeat (t : Tempo τ) : τ :=
  ((60 : Nat) : τ) / t.bpm

def toSeconds (t : Tempo τ) (musical : τ) : τ :=
  musical * ((4 : Nat) : τ) * t.secondsPerBeat

def toMusical (t : Tempo τ) (seconds : τ) : τ :=
  seconds / (((4 : Nat) : τ) * t.secondsPerBeat)

def ticksPerSecond (t : Tempo τ) (ticksPerBeat : UInt16) : τ :=
  (ticksPerBeat.toNat : τ) * t.bpm / ((60 : Nat) : τ)

/-- The tick nearest to a span of seconds; none before zero, the last one beyond the range. -/
def ticksOfSeconds (t : Tempo τ) (ticksPerBeat : UInt16) (seconds : τ) : UInt64 :=
  (Time.exact (seconds * t.ticksPerSecond ticksPerBeat)).count .toEven

def secondsOfTicks (t : Tempo τ) (ticksPerBeat : UInt16) (ticks : UInt64) : τ :=
  (ticks.toNat : τ) / t.ticksPerSecond ticksPerBeat

end Tempo

end Cadenza
