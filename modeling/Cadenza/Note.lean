import Cadenza.Pitch
import Cadenza.Time

/-!
# Notes

Musical time is counted in whole notes: a quarter note lasts `1/4`.
-/

namespace Cadenza

set_option autoImplicit false

/-- What a delay is measured from: the start or the end of whatever came before. -/
inductive Anchor where
  | start
  | finish
  deriving DecidableEq, Repr

namespace Anchor

def ofBool (start : Bool) : Anchor :=
  if start then .start else .finish

def isStart : Anchor → Bool
  | .start => true
  | .finish => false

end Anchor

def defaultVelocity : UInt8 := 64

structure Note (τ : Type) where
  pitch : Pitch
  velocity : UInt8
  duration : τ
  delay : τ
  anchor : Anchor
  deriving BEq, DecidableEq, Repr

namespace Note

variable {τ : Type}

def up? (n : Note τ) (semitones : Int32) : Option (Note τ) :=
  (n.pitch.up? semitones).map fun pitch => { n with pitch }

def down? (n : Note τ) (semitones : Int32) : Option (Note τ) :=
  (n.pitch.down? semitones).map fun pitch => { n with pitch }

def withDelay (n : Note τ) (delay : τ) : Note τ :=
  { n with delay }

def key? (n : Note τ) : Option Int32 :=
  n.pitch.key?

end Note

end Cadenza
