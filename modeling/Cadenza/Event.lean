import Cadenza.Note

/-!
# Note events

An event is one half of a note. Its time is musical after the layout, then seconds or ticks.
-/

namespace Cadenza

set_option autoImplicit false

inductive EventKind where
  | noteOn
  | noteOff
  deriving DecidableEq, Repr

/-- One end of a note: its key is any word, only playback asks that it fits in MIDI. The track is
the position of a track in its arrangement. -/
structure Event (τ : Type) where
  kind : EventKind
  time : τ
  key : Int32
  velocity : UInt8
  track : Option Nat
  deriving BEq, DecidableEq, Repr

namespace Event

variable {τ υ : Type}

/-- The two events of a note that sounds from `start` to `finish`; nothing if its key overflows. -/
def ofNote? (n : Note τ) (start finish : υ) : Option (Event υ × Event υ) :=
  n.key?.map fun key =>
    (⟨.noteOn, start, key, n.velocity, none⟩, ⟨.noteOff, finish, key, n.velocity, none⟩)

def withTime (e : Event τ) (time : υ) : Event υ :=
  { e with time }

def mapTime (e : Event τ) (f : τ → υ) : Event υ :=
  e.withTime (f e.time)

def onTrack (e : Event τ) (track : Nat) : Event τ :=
  { e with track := some track }

end Event

end Cadenza
