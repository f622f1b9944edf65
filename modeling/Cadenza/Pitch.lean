import Cadenza.Number.Word

/-!
# Pitches

A pitch is a class of the twelve-tone octave and the octave it lies in. All arithmetic on it is
integer arithmetic on semitones, carried out in checked 32-bit words.
-/

namespace Cadenza

set_option autoImplicit false

abbrev PitchClass := Fin 12

def pitchNames : List (String × PitchClass) :=
  [("C", 0), ("C#", 1), ("Db", 1), ("D", 2), ("D#", 3), ("Eb", 3), ("E", 4), ("F", 5), ("F#", 6),
   ("Gb", 6), ("G", 7), ("G#", 8), ("Ab", 8), ("A", 9), ("A#", 10), ("Bb", 10), ("B", 11)]

def pitchClass? (name : String) : Option PitchClass :=
  (pitchNames.find? (·.1 == name)).map (·.2)

/-- A pitch: its class and its octave, where octave 4 holds middle C. -/
structure Pitch where
  pitchClass : PitchClass
  octave : Int32
  deriving DecidableEq, Repr

namespace Pitch

/-- Semitones above the C of octave 0. -/
def semitones (p : Pitch) : Int :=
  12 * p.octave.toInt + p.pitchClass.val

/-- Puts a class of any size into the octave where it belongs; nothing if that octave is no word. -/
def ofClass? (pitchClass octave : Int32) : Option Pitch :=
  (word? (octave.toInt + pitchClass.toInt / 12)).map fun carried =>
    ⟨Fin.ofNat 12 (pitchClass.toInt % 12).toNat, carried⟩

def up? (p : Pitch) (semitones : Int32) : Option Pitch := do
  let raised ← word? (p.pitchClass.val + semitones.toInt)
  ofClass? raised p.octave

def down? (p : Pitch) (semitones : Int32) : Option Pitch := do
  let opposite ← word? (-semitones.toInt)
  p.up? opposite

def withOctave (p : Pitch) (octave : Int32) : Pitch :=
  { p with octave }

/-- The MIDI number, where the C of octave 4 is 60: each of its three steps has to fit a word. -/
def key? (p : Pitch) : Option Int32 := do
  let above ← word? (p.octave.toInt + 1)
  let base ← word? (above.toInt * 12)
  word? (base.toInt + p.pitchClass.val)

end Pitch

end Cadenza
