import Cadenza.Chord.Voicing
import Cadenza.Studio

/-!
# The demonstration piece

A short progression over E, D and A minor on one piano track: each chord is struck and then broken
up, and at the end all three are struck once more.
-/

namespace Cadenza.Demo

set_option autoImplicit false

variable {τ : Type} [Time τ]

def piano : TrackId :=
  "piano"

structure Figure (τ : Type) where
  chord : String
  voicing : Voicing τ

def wholeNotes (num den : Nat) : τ :=
  (num : τ) / (den : τ)

def strike (chord : String) (duration : τ) : Figure τ :=
  ⟨chord, { Voicing.struck with duration := .all duration }⟩

def arpeggio (chord : String) (duration : τ) (order : Option (List Nat)) : Figure τ :=
  ⟨chord, { Voicing.struck with duration := .all duration, anchor := .all .finish, order }⟩

def Figure.notes? (f : Figure τ) : Option (List (Note τ)) :=
  match Chord.parse f.chord defaultOctave ChordOptions.default with
  | .error _ => none
  | .ok chord => (f.voicing.play chord.pitches).toOption

def figures : List (Figure τ) :=
  let eighth : τ := wholeNotes 1 8
  let quarter : τ := wholeNotes 1 4
  [ strike "E" quarter, arpeggio "E" eighth none,
    strike "D" quarter, arpeggio "D" eighth none,
    strike "Am" quarter, arpeggio "Am" eighth (some [0, 1, 2, 1, 0, 1, 2, 1]),
    strike "E" (quarter + eighth), strike "D" (quarter + eighth), strike "Am" (quarter + eighth) ]

/-- The edits that make the piece: a phrase for each figure, which follows the one before it. -/
def edits? : Option (List (Edit τ)) := do
  let phrases ← (figures : List (Figure τ)).mapM Figure.notes?
  some (.register piano 0 :: phrases.map (.add piano) ++ .attach 0 ::
    (List.range (phrases.length - 1)).map fun i => .link i (i + 1))

def studio? : Option (Studio τ) :=
  edits?.map Studio.run

def records : List Record :=
  [Record.registered piano 0]

end Cadenza.Demo
