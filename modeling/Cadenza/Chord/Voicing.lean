import Cadenza.Chord
import Cadenza.Note

/-!
# Voicings

A voicing turns pitches into notes, struck together or one after the other. Each parameter is given
once for all notes or note by note, and is looked up by the position of the note in the order, not
by the index of its pitch.
-/

namespace Cadenza

set_option autoImplicit false

inductive PerNote (α : Type) where
  | all (value : α)
  | each (values : List α)
  deriving DecidableEq, Repr

def PerNote.get? {α : Type} : PerNote α → Nat → Option α
  | .all value, _ => some value
  | .each values, position => values[position]?

/-- How to play a chord. Without an order each pitch is played once, from the first. -/
structure Voicing (τ : Type) where
  velocity : PerNote UInt8
  duration : PerNote τ
  delay : PerNote τ
  anchor : PerNote Anchor
  order : Option (List Nat)

namespace Voicing

variable {τ : Type}

def struck [Time τ] : Voicing τ where
  velocity := .all defaultVelocity
  duration := .all ((1 : Nat) : τ)
  delay := .all Time.zero
  anchor := .all .start
  order := none

def value {α : Type} (name : String) (parameter : PerNote α) (position : Nat) :
    Except MalformedChord α :=
  match parameter.get? position with
  | some value => .ok value
  | none => .error ⟨name, .noValue position⟩

def note (v : Voicing τ) (pitches : List Pitch) (position index : Nat) :
    Except MalformedChord (Note τ) :=
  match pitches[index]? with
  | none => .error ⟨"order", .indexOutOfRange index pitches.length⟩
  | some pitch => do
      let velocity ← value "velocity" v.velocity position
      let duration ← value "duration" v.duration position
      let delay ← value "delay" v.delay position
      let anchor ← value "anchor" v.anchor position
      .ok ⟨pitch, velocity, duration, delay, anchor⟩

def notesFrom (v : Voicing τ) (pitches : List Pitch) :
    Nat → List Nat → Except MalformedChord (List (Note τ))
  | _, [] => .ok []
  | position, index :: rest => do
      let first ← v.note pitches position index
      let others ← v.notesFrom pitches (position + 1) rest
      .ok (first :: others)

/-- Plays the pitches in order, or fails at the first position that has no pitch or no value. -/
def play (v : Voicing τ) (pitches : List Pitch) : Except MalformedChord (List (Note τ)) :=
  v.notesFrom pitches 0 (v.order.getD (List.range pitches.length))

end Voicing

end Cadenza
