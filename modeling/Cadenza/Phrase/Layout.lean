import Cadenza.Event
import Cadenza.Phrase

/-!
# Laying out a phrase

The notes of a phrase are placed one after the other, counted from the start of the phrase. A note
starts its delay after the end of the note before it, or after that note's start when it is
anchored there; the first note starts at its own delay. The phrase itself is then placed in the
same way against the phrase it follows.
-/

namespace Cadenza

set_option autoImplicit false

/-- What to do with negative delays, of notes as well as of phrases. -/
inductive DelayPolicy where
  /-- Use them, an event may come before its anchor. -/
  | allow
  /-- Treat them as none. -/
  | clamp
  /-- Refuse them. -/
  | reject
  deriving DecidableEq, Repr

/-- Why notes cannot be placed; `overflow` when the key of a note fits no word. -/
inductive LayoutError (τ : Type) where
  | negativeDelay (track : TrackId) (delay : τ)
  | overflow
  deriving BEq, DecidableEq, Repr

variable {τ : Type} [Time τ]

/-- The delay that is used for a delay asked for. A number that compares with nothing is not
negative, but is clamped to none. -/
def DelayPolicy.apply (policy : DelayPolicy) (track : TrackId) (delay : τ) :
    Except (LayoutError τ) τ :=
  match policy with
  | .allow => .ok delay
  | .clamp => .ok (if Time.zero < delay then delay else Time.zero)
  | .reject => if delay < Time.zero then .error (.negativeDelay track delay) else .ok delay

def Note.startAfter (n : Note τ) (previous : Option τ) (time delay : τ) : τ :=
  match previous with
  | none => delay
  | some duration => if n.anchor.isStart then time + delay - duration else time + delay

/-- Places notes after a note that ends at `time`. Gives their events, and where the last one
ends. -/
def placeNotes (policy : DelayPolicy) (track : TrackId) :
    Option τ → τ → List (Note τ) → Except (LayoutError τ) (List (Event τ) × τ)
  | _, time, [] => .ok ([], time)
  | previous, time, n :: rest =>
      match policy.apply track n.delay with
      | .error e => .error e
      | .ok delay =>
          let start := n.startAfter previous time delay
          let finish := start + n.duration
          match Event.ofNote? n start finish with
          | none => .error .overflow
          | some (noteOn, noteOff) =>
              match placeNotes policy track (some n.duration) finish rest with
              | .error e => .error e
              | .ok (events, last) => .ok (noteOn :: noteOff :: events, last)

def layOut (policy : DelayPolicy) (track : TrackId) (notes : List (Note τ)) :
    Except (LayoutError τ) (List (Event τ) × τ) :=
  placeNotes policy track none Time.zero notes

structure Entry (τ : Type) where
  track : TrackId
  events : List (Event τ)
  deriving BEq, DecidableEq, Repr

/-- A phrase in its place: what it gives to its track, and from when to when it lasts. -/
structure Placed (τ : Type) where
  entry : Entry τ
  start : τ
  finish : τ
  deriving BEq, DecidableEq, Repr

def Phrase.place (p : Phrase τ) (policy : DelayPolicy) (lastStart lastEnd : τ) :
    Except (LayoutError τ) (Placed τ) :=
  match layOut policy p.track p.notes with
  | .error e => .error e
  | .ok (events, duration) =>
      match policy.apply p.track p.delay with
      | .error e => .error e
      | .ok delay =>
          let start := (if p.anchor.isStart then lastStart else lastEnd) + delay
          .ok ⟨⟨p.track, events.map (·.mapTime (· + start))⟩, start, start + duration⟩

omit [Time τ] in
/-- The text of a layout error; an overflow is a fault of the caller's numbers and has none. -/
def LayoutError.message : LayoutError Float → Option String
  | .negativeDelay track delay =>
      some s!"Negative delay {messageText delay} in a sequence of track {Text.quoted track}"
  | .overflow => none

end Cadenza
