import Cadenza.Phrase.Layout
import Std.Data.HashMap

/-!
# Parts

The events of a piece grouped by track. Tracks stand in the order in which they were first seen,
and the events of a track in the order in which they arrived; an index finds the place of a track.
-/

namespace Cadenza

set_option autoImplicit false

structure Parts (τ : Type) where
  index : Std.HashMap TrackId Nat
  entries : List (Entry τ)

namespace Parts

variable {τ : Type}

def empty : Parts τ :=
  ⟨∅, []⟩

def place? (p : Parts τ) (track : TrackId) : Option Nat :=
  p.index[track]?

def contains (p : Parts τ) (track : TrackId) : Bool :=
  p.index.contains track

def seed (p : Parts τ) (track : TrackId) : Parts τ :=
  match p.place? track with
  | some _ => p
  | none => ⟨p.index.insert track p.entries.length, p.entries ++ [⟨track, []⟩]⟩

/-- Adds events at the end of a track, which gets a place if it has none. -/
def push (p : Parts τ) (track : TrackId) (events : List (Event τ)) : Parts τ :=
  match p.place? track with
  | some i =>
      { p with entries := p.entries.modify i fun e => { e with events := e.events ++ events } }
  | none => ⟨p.index.insert track p.entries.length, p.entries ++ [⟨track, events⟩]⟩

def extend (p : Parts τ) (entries : List (Entry τ)) : Parts τ :=
  entries.foldl (fun p e => p.push e.track e.events) p

def ofTracks (tracks : List TrackId) : Parts τ :=
  tracks.foldl seed empty

def length (p : Parts τ) : Nat :=
  p.entries.length

def isEmpty (p : Parts τ) : Bool :=
  p.entries.isEmpty

end Parts

end Cadenza
