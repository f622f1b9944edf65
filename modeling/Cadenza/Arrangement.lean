import Cadenza.Parts
import Cadenza.Score.Layout
import Cadenza.Sorting

/-!
# Arrangements

An arrangement registers tracks, each with an instrument, and holds the phrases from which the
chains of a score start. Compiling it lays out every root from time zero and groups the events by
track, in the order of registration.
-/

namespace Cadenza

set_option autoImplicit false

structure Arrangement where
  tracks : List (TrackId × UInt8)
  roots : List Nat
  deriving DecidableEq, Repr

structure DuplicateTrack where
  track : TrackId
  deriving DecidableEq, Repr

def DuplicateTrack.message (e : DuplicateTrack) : String :=
  s!"The track {Text.quoted e.track} already exists"

structure UnknownTrack where
  track : TrackId
  deriving DecidableEq, Repr

def UnknownTrack.message (e : UnknownTrack) : String :=
  s!"The track {Text.quoted e.track} does not exist"

inductive CompileError (τ : Type) where
  | unknownTrack (e : UnknownTrack)
  | layout (e : LayoutError τ)
  deriving BEq, DecidableEq, Repr

structure CompiledTrack (τ : Type) where
  id : TrackId
  index : Nat
  instrument : UInt8
  events : List (Event τ)
  deriving BEq, DecidableEq, Repr

namespace Arrangement

variable {τ : Type}

def empty : Arrangement :=
  ⟨[], []⟩

def registered (a : Arrangement) (track : TrackId) : Bool :=
  a.tracks.any (·.1 == track)

def instrument? (a : Arrangement) (track : TrackId) : Option UInt8 :=
  (a.tracks.find? (·.1 == track)).map (·.2)

def register (a : Arrangement) (track : TrackId) (instrument : UInt8) :
    Except DuplicateTrack Arrangement :=
  if a.registered track then .error ⟨track⟩
  else .ok { a with tracks := a.tracks ++ [(track, instrument)] }

def firstUnknown (a : Arrangement) (s : Score τ) (root : Nat) : Option TrackId :=
  ((s.walk root).filterMap fun i => (s.phrase? i).map (·.track)).find? fun track =>
    !a.registered track

/-- Adds a phrase that starts with the piece. All phrases it leads to so far have to be on
registered tracks. -/
def attach (a : Arrangement) (s : Score τ) (root : Nat) : Except UnknownTrack Arrangement :=
  match a.firstUnknown s root with
  | some track => .error ⟨track⟩
  | none => .ok { a with roots := a.roots ++ [root] }

variable [Time τ]

def gather (s : Score τ) (policy : DelayPolicy) (p : Parts τ) :
    List Nat → Except (CompileError τ) (Parts τ)
  | [] => .ok p
  | root :: rest =>
      match s.layOut policy root Time.zero Time.zero with
      | .error e => .error (.layout e)
      | .ok entries =>
          match entries.find? fun e => !p.contains e.track with
          | some e => .error (.unknownTrack ⟨e.track⟩)
          | none => gather s policy (p.extend entries) rest

def tagTracks (p : Parts τ) (tracks : List (TrackId × UInt8)) : List (CompiledTrack τ) :=
  (p.entries.zip tracks).zipIdx.map fun ((entry, _, instrument), index) =>
    ⟨entry.track, index, instrument, entry.events.map (·.onTrack index)⟩

/-- The events of every track, tracks in the order of registration, roots in the order in which
they were attached. -/
def compile (a : Arrangement) (s : Score τ) (policy : DelayPolicy) :
    Except (CompileError τ) (List (CompiledTrack τ)) :=
  match gather s policy (Parts.ofTracks (a.tracks.map (·.1))) a.roots with
  | .error e => .error e
  | .ok p => .ok (tagTracks p a.tracks)

/-- The events by track, in the order of the track names. -/
def compileMap (a : Arrangement) (s : Score τ) :
    Except (CompileError τ) (List (Entry τ)) :=
  match a.compile s .allow with
  | .error e => .error e
  | .ok tracks =>
      .ok (sortStable (fun later earlier => decide (earlier.track < later.track))
        (tracks.map fun t => ⟨t.id, t.events⟩))

end Arrangement

end Cadenza
