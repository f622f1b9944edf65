import Cadenza.Arrangement
import Cadenza.Journal

/-!
# Studio

A score and an arrangement of it, changed together by edits. An edit that is refused changes
nothing.
-/

namespace Cadenza

set_option autoImplicit false

structure Studio (τ : Type) where
  score : Score τ
  arrangement : Arrangement

inductive Edit (τ : Type) where
  | add (track : TrackId) (notes : List (Note τ))
  | setDelay (phrase : Nat) (delay : τ)
  | setAnchor (phrase : Nat) (anchor : Anchor)
  | link (phrase follower : Nat)
  | register (track : TrackId) (instrument : UInt8)
  | attach (phrase : Nat)

inductive Refusal where
  | cyclic (e : CyclicPhrase)
  | duplicate (e : DuplicateTrack)
  | unknown (e : UnknownTrack)
  deriving DecidableEq, Repr

namespace Studio

variable {τ : Type}

def empty : Studio τ :=
  ⟨Score.empty, Arrangement.empty⟩

variable [Time τ]

def edit (s : Studio τ) : Edit τ → Except Refusal (Studio τ)
  | .add track notes => .ok { s with score := (s.score.add track notes).1 }
  | .setDelay i delay => .ok { s with score := s.score.setDelay i delay }
  | .setAnchor i anchor => .ok { s with score := s.score.setAnchor i anchor }
  | .link a b =>
      match s.score.link a b with
      | .error e => .error (.cyclic e)
      | .ok score => .ok { s with score }
  | .register track instrument =>
      match s.arrangement.register track instrument with
      | .error e => .error (.duplicate e)
      | .ok arrangement => .ok { s with arrangement }
  | .attach i =>
      match s.arrangement.attach s.score i with
      | .error e => .error (.unknown e)
      | .ok arrangement => .ok { s with arrangement }

def editRecords : Edit τ → List Record
  | .register track instrument => [Record.registered track instrument]
  | _ => []

def after (s : Studio τ) (e : Edit τ) : Studio τ :=
  match s.edit e with
  | .error _ => s
  | .ok changed => changed

def run (history : List (Edit τ)) : Studio τ :=
  history.foldl after empty

def compile (s : Studio τ) (policy : DelayPolicy) :
    Except (CompileError τ) (List (CompiledTrack τ)) :=
  s.arrangement.compile s.score policy

def compileRecords (s : Studio τ) (tracks : List (CompiledTrack τ)) : List Record :=
  [Record.compiled s.arrangement.roots.length tracks.length]

end Studio

end Cadenza
