import Cadenza.Playback.Player

/-!
# Driving a synth

While playing, a synth is given one call after the other, and a sleeper is asked to wait before each
event. Both are anything with a state of its own. A sleeper answers whether its wait was stopped,
and its state is also that of the channel it looks for a stop in. What `Player.play` tells is what
happens here, and `Player.drive` is what it means for the two.
-/

namespace Cadenza

set_option autoImplicit false

structure Stage (σ ρ : Type) where
  synth : σ
  sleeper : ρ
  passes : Nat
  notes : Nat

structure Tally where
  passes : Nat
  notes : Nat
  deriving DecidableEq, Repr

def Performance.tally {τ : Type} (p : Performance τ) : Tally :=
  ⟨p.passes, p.notes⟩

structure Driven (σ ρ : Type) where
  result : Except PlayError Tally
  synth : σ
  sleeper : ρ

variable {τ σ ρ : Type} [Time τ]

/-- Drives through events until the end of the pass or a stop, and tells whether it was a stop. -/
def drivePass (take : σ → SynthCall → σ) (sleep : ρ → ClockTime → Bool × ρ) (s : Stage σ ρ) :
    List (Event τ) → Bool × Stage σ ρ
  | [] => (false, { s with passes := s.passes + 1 })
  | e :: rest =>
      let (stopped, sleeper) := sleep s.sleeper (ClockTime.ofSeconds e.time)
      if stopped then (true, { s with sleeper })
      else
        drivePass take sleep
          { s with sleeper, synth := take s.synth e.call, notes := s.notes + 1 } rest

/-- Drives through passes until one is the last, and tells whether it was stopped; nothing is told
if the passes outgrow their counter, which has room for `room` more after this one. -/
def drivePasses (take : σ → SynthCall → σ) (sleep : ρ → ClockTime → Bool × ρ)
    (timeline : List (Event τ)) (looping : Bool) : Nat → Stage σ ρ → Option Bool × Stage σ ρ
  | 0, s =>
      let (stopped, s) := drivePass take sleep s timeline
      (if stopped then some true else none, s)
  | room + 1, s =>
      let (stopped, s) := drivePass take sleep s timeline
      if stopped || !looping || timeline.isEmpty then (some stopped, s)
      else drivePasses take sleep timeline looping room s

def programCalls (tracks : List (CompiledTrack τ)) : List SynthCall :=
  tracks.map fun t => .programSelect t.index t.instrument

def silenceCalls (tracks : List (CompiledTrack τ)) : List SynthCall :=
  tracks.map (.allNotesOff ·.index)

def Player.drive (p : Player τ) (take : σ → SynthCall → σ) (sleep : ρ → ClockTime → Bool × ρ)
    (tracks : List (CompiledTrack τ)) (synth : σ) (sleeper : ρ) : Driven σ ρ :=
  match p.timeline tracks with
  | .error e => ⟨.error e, synth, sleeper⟩
  | .ok timeline =>
      let begun : Stage σ ρ := ⟨(programCalls tracks).foldl take synth, sleeper, 0, 0⟩
      match drivePasses take sleep timeline p.looping Player.maxPasses begun with
      | (none, s) => ⟨.error .passOverflow, s.synth, s.sleeper⟩
      | (some stopped, s) =>
          let synth := if stopped then (silenceCalls tracks).foldl take s.synth else s.synth
          ⟨.ok ⟨s.passes, s.notes⟩, synth, s.sleeper⟩

def Synth.sink (synth : Synth) (out : List Sound) (c : SynthCall) : List Sound :=
  out ++ (synth c).sounds

end Cadenza
