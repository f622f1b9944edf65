import Cadenza.Arrangement
import Cadenza.Clock
import Cadenza.Playback.Synth
import Cadenza.Timeline

/-!
# Playing

The tracks are merged into one timeline. The player selects the program of every track, then waits
for each event in turn and passes it to the synth, over and over again when it is looping, until the
timeline ends or a wait is stopped. A stopped playback silences every track. A playback is told as
a list of what was done, which a synth then makes heard.
-/

namespace Cadenza

set_option autoImplicit false

inductive Act where
  | wait (time : ClockTime)
  | call (c : SynthCall)
  deriving DecidableEq, Repr

/-- Everything that a playback does: first the programs, then the body, and the silences if it is
stopped. -/
structure Performance (τ : Type) where
  timeline : List (Event τ)
  programs : List SynthCall
  body : List Act
  silences : List SynthCall
  stopped : Bool
  passes : Nat
  notes : Nat

/-- Why nothing is played to an end: the times of the events contradict each other, a value does not
fit in MIDI, or the passes do not fit their counter of 32 bits. -/
inductive PlayError where
  | disorder
  | outOfRange (e : Midi.OutOfRange)
  | passOverflow
  deriving DecidableEq, Repr

def mergeTracks {τ : Type} (tracks : List (CompiledTrack τ)) : List (Event τ) :=
  tracks.flatMap fun t => t.events.map (·.onTrack t.index)

def Event.call {τ : Type} (e : Event τ) : SynthCall :=
  match e.kind with
  | .noteOn => .noteOn (e.track.getD 0) e.key e.velocity
  | .noteOff => .noteOff (e.track.getD 0) e.key

/-- Whether the key and the velocity of every event fit in MIDI; the first that does not is
told. -/
def checkRange {τ : Type} : List (Event τ) → Except Midi.OutOfRange Unit
  | [] => .ok ()
  | e :: rest => do
      let _ ← Midi.dataByte "key" e.key.toInt
      let _ ← Midi.dataByte "velocity" e.velocity.toNat
      checkRange rest

structure Run where
  acts : List Act
  stopped : Bool
  passes : Nat
  notes : Nat

/-- Plays events until the end of the pass or a stop. `stops k` tells whether the wait after `k`
waits is stopped. -/
def playPass {τ : Type} [Time τ] (stops : Nat → Bool) : Nat → List (Event τ) → Run
  | _, [] => ⟨[], false, 1, 0⟩
  | waits, e :: rest =>
      if stops waits then ⟨[], true, 0, 0⟩
      else
        let later := playPass stops (waits + 1) rest
        { later with
          acts := .wait (ClockTime.ofSeconds e.time) :: .call e.call :: later.acts
          notes := later.notes + 1 }

/-- Plays passes until one is the last. The counter has room for `room` more passes after this
one. -/
def playPasses {τ : Type} [Time τ] (timeline : List (Event τ)) (looping : Bool)
    (stops : Nat → Bool) (waits : Nat) : Nat → Option Run
  | 0 =>
      let pass := playPass stops waits timeline
      if pass.stopped then some pass else none
  | room + 1 =>
      let pass := playPass stops waits timeline
      if pass.stopped || !looping || timeline.isEmpty then some pass
      else
        match playPasses timeline looping stops (waits + timeline.length) room with
        | none => none
        | some later =>
            some ⟨pass.acts ++ later.acts, later.stopped, pass.passes + later.passes,
              pass.notes + later.notes⟩

structure Player (τ : Type) where
  tempo : Tempo τ
  looping : Bool

namespace Player

variable {τ : Type} [Time τ]

def maxPasses : Nat := UInt32.size - 1

def timeline (p : Player τ) (tracks : List (CompiledTrack τ)) :
    Except PlayError (List (Event τ)) :=
  match normalize? p.tempo (mergeTracks tracks) with
  | none => .error .disorder
  | some timeline =>
      match checkRange timeline with
      | .error e => .error (.outOfRange e)
      | .ok _ => .ok timeline

def play (p : Player τ) (tracks : List (CompiledTrack τ)) (stops : Nat → Bool) :
    Except PlayError (Performance τ) :=
  match p.timeline tracks with
  | .error e => .error e
  | .ok timeline =>
      match playPasses timeline p.looping stops 0 maxPasses with
      | none => .error .passOverflow
      | some run => .ok
          { timeline
            programs := tracks.map fun t => .programSelect t.index t.instrument
            body := run.acts
            silences := if run.stopped then tracks.map (.allNotesOff ·.index) else []
            stopped := run.stopped
            passes := run.passes
            notes := run.notes }

end Player

/-- The sum of all times; of no times it is `-0`. -/
def totalTime (timeline : List (Event Float)) : Float :=
  (timeline.map (·.time)).foldl (· + ·) (-0.0)

inductive Heard where
  | wait (time : ClockTime)
  | sound (s : Sound)
  deriving DecidableEq, Repr

namespace Performance

variable {τ : Type}

def acts (p : Performance τ) : List Act :=
  p.programs.map .call ++ p.body ++ p.silences.map .call

def calls (p : Performance τ) : List SynthCall :=
  p.acts.filterMap fun
    | .wait _ => none
    | .call c => some c

def hearAct (synth : Synth) : Act → List Heard
  | .wait time => [.wait time]
  | .call c => (synth c).sounds.map .sound

def heard (p : Performance τ) (synth : Synth) : List Heard :=
  p.acts.flatMap (hearAct synth)

def reportAct (synth : Synth) : Act → List Record
  | .wait _ => []
  | .call c => (synth c).records

def records (p : Performance Float) (looping : Bool) (synth : Synth) : List Record :=
  p.programs.flatMap (synth · |>.records) ++
    Record.playing p.timeline.length (totalTime p.timeline) looping ::
    p.body.flatMap (reportAct synth) ++
    (if p.stopped then Record.stopped :: p.silences.flatMap (synth · |>.records) else [])

end Performance

end Cadenza
