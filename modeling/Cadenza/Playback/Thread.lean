import Cadenza.Playback.Stop

/-!
# A playback in a thread of its own

Whoever starts a playback may ask it to stop at any time, while the player goes on step by step. A
request is a message in a channel with room for one, and the player looks there only when a wait
ends. So a history of the two is a list of moves in the order in which they take effect.
-/

namespace Cadenza

set_option autoImplicit false

inductive Phase (τ : Type) where
  | selecting (programs : List SynthCall)
  | waiting (rest : List (Event τ))
  | sounding (e : Event τ) (rest : List (Event τ))
  | silencing (silences : List SynthCall)
  | ended (stopped : Bool)
  /-- The passes no longer fit their counter. -/
  | broken
  deriving BEq, DecidableEq, Repr

structure Thread (τ : Type) where
  timeline : List (Event τ)
  looping : Bool
  silences : List SynthCall
  channel : StopChannel
  phase : Phase τ
  passes : Nat
  notes : Nat

inductive Move where
  | stop
  | player
  deriving DecidableEq, Repr

inductive Happening where
  | call (c : SynthCall)
  | waited (time : ClockTime)
  | stopped
  deriving DecidableEq, Repr

namespace Thread

variable {τ : Type} [Time τ]

def spawn (p : Player τ) (tracks : List (CompiledTrack τ)) : Except PlayError (Thread τ) :=
  match p.timeline tracks with
  | .error e => .error e
  | .ok timeline => .ok
      { timeline
        looping := p.looping
        silences := tracks.map (.allNotesOff ·.index)
        channel := StopChannel.quiet
        phase := .selecting (tracks.map fun t => .programSelect t.index t.instrument)
        passes := 0
        notes := 0 }

/-- What the next step of the player does, if that can be noticed. -/
def happens? (t : Thread τ) : Option Happening :=
  match t.phase with
  | .selecting (c :: _) => some (.call c)
  | .waiting (e :: _) =>
      if t.channel.wait.1 then some .stopped else some (.waited (ClockTime.ofSeconds e.time))
  | .sounding e _ => some (.call e.call)
  | .silencing (c :: _) => some (.call c)
  | _ => none

def turn (t : Thread τ) : Thread τ :=
  if t.passes = Player.maxPasses then { t with phase := .broken }
  else
    { t with
      passes := t.passes + 1
      phase :=
        if t.looping && !t.timeline.isEmpty then .waiting t.timeline else .ended false }

def advance (t : Thread τ) : Thread τ :=
  match t.phase with
  | .selecting [] => { t with phase := .waiting t.timeline }
  | .selecting (_ :: programs) => { t with phase := .selecting programs }
  | .waiting [] => t.turn
  | .waiting (e :: rest) =>
      let (stopped, channel) := t.channel.wait
      { t with channel, phase := if stopped then .silencing t.silences else .sounding e rest }
  | .sounding _ rest => { t with notes := t.notes + 1, phase := .waiting rest }
  | .silencing [] => { t with phase := .ended true }
  | .silencing (_ :: silences) => { t with phase := .silencing silences }
  | .ended _ => t
  | .broken => t

def move (t : Thread τ) : Move → Thread τ
  | .stop => { t with channel := t.channel.offer }
  | .player => t.advance

def run (t : Thread τ) (moves : List Move) : Thread τ :=
  moves.foldl move t

def happenings (t : Thread τ) : List Move → List Happening
  | [] => []
  | m :: rest =>
      (match m with
        | .stop => []
        | .player => t.happens?.toList) ++ (t.move m).happenings rest

def records (t : Thread Float) (synth : Synth) : List Record :=
  match t.phase, t.happens? with
  | .selecting [], _ => [Record.playing t.timeline.length (totalTime t.timeline) t.looping]
  | _, some (.call c) => (synth c).records
  | _, some .stopped => [Record.stopped]
  | _, _ => []

end Thread

end Cadenza
