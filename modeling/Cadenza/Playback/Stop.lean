import Cadenza.Playback.Player

/-!
# Stopping a playback

A wait ends early when a message waits in the stop channel, which it takes, or when nobody can send
one any more. The channel of a playback of its own has room for one message; further ones are lost
as long as it is full.
-/

namespace Cadenza

set_option autoImplicit false

/-- How many messages wait, and whether the sender is gone. -/
structure StopChannel where
  pending : Nat
  closed : Bool
  deriving DecidableEq, Repr

namespace StopChannel

def quiet : StopChannel :=
  ⟨0, false⟩

def offer (c : StopChannel) : StopChannel :=
  { c with pending := 1 }

def wait (c : StopChannel) : Bool × StopChannel :=
  match c.pending with
  | 0 => (c.closed, c)
  | pending + 1 => (true, { c with pending })

def waits (c : StopChannel) : Nat → List Bool
  | 0 => []
  | count + 1 => c.wait.1 :: c.wait.2.waits count

/-- Which wait of a playback is stopped: the first one, unless the channel is quiet. -/
def stops (c : StopChannel) : Nat → Bool
  | 0 => c.wait.1
  | k + 1 => c.wait.2.stops k

end StopChannel

/-- Whether the wait after `k` waits is stopped by a sleeper that does not wait: by the channel, by
itself after `stopAt` waits, and in any case after `limit` waits. -/
def eagerStops (c : StopChannel) (stopAt : Option Nat) (limit : Nat) (k : Nat) : Bool :=
  c.stops k || stopAt == some k || limit ≤ k

/-- What joining a playback gives when the synth breaks at the call after `limit` calls: the calls
it still took, and the performance unless it broke. -/
def joinPlayback {τ : Type} (limit : Option Nat) (p : Performance τ) :
    Option (Performance τ) × List SynthCall :=
  match limit with
  | none => (some p, p.calls)
  | some n => (if p.calls.length ≤ n then some p else none, p.calls.take n)

/-- What a playback reports of itself when the synth breaks at the call after `limit` calls: that it
plays, once the programs are selected, and that it was stopped. -/
def Performance.reports (p : Performance Float) (looping : Bool) (limit : Option Nat) :
    List Record :=
  let reached (calls : Nat) := limit.all fun n => decide (calls ≤ n)
  let playing := Record.playing p.timeline.length (totalTime p.timeline) looping
  (if reached p.programs.length then [playing] else []) ++
    (if p.stopped && reached (p.programs.length + p.notes) then [Record.stopped] else [])

end Cadenza
