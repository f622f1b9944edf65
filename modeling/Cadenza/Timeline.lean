import Cadenza.Event
import Cadenza.Sorting.Parting
import Cadenza.Tempo

/-!
# Timelines

The events of a track, sorted by their absolute musical time, become a list of relative times: each
event tells how long after the one before it comes, in seconds or in ticks. Simultaneous events
keep the order they were laid out in, so a note is never cut before it starts. Only times that are
not numbers can contradict each other, so that there is no order.
-/

namespace Cadenza

set_option autoImplicit false

variable {τ : Type} [Time τ]

def Event.after (later earlier : Event τ) : Bool :=
  decide (earlier.time < later.time)

/-- The greatest length of a list that is sorted by inserting alone. -/
def insertLength : Nat := 20

/-- Events in the order of their times. There is only one stable order of times that compare; in a
longer list with other times comparisons may contradict each other. -/
def sortEvents? (events : List (Event τ)) : Option (List (Event τ)) :=
  if events.length ≤ insertLength || events.all (Time.compares ·.time) then
    some (sortStable Event.after events)
  else Sorting.sortLong? Event.after events

theorem sort_events_of_compares {events : List (Event τ)}
    (compare : ∀ e ∈ events, Time.compares e.time = true) :
    sortEvents? events = some (sortStable Event.after events) := by
  have all := List.all_eq_true.2 compare
  simp [sortEvents?, all]

theorem perm_sort_events {events sorted : List (Event τ)}
    (h : sortEvents? events = some sorted) : sorted.Perm events := by
  unfold sortEvents? at h
  split at h
  · obtain rfl := Option.some.inj h
    exact perm_sort_stable Event.after events
  · exact Sorting.perm_sort_long h

/-- Absolute times as the time since the event before, the first one since `last`. -/
def relativeFrom (last : τ) : List (Event τ) → List (Event τ)
  | [] => []
  | e :: rest => e.withTime (e.time - last) :: relativeFrom e.time rest

def toRelative (events : List (Event τ)) : List (Event τ) :=
  relativeFrom Time.zero events

def eventsToSeconds (tempo : Tempo τ) (events : List (Event τ)) : List (Event τ) :=
  events.map (·.mapTime tempo.toSeconds)

def eventsToTicks (tempo : Tempo τ) (ticksPerBeat : UInt16) (events : List (Event τ)) :
    List (Event UInt64) :=
  events.map (·.mapTime (tempo.ticksOfSeconds ticksPerBeat))

def normalize? (tempo : Tempo τ) (events : List (Event τ)) : Option (List (Event τ)) :=
  (sortEvents? events).map fun sorted => eventsToSeconds tempo (toRelative sorted)

def quantize? (tempo : Tempo τ) (ticksPerBeat : UInt16) (events : List (Event τ)) :
    Option (List (Event UInt64)) :=
  (normalize? tempo events).map (eventsToTicks tempo ticksPerBeat)

inductive Timeline (τ : Type) where
  | seconds (events : List (Event τ))
  | ticks (events : List (Event UInt64))
  deriving BEq, DecidableEq, Repr

def Timeline.length {υ : Type} : Timeline υ → Nat
  | .seconds events => events.length
  | .ticks events => events.length

structure Normalizer (τ : Type) where
  tempo : Tempo τ
  ticksPerBeat : UInt16
  quantize : Bool

namespace Normalizer

def default : Normalizer τ :=
  ⟨Tempo.default, defaultTicksPerBeat, true⟩

def timeline? (n : Normalizer τ) (events : List (Event τ)) : Option (Timeline τ) :=
  if n.quantize then (quantize? n.tempo n.ticksPerBeat events).map .ticks
  else (normalize? n.tempo events).map .seconds

end Normalizer

end Cadenza
