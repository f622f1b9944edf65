import Cadenza.Timeline

/-!
# What normalising keeps

Making times relative and counting them in seconds changes nothing of an event but its time. So but
for their times the events of a timeline are those that were sorted.
-/

namespace Cadenza

set_option autoImplicit false

variable {τ : Type}

def Event.untimed (e : Event τ) : Event Unit :=
  e.withTime ()

/-- What does not read the times is the same for events that differ in nothing else. -/
theorem map_eq_of_untimed {α : Type} {f : Event τ → α} (g : Event Unit → α)
    (reads : ∀ e, f e = g e.untimed) {events others : List (Event τ)}
    (same : events.map Event.untimed = others.map Event.untimed) : events.map f = others.map f := by
  have through : ∀ xs : List (Event τ), xs.map f = (xs.map Event.untimed).map g := by
    intro xs
    rw [List.map_map]
    exact List.map_congr_left fun e _ => reads e
  rw [through, through, same]

variable [Time τ]

theorem normalize_of_compares (tempo : Tempo τ) {events : List (Event τ)}
    (compare : ∀ e ∈ events, Time.compares e.time = true) :
    normalize? tempo events =
      some (eventsToSeconds tempo (toRelative (sortStable Event.after events))) := by
  rw [normalize?, sort_events_of_compares compare, Option.map_some]

theorem length_relative_from (last : τ) (events : List (Event τ)) :
    (relativeFrom last events).length = events.length := by
  induction events generalizing last with
  | nil => rfl
  | cons e rest ih => rw [relativeFrom, List.length_cons, List.length_cons, ih]

theorem untimed_relative_from (last : τ) (events : List (Event τ)) :
    (relativeFrom last events).map Event.untimed = events.map Event.untimed := by
  induction events generalizing last with
  | nil => rfl
  | cons e rest ih =>
      rw [relativeFrom, List.map_cons, List.map_cons, ih]
      rfl

theorem untimed_seconds (tempo : Tempo τ) (sorted : List (Event τ)) :
    (eventsToSeconds tempo (toRelative sorted)).map Event.untimed = sorted.map Event.untimed := by
  rw [eventsToSeconds, List.map_map, ← untimed_relative_from Time.zero sorted]
  rfl

theorem untimed_normalize {tempo : Tempo τ} {events timeline : List (Event τ)}
    (done : normalize? tempo events = some timeline) :
    ∃ sorted, sortEvents? events = some sorted ∧
      timeline.map Event.untimed = sorted.map Event.untimed := by
  obtain ⟨sorted, sorts, rfl⟩ := Option.map_eq_some_iff.1 done
  exact ⟨sorted, sorts, untimed_seconds tempo sorted⟩

end Cadenza
