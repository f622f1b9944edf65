import Cadenza.Proofs.Sorting.Places
import Cadenza.Proofs.Timeline.Forward

/-!
# When the events of a timeline come

A timeline holds the events of a track in their stable order and tells the time from each of them to
the next. Over the rationals nothing is lost by that: the relative times add up to the absolute one
of every event, scaled by the tempo. Only the first of them can be negative.
-/

namespace Cadenza

set_option autoImplicit false

section Ordered

variable {τ : Type} [Time τ] [OrderedTime τ]

theorem stably_orders_events {events : List (Event τ)}
    (compare : ∀ e ∈ events, Time.compares e.time = true) :
    StablyOrders Event.after events (sortStable Event.after events) :=
  (stably_orders_iff weak_order_after compare).2 rfl

end Ordered

theorem stably_orders_exact (events : List (Event Rat)) :
    StablyOrders Event.after events (sortStable Event.after events) :=
  stably_orders_events fun e _ => compares_rat e.time

theorem times_relative_from (last : Rat) (events : List (Event Rat)) :
    (relativeFrom last events).map (·.time) = gaps last (events.map (·.time)) := by
  induction events generalizing last with
  | nil => rfl
  | cons e rest ih =>
      rw [relativeFrom, List.map_cons, ih]
      rfl

/-- The times of a timeline are the spans between the sorted times, in seconds. -/
theorem times_in_seconds (tempo : Tempo Rat) (sorted : List (Event Rat)) :
    (eventsToSeconds tempo (toRelative sorted)).map (·.time) =
      (gaps 0 (sorted.map (·.time))).map tempo.toSeconds := by
  have spans : (toRelative sorted).map (·.time) = gaps 0 (sorted.map (·.time)) :=
    times_relative_from 0 sorted
  rw [← spans, eventsToSeconds, List.map_map, List.map_map]
  rfl

/-- The seconds up to an event add up to its own time. -/
theorem sum_in_seconds (tempo : Tempo Rat) {sorted : List (Event Rat)} {k : Nat} {e : Event Rat}
    (listed : sorted[k]? = some e) :
    (((eventsToSeconds tempo (toRelative sorted)).take (k + 1)).map (·.time)).sum =
      tempo.toSeconds e.time := by
  have time : (sorted.map (·.time))[k]? = some e.time := by
    rw [List.getElem?_map, listed, Option.map_some]
  rw [List.map_take, times_in_seconds, ← List.map_take, Tempo.sum_map_to_seconds,
    sum_take_gaps time, sub_zero]

theorem seconds_after_first {tempo : Tempo Rat} (runs : 0 < tempo.bpm) {sorted : List (Event Rat)}
    (rising : sorted.Pairwise fun earlier later => earlier.time ≤ later.time) :
    ∀ e ∈ (eventsToSeconds tempo (toRelative sorted)).tail, 0 ≤ e.time := by
  cases sorted with
  | nil => simp [eventsToSeconds, toRelative, relativeFrom]
  | cons first rest =>
      obtain ⟨least, others⟩ := List.pairwise_cons.1 rising
      intro e member
      obtain ⟨span, inside, rfl⟩ := List.mem_map.1 member
      exact Tempo.to_seconds_nonneg runs (relative_nonneg least others span inside)

/-- The first relative time is counted from zero, so it has the sign of the earliest event. -/
theorem first_seconds_neg_iff {tempo : Tempo Rat} (runs : 0 < tempo.bpm)
    {sorted : List (Event Rat)}
    (rising : sorted.Pairwise fun earlier later => earlier.time ≤ later.time) {e : Event Rat}
    (first : (eventsToSeconds tempo (toRelative sorted)).head? = some e) :
    e.time < 0 ↔ ∃ x ∈ sorted, x.time < 0 := by
  cases sorted with
  | nil => cases first
  | cons start rest =>
      obtain ⟨least, _⟩ := List.pairwise_cons.1 rising
      obtain rfl := Option.some.inj first
      change tempo.toSeconds (start.time - 0) < 0 ↔ _
      rw [sub_zero, Tempo.to_seconds_neg_iff runs]
      constructor
      · intro negative
        exact ⟨start, List.mem_cons_self, negative⟩
      · rintro ⟨x, member, negative⟩
        rcases List.mem_cons.1 member with rfl | later
        · exact negative
        · exact lt_of_le_of_lt (least x later) negative

/-- There is one stable order of events at exact times. -/
theorem eq_sort_of_stably_orders {events sorted : List (Event Rat)}
    (orders : StablyOrders Event.after events sorted) : sorted = sortStable Event.after events :=
  (stably_orders_iff weak_order_after fun e _ => compares_rat e.time).1 orders

/-- Events at finite times are normalised to the same events in their stable order, whatever the
tempo. Counted over the rationals, at a tempo above zero, the times up to an event add up to its own
one, where a whole note lasts 240 seconds divided by the tempo; each of them taken back to musical
time is the span from the event before. None is negative but the first, and that one exactly if the
earliest event comes before zero. -/
theorem timeline_tells_instants :
    (∀ (tempo : Tempo Float) (events : List (Event Float)),
      (∀ e ∈ events, e.time.isFinite = true) →
      ∃ sorted timeline, normalize? tempo events = some timeline ∧
        StablyOrders Event.after events sorted ∧
        timeline.map Event.untimed = sorted.map Event.untimed) ∧
    ∀ (tempo : Tempo Rat) (events : List (Event Rat)), 0 < tempo.bpm →
      ∃ sorted timeline, normalize? tempo events = some timeline ∧
        StablyOrders Event.after events sorted ∧
        timeline.map Event.untimed = sorted.map Event.untimed ∧
        (∀ k e, sorted[k]? = some e →
          ((timeline.take (k + 1)).map (·.time)).sum = 240 / tempo.bpm * e.time) ∧
        timeline.map (fun e => tempo.toMusical e.time) = gaps 0 (sorted.map (·.time)) ∧
        (∀ e ∈ timeline.tail, 0 ≤ e.time) ∧
        ∀ e, timeline.head? = some e → (e.time < 0 ↔ ∃ x ∈ events, x.time < 0) := by
  constructor
  · intro tempo events finite
    have compare : ∀ e ∈ events, Time.compares e.time = true :=
      fun e member => compares_of_finite (finite e member)
    exact ⟨_, _, normalize_of_compares tempo compare, stably_orders_events compare,
      untimed_seconds tempo _⟩
  · intro tempo events runs
    have rising := rising_sort events
    refine ⟨_, _, normalize_of_compares tempo fun e _ => compares_rat e.time,
      stably_orders_exact events, untimed_seconds tempo _, ?_, ?_,
      seconds_after_first runs rising, ?_⟩
    · intro k e listed
      rw [sum_in_seconds tempo listed, Tempo.to_seconds_eq]
    · have back : tempo.toMusical ∘ tempo.toSeconds = id :=
        funext (Tempo.to_musical_to_seconds runs)
      have spans := congrArg (List.map tempo.toMusical)
        (times_in_seconds tempo (sortStable Event.after events))
      rwa [List.map_map, List.map_map, back, List.map_id] at spans
    · intro e first
      rw [first_seconds_neg_iff runs rising first]
      have same : ∀ x, x ∈ sortStable Event.after events ↔ x ∈ events :=
        fun x => (perm_sort_stable Event.after events).mem_iff
      exact exists_congr fun x => and_congr_left fun _ => same x

/-- A note and the one that leads to it from before the bar; the end of the latter is listed after
the beginning of the former, at the same time. -/
def upbeat (τ : Type) [Time τ] : List (Event τ) :=
  [⟨.noteOn, ((0 : Nat) : τ), 62, defaultVelocity, none⟩,
    ⟨.noteOff, ((1 : Nat) : τ), 62, defaultVelocity, none⟩,
    ⟨.noteOn, Time.zero - ((1 : Nat) : τ), 60, defaultVelocity, none⟩,
    ⟨.noteOff, ((0 : Nat) : τ), 60, defaultVelocity, none⟩]

theorem upbeat_tells_instants :
    (∀ e ∈ upbeat Float, e.time.isFinite = true) ∧
      (∃ sorted timeline, normalize? Tempo.default (upbeat Float) = some timeline ∧
        StablyOrders Event.after (upbeat Float) sorted ∧
        timeline.map Event.untimed = sorted.map Event.untimed) ∧
      0 < (Tempo.default : Tempo Rat).bpm ∧
      ∃ timeline, normalize? Tempo.default (upbeat Rat) = some timeline ∧
        timeline.map (·.key) = [60, 62, 60, 62] ∧
        timeline.map (fun e => Tempo.default.toMusical e.time) = [-1, 1, 0, 1] ∧
        ((timeline.take 4).map (·.time)).sum = 240 / 120 * 1 ∧
        (∀ e ∈ timeline.tail, 0 ≤ e.time) ∧ ∀ e, timeline.head? = some e → e.time < 0 := by
  have finite : ∀ e ∈ upbeat Float, e.time.isFinite = true := by decide +kernel
  have runs : 0 < (Tempo.default : Tempo Rat).bpm := by decide
  obtain ⟨floats, exact⟩ := timeline_tells_instants
  obtain ⟨sorted, timeline, made, orders, same, sums, spans, later, first⟩ :=
    exact Tempo.default (upbeat Rat) runs
  have order : sorted = [⟨.noteOn, -1, 60, defaultVelocity, none⟩,
      ⟨.noteOn, 0, 62, defaultVelocity, none⟩, ⟨.noteOff, 0, 60, defaultVelocity, none⟩,
      ⟨.noteOff, 1, 62, defaultVelocity, none⟩] := by
    rw [eq_sort_of_stably_orders orders]
    decide +kernel
  subst order
  have early : ∃ x ∈ upbeat Rat, x.time < 0 := by decide +kernel
  exact ⟨finite, floats Tempo.default (upbeat Float) finite, runs, timeline, made,
    map_eq_of_untimed Event.key (fun _ => rfl) same, spans.trans (by decide +kernel),
    sums 3 _ rfl, later, fun e leads => (first e leads).2 early⟩

end Cadenza
