import Cadenza.Proofs.Timeline.Instants

/-!
# Ticks

A span of musical time becomes seconds by a tempo and then ticks by the same tempo, so the tempo
cancels: the ticks are those of the musical span alone, rounded once and brought into the range of a
count. Where all times are whole ticks nothing is rounded, and the ticks add up to them.
-/

namespace Cadenza

set_option autoImplicit false

def spanTicks (ticksPerBeat : UInt16) (span : Rat) : UInt64 :=
  (Time.exact (span * (4 * ticksPerBeat.toNat))).count .toEven

/-- At any tempo the ticks are those of the spans from event to event. -/
theorem quantize_eq_span_ticks {tempo : Tempo Rat} (runs : 0 < tempo.bpm) (ticksPerBeat : UInt16)
    (events : List (Event Rat)) :
    quantize? tempo ticksPerBeat events =
      some ((toRelative (sortStable Event.after events)).map
        (·.mapTime (spanTicks ticksPerBeat))) := by
  have cancel : ∀ span, tempo.ticksOfSeconds ticksPerBeat (tempo.toSeconds span) =
      spanTicks ticksPerBeat span := by
    intro span
    rw [Tempo.ticksOfSeconds, Tempo.ticks_of_to_seconds runs, spanTicks]
  rw [quantize?, normalize_of_compares tempo fun e _ => compares_rat e.time, Option.map_some,
    eventsToTicks, eventsToSeconds, List.map_map]
  refine congrArg some (List.map_congr_left fun e _ => ?_)
  exact congrArg e.withTime (cancel e.time)

section Counted

variable (ticksPerBeat : UInt16) (sorted : List (Event Rat))

theorem counts_in_ticks :
    ((toRelative sorted).map (·.mapTime (spanTicks ticksPerBeat))).map (·.time.toNat) =
      (gaps 0 (sorted.map (·.time))).map fun gap => (spanTicks ticksPerBeat gap).toNat := by
  have spans : (toRelative sorted).map (·.time) = gaps 0 (sorted.map (·.time)) :=
    times_relative_from 0 sorted
  rw [← spans, List.map_map, List.map_map]
  rfl

theorem untimed_ticks :
    ((toRelative sorted).map (·.mapTime (spanTicks ticksPerBeat))).map Event.untimed =
      sorted.map Event.untimed := by
  rw [List.map_map, ← untimed_relative_from Time.zero sorted]
  rfl

end Counted

/-- A span from one whole tick to another is counted as it is. -/
theorem span_ticks_of_whole {ticksPerBeat : UInt16} {first last : Rat} (order : first ≤ last)
    {lower upper : Nat} (begins : first * (4 * ticksPerBeat.toNat) = lower)
    (ends : last * (4 * ticksPerBeat.toNat) = upper) (fits : upper ≤ maxCount) :
    ((spanTicks ticksPerBeat (last - first)).toNat : Rat) =
      (last - first) * (4 * ticksPerBeat.toNat) := by
  have nonneg : 0 ≤ (last - first) * (4 * ticksPerBeat.toNat) :=
    mul_nonneg (sub_nonneg.2 order) (by positivity)
  have room : (last - first) * (4 * ticksPerBeat.toNat) ≤ maxCount := by
    have least : (upper : Rat) - lower ≤ upper := sub_le_self _ (Nat.cast_nonneg lower)
    rw [sub_mul, begins, ends]
    exact least.trans (by exact_mod_cast fits)
  rw [spanTicks, count_of_fits .toEven nonneg room, nearest_of_whole .toEven begins ends nonneg]

/-- The ticks of events on the grid add up to their own times. -/
theorem sum_ticks_of_whole {ticksPerBeat : UInt16} {sorted : List (Event Rat)}
    (rising : sorted.Pairwise fun earlier later => earlier.time ≤ later.time)
    (grid : ∀ e ∈ sorted, 0 ≤ e.time ∧
      ∃ whole : Nat, e.time * (4 * ticksPerBeat.toNat) = whole ∧ whole ≤ maxCount)
    {k : Nat} {e : Event Rat} (listed : sorted[k]? = some e) :
    (((((toRelative sorted).map (·.mapTime (spanTicks ticksPerBeat))).take (k + 1)).map
      (·.time.toNat)).sum : Nat) = e.time * (4 * ticksPerBeat.toNat) := by
  have ordered : (0 :: sorted.map (·.time)).Pairwise (· ≤ ·) := by
    refine List.pairwise_cons.2 ⟨?_, List.pairwise_map.2 rising⟩
    intro t member
    obtain ⟨x, inside, rfl⟩ := List.mem_map.1 member
    exact (grid x inside).1
  have exact : ∀ g ∈ (gaps 0 (sorted.map (·.time))).take (k + 1),
      ((spanTicks ticksPerBeat g).toNat : Rat) = g * (4 * ticksPerBeat.toNat) := by
    intro g member
    obtain ⟨a, aIn, b, bIn, order, rfl⟩ := ends_of_mem_gaps ordered (List.mem_of_mem_take member)
    obtain ⟨y, yIn, rfl⟩ := List.mem_map.1 bIn
    obtain ⟨_, upper, ends, fits⟩ := grid y yIn
    -- The span of the first event begins at zero, which is a whole tick as well.
    rcases List.mem_cons.1 aIn with rfl | earlier
    · have start : (0 : Rat) * (4 * ticksPerBeat.toNat) = (0 : Nat) := by
        rw [zero_mul, Nat.cast_zero]
      exact span_ticks_of_whole order start ends fits
    · obtain ⟨x, xIn, rfl⟩ := List.mem_map.1 earlier
      obtain ⟨_, lower, begins, _⟩ := grid x xIn
      exact span_ticks_of_whole order begins ends fits
  have time : (sorted.map (·.time))[k]? = some e.time := by
    rw [List.getElem?_map, listed, Option.map_some]
  rw [List.map_take, counts_in_ticks, ← List.map_take, sum_exact exact, sum_take_gaps time,
    sub_zero]

/-- Over the rationals two tempos above zero give the same ticks for the same events, in their
stable order. The ticks of an event are its span from the event before, in ticks, rounded to the
nearest whole number, a tie to the even one, and cut off at both ends of the range of a count. If
all times are whole ticks within this range, the ticks up to an event add up to its own time. -/
theorem ticks_do_not_tell_tempo (ticksPerBeat : UInt16) (events : List (Event Rat))
    {tempo other : Tempo Rat} (runs : 0 < tempo.bpm) (runs' : 0 < other.bpm) :
    ∃ (sorted : List (Event Rat)) (ticks : List (Event UInt64)),
      quantize? tempo ticksPerBeat events = some ticks ∧
      quantize? other ticksPerBeat events = some ticks ∧
      StablyOrders Event.after events sorted ∧
      ticks.map Event.untimed = sorted.map Event.untimed ∧
      List.Forall₂ (fun gap e => ∃ n, NearestEven (gap * (4 * ticksPerBeat.toNat)) n ∧
        (e.time.toNat : Int) = max 0 (min n maxCount)) (gaps 0 (sorted.map (·.time))) ticks ∧
      ((∀ e ∈ events, 0 ≤ e.time ∧
          ∃ whole : Nat, e.time * (4 * ticksPerBeat.toNat) = whole ∧ whole ≤ maxCount) →
        ∀ (k : Nat) (e : Event Rat), sorted[k]? = some e →
          (((ticks.take (k + 1)).map (·.time.toNat)).sum : Nat) =
            e.time * (4 * ticksPerBeat.toNat)) := by
  refine ⟨_, _, quantize_eq_span_ticks runs ticksPerBeat events,
    quantize_eq_span_ticks runs' ticksPerBeat events, stably_orders_exact events,
    untimed_ticks ticksPerBeat _, ?_, ?_⟩
  · have rounded : List.Forall₂ (fun gap (count : Nat) => ∃ n,
        NearestEven (gap * (4 * ticksPerBeat.toNat)) n ∧ (count : Int) = max 0 (min n maxCount))
        (gaps 0 ((sortStable Event.after events).map (·.time)))
        ((gaps 0 ((sortStable Event.after events).map (·.time))).map
          fun gap => (spanTicks ticksPerBeat gap).toNat) :=
      List.forall₂_map_right_iff.2 (List.forall₂_same.2 fun gap _ => count_to_even _)
    rw [← counts_in_ticks] at rounded
    exact List.forall₂_map_right_iff.1 rounded
  · intro grid k e listed
    apply sum_ticks_of_whole (rising_sort events) _ listed
    exact fun x member => grid x ((perm_sort_stable Event.after events).mem_iff.1 member)

def offBeat : List (Event Rat) :=
  [⟨.noteOn, -1 / 4, 60, defaultVelocity, none⟩, ⟨.noteOn, 1 / 4, 64, defaultVelocity, none⟩,
    ⟨.noteOff, -1 / 8, 60, defaultVelocity, none⟩]

def onBeat : List (Event Rat) :=
  [⟨.noteOn, 1 / 4, 60, defaultVelocity, none⟩, ⟨.noteOff, 3 / 4, 60, defaultVelocity, none⟩,
    ⟨.noteOn, 0, 64, defaultVelocity, none⟩]

theorem beats_at_two_tempos :
    let slow : Tempo Rat := ⟨60⟩
    let fast : Tempo Rat := ⟨177⟩
    0 < slow.bpm ∧ 0 < fast.bpm ∧
      (∃ ticks, quantize? slow 1 offBeat = some ticks ∧ quantize? fast 1 offBeat = some ticks ∧
        ticks.map (·.time) = [0, 0, 2]) ∧
      (∀ e ∈ onBeat, 0 ≤ e.time ∧
        ∃ whole : Nat, e.time * (4 * (1 : UInt16).toNat) = whole ∧ whole ≤ maxCount) ∧
      ∃ ticks, quantize? slow 1 onBeat = some ticks ∧ quantize? fast 1 onBeat = some ticks ∧
        ((((ticks.take 3).map (·.time.toNat)).sum : Nat) : Rat) =
          3 / 4 * (4 * (1 : UInt16).toNat) := by
  intro slow fast
  have runs : 0 < slow.bpm := by decide
  have runs' : 0 < fast.bpm := by decide
  have grid : ∀ e ∈ onBeat, 0 ≤ e.time ∧
      ∃ whole : Nat, e.time * (4 * (1 : UInt16).toNat) = whole ∧ whole ≤ maxCount := by
    have one : ((1 : UInt16).toNat : Rat) = 1 := rfl
    simp only [onBeat, one, List.forall_mem_cons, List.not_mem_nil, false_implies, implies_true,
      and_true]
    exact ⟨⟨by norm_num, 1, by norm_num, by decide⟩, ⟨by norm_num, 3, by norm_num, by decide⟩,
      by norm_num, 0, by norm_num, by decide⟩
  obtain ⟨_, ticks, made, made', _⟩ := ticks_do_not_tell_tempo 1 offBeat runs runs'
  obtain ⟨sorted, whole, all, all', orders, _, _, sums⟩ :=
    ticks_do_not_tell_tempo 1 onBeat runs runs'
  have rounded : quantize? slow 1 offBeat = some [⟨.noteOn, 0, 60, defaultVelocity, none⟩,
      ⟨.noteOff, 0, 60, defaultVelocity, none⟩, ⟨.noteOn, 2, 64, defaultVelocity, none⟩] := by
    decide +kernel
  have last : sorted[2]? = some ⟨.noteOff, 3 / 4, 60, defaultVelocity, none⟩ := by
    rw [eq_sort_of_stably_orders orders]
    decide +kernel
  refine ⟨runs, runs', ⟨ticks, made, made', ?_⟩, grid, whole, all, all', sums grid 2 _ last⟩
  rw [← Option.some.inj (rounded.symm.trans made)]
  rfl

end Cadenza
