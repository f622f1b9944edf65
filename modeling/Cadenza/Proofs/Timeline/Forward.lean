import Cadenza.Proofs.Timeline.Normal
import Cadenza.Proofs.Timeline.Order
import Cadenza.Proofs.Timeline.Spans

/-!
# Timelines run forward

Sorted events that do not begin before zero are told by spans that are not negative, from one event
to the next, and so are their lengths in seconds. The counts of ticks and of nanoseconds take a
negative span for none, but there is nothing to take so: they are cut off at their upper end only.
-/

namespace Cadenza

set_option autoImplicit false

/-- From each event to the next time passes forward. -/
theorem relative_nonneg {last : Rat} {sorted : List (Event Rat)}
    (begun : ∀ e ∈ sorted, last ≤ e.time)
    (rising : sorted.Pairwise fun earlier later => earlier.time ≤ later.time) :
    ∀ e ∈ relativeFrom last sorted, 0 ≤ e.time := by
  induction sorted generalizing last with
  | nil => simp [relativeFrom]
  | cons first rest ih =>
      obtain ⟨least, others⟩ := List.pairwise_cons.1 rising
      intro e member
      rcases List.mem_cons.1 member with rfl | later
      · exact sub_nonneg.2 (begun first List.mem_cons_self)
      · exact ih least others e later

theorem normalize_nonneg {tempo : Tempo Rat} (runs : 0 < tempo.bpm) {events : List (Event Rat)}
    (begun : ∀ e ∈ events, 0 ≤ e.time) :
    ∃ timeline, normalize? tempo events = some timeline ∧ ∀ e ∈ timeline, 0 ≤ e.time := by
  refine ⟨_, normalize_of_compares tempo fun e _ => compares_rat e.time, ?_⟩
  intro e member
  obtain ⟨span, inside, rfl⟩ := List.mem_map.1 member
  apply Tempo.to_seconds_nonneg runs
  apply relative_nonneg _ (rising_sort events) span inside
  intro x listed
  exact begun x ((perm_sort_stable Event.after events).mem_iff.1 listed)

/-- A span that is not negative is counted by the nearest tick, or by the last one. -/
theorem ticks_of_nonneg {tempo : Tempo Rat} (runs : 0 < tempo.bpm) (ticksPerBeat : UInt16)
    {seconds : Rat} (nonneg : 0 ≤ seconds) :
    0 ≤ seconds * tempo.ticksPerSecond ticksPerBeat ∧
      (tempo.ticksOfSeconds ticksPerBeat seconds).toNat =
        min (nearest .toEven (seconds * tempo.ticksPerSecond ticksPerBeat)) maxCount := by
  have product := mul_nonneg nonneg (Tempo.ticks_per_second_nonneg runs ticksPerBeat)
  exact ⟨product, count_of_nonneg .toEven product⟩

theorem of_seconds_of_nonneg {seconds : Rat} (nonneg : 0 ≤ seconds) :
    ClockTime.ofSeconds seconds =
      ⟨(Time.exact (seconds * ClockTime.nanosPerSecond)).count .awayFromZero⟩ := by
  have span : (if Time.zero ≤ seconds then seconds else Time.zero) = seconds := if_pos nonneg
  rw [ClockTime.ofSeconds, span]

theorem nanos_of_nonneg {seconds : Rat} (nonneg : 0 ≤ seconds) :
    (ClockTime.ofSeconds seconds).nanos.toNat =
      min (nearest .awayFromZero (seconds * ClockTime.nanosPerSecond)) maxCount := by
  rw [of_seconds_of_nonneg nonneg]
  exact count_of_nonneg .awayFromZero (mul_nonneg nonneg (Nat.cast_nonneg _))

/-- What lies before zero is no wait. -/
theorem of_seconds_of_neg {seconds : Rat} (negative : seconds < 0) :
    ClockTime.ofSeconds seconds = ⟨0⟩ := by
  have span : (if Time.zero ≤ seconds then seconds else Time.zero) = (0 : Rat) :=
    if_neg (not_le.2 negative)
  rw [ClockTime.ofSeconds, span]
  decide +kernel

end Cadenza
