import Cadenza.Clock
import Cadenza.Timeline
import Mathlib.Algebra.BigOperators.Ring.List
import Mathlib.Algebra.Order.Ring.Rat
import Mathlib.Algebra.Ring.Parity
import Mathlib.Data.Finset.Sort
import Mathlib.Data.Rat.Lemmas
import Mathlib.Tactic.FieldSimp
import Mathlib.Tactic.Linarith
import Mathlib.Tactic.Ring

/-!
# Rounding exact spans

Over the rationals a musical span has an exact length in ticks and in nanoseconds, and all that
happens to it is that it is rounded. A span that is not negative is counted by the nearest whole
number, or by the greatest count where that does not fit. Spans that are rounded one by one add up
to what is off by half a unit for each of them at most.
-/

namespace Cadenza

set_option autoImplicit false

def nearest (tie : Tie) (x : Rat) : Nat :=
  roundDiv tie x.num.toNat x.den

theorem count_of_nonneg (tie : Tie) {x : Rat} (nonneg : 0 ≤ x) :
    ((Time.exact x).count tie).toNat = min (nearest tie x) maxCount := by
  change ((Exact.ratio x.num x.den).count tie).toNat = _
  obtain ⟨n, whole⟩ := Int.eq_ofNat_of_zero_le (Rat.num_nonneg.2 nonneg)
  rw [nearest, whole]
  exact saturate_to_nat _

theorem count_of_neg (tie : Tie) {x : Rat} (negative : x < 0) : (Time.exact x).count tie = 0 := by
  change (Exact.ratio x.num x.den).count tie = 0
  obtain ⟨n, below⟩ := Int.eq_negSucc_of_lt_zero (Rat.num_neg.2 negative)
  rw [below]
  rfl

theorem num_eq_mul_den {x : Rat} (nonneg : 0 ≤ x) : (x.num.toNat : Rat) = x * x.den := by
  rw [Rat.mul_den_eq_num]
  exact_mod_cast Int.toNat_of_nonneg (Rat.num_nonneg.2 nonneg)

theorem nearest_within_half (tie : Tie) {x : Rat} (nonneg : 0 ≤ x) :
    2 * |(nearest tie x : Rat) - x| ≤ 1 := by
  have pos : (0 : Rat) < x.den := by exact_mod_cast x.den_pos
  have whole := num_eq_mul_den nonneg
  obtain ⟨upper, lower⟩ := round_div_within_half tie x.num.toNat x.den x.den_pos
  have below : x.den * (2 * (nearest tie x : Rat)) ≤ x.den * (2 * x + 1) := by
    calc x.den * (2 * (nearest tie x : Rat)) = 2 * (x.den * nearest tie x) := by ring
      _ ≤ 2 * x.num.toNat + x.den := by exact_mod_cast upper
      _ = x.den * (2 * x + 1) := by rw [whole]; ring
  have above : x.den * (2 * x) ≤ x.den * (2 * (nearest tie x : Rat) + 1) := by
    calc x.den * (2 * x) = 2 * (x.num.toNat : Rat) := by rw [whole]; ring
      _ ≤ 2 * (x.den * nearest tie x) + x.den := by exact_mod_cast lower
      _ = x.den * (2 * (nearest tie x : Rat) + 1) := by ring
  have low := le_of_mul_le_mul_left above pos
  have high := le_of_mul_le_mul_left below pos
  have close : |(nearest tie x : Rat) - x| ≤ 1 / 2 := by
    apply abs_sub_le_iff.2
    constructor <;> linarith
  linarith

theorem nearest_natCast (tie : Tie) (n : Nat) : nearest tie (n : Rat) = n := by
  have exact := round_div_of_dvd tie n 1 Nat.one_pos
  rwa [Nat.mul_one] at exact

/-- What fits into a count is not cut off. -/
theorem nearest_le_of_le (tie : Tie) {x : Rat} (nonneg : 0 ≤ x) {bound : Nat}
    (fits : x ≤ bound) : nearest tie x ≤ bound := by
  have close := nearest_within_half tie nonneg
  have near : 2 * ((nearest tie x : Rat) - x) ≤ 1 :=
    (mul_le_mul_of_nonneg_left (le_abs_self _) zero_le_two).trans close
  have less : (nearest tie x : Rat) < bound + 1 := by linarith
  exact Nat.lt_succ_iff.1 (by exact_mod_cast less)

theorem count_of_fits (tie : Tie) {x : Rat} (nonneg : 0 ≤ x) (fits : x ≤ maxCount) :
    ((Time.exact x).count tie).toNat = nearest tie x := by
  rw [count_of_nonneg tie nonneg, Nat.min_eq_left (nearest_le_of_le tie nonneg fits)]

/-- A span between two whole numbers of units is whole, and nothing of it is rounded. -/
theorem nearest_of_whole (tie : Tie) {first last unit : Rat} {lower upper : Nat}
    (begins : first * unit = lower) (ends : last * unit = upper)
    (nonneg : 0 ≤ (last - first) * unit) :
    (nearest tie ((last - first) * unit) : Rat) = (last - first) * unit := by
  rw [sub_mul, begins, ends] at nonneg ⊢
  have order : lower ≤ upper := by exact_mod_cast sub_nonneg.1 nonneg
  rw [← Nat.cast_sub order, nearest_natCast]

/-- `n` is a whole number nearest to `x`, the even one if `x` lies half way between two. -/
def NearestEven (x : Rat) (n : Int) : Prop :=
  2 * |x - n| ≤ 1 ∧ (2 * |x - n| = 1 → Even n)

theorem NearestEven.neg {x : Rat} {n : Int} (near : NearestEven x n) : NearestEven (-x) (-n) := by
  have same : |-x - (-n : Int)| = |x - n| := by
    rw [Int.cast_neg, ← neg_add', abs_neg, sub_eq_add_neg]
  unfold NearestEven
  rw [same, even_neg]
  exact near

theorem nearest_to_even {x : Rat} (nonneg : 0 ≤ x) : NearestEven x (nearest .toEven x : Nat) := by
  have close := nearest_within_half .toEven nonneg
  rw [abs_sub_comm] at close
  refine ⟨by exact_mod_cast close, ?_⟩
  intro half
  have whole := num_eq_mul_den nonneg
  have sides : 2 * (x.den * nearest .toEven x) = 2 * x.num.toNat + x.den ∨
      2 * x.num.toNat = 2 * (x.den * nearest .toEven x) + x.den := by
    rw [Int.cast_natCast] at half
    rcases abs_cases (x - nearest .toEven x) with ⟨same, _⟩ | ⟨same, _⟩
    · right
      have double : 2 * x = 2 * (nearest .toEven x : Rat) + 1 := by linarith
      have scaled : 2 * (x.num.toNat : Rat) = 2 * (x.den * nearest .toEven x) + x.den := by
        calc 2 * (x.num.toNat : Rat) = 2 * x * x.den := by rw [whole]; ring
          _ = 2 * (x.den * nearest .toEven x) + x.den := by rw [double]; ring
      exact_mod_cast scaled
    · left
      have double : 2 * (nearest .toEven x : Rat) = 2 * x + 1 := by linarith
      have scaled : 2 * (x.den * (nearest .toEven x : Rat)) = 2 * x.num.toNat + x.den := by
        calc 2 * (x.den * (nearest .toEven x : Rat)) = x.den * (2 * nearest .toEven x) := by ring
          _ = 2 * x.num.toNat + x.den := by rw [double, whole]; ring
      exact_mod_cast scaled
  exact (Int.even_coe_nat _).2 (Nat.even_iff.2 (even_round_div_of_half x.den_pos sides))

/-- Over all exact values: rounded to the nearest whole number, a tie to the even one, and then
brought into the range of a count. -/
theorem count_to_even (x : Rat) : ∃ n : Int, NearestEven x n ∧
    (((Time.exact x).count .toEven).toNat : Int) = max 0 (min n maxCount) := by
  by_cases nonneg : 0 ≤ x
  · refine ⟨nearest .toEven x, nearest_to_even nonneg, ?_⟩
    rw [count_of_nonneg .toEven nonneg]
    omega
  · have negative : x < 0 := not_le.1 nonneg
    have opposite := nearest_to_even (neg_nonneg.2 (le_of_lt negative))
    refine ⟨-(nearest .toEven (-x) : Nat), ?_, ?_⟩
    · simpa only [neg_neg] using opposite.neg
    · rw [count_of_neg .toEven negative, UInt64.toNat_zero]
      omega

section Gaps

def gaps (last : Rat) : List Rat → List Rat
  | [] => []
  | t :: rest => (t - last) :: gaps t rest

theorem length_gaps (last : Rat) (times : List Rat) : (gaps last times).length = times.length := by
  induction times generalizing last with
  | nil => rfl
  | cons t rest ih => rw [gaps, List.length_cons, List.length_cons, ih]

theorem sum_gaps_snoc (last : Rat) (front : List Rat) (t : Rat) :
    (gaps last (front ++ [t])).sum = t - last := by
  induction front generalizing last with
  | nil => exact add_zero _
  | cons first rest ih =>
      rw [List.cons_append, gaps, List.sum_cons, ih]
      ring

theorem take_gaps (last : Rat) (times : List Rat) (k : Nat) :
    (gaps last times).take k = gaps last (times.take k) := by
  induction times generalizing last k with
  | nil => rw [List.take_nil, gaps, List.take_nil]
  | cons t rest ih =>
      cases k with
      | zero => rfl
      | succ k => rw [gaps, List.take_succ_cons, List.take_succ_cons, gaps, ih]

/-- The spans up to a time add up to it. -/
theorem sum_take_gaps {last t : Rat} {times : List Rat} {k : Nat} (listed : times[k]? = some t) :
    ((gaps last times).take (k + 1)).sum = t - last := by
  have front : times.take (k + 1) = times.take k ++ [t] := by
    rw [List.take_add_one, listed, Option.toList_some]
  rw [take_gaps, front, sum_gaps_snoc]

/-- Each gap lies between two of the times. -/
theorem ends_of_mem_gaps {last g : Rat} {times : List Rat}
    (sorted : (last :: times).Pairwise (· ≤ ·)) (member : g ∈ gaps last times) :
    ∃ a ∈ last :: times, ∃ b ∈ times, a ≤ b ∧ g = b - a := by
  induction times generalizing last with
  | nil => cases member
  | cons t rest ih =>
      obtain ⟨least, others⟩ := List.pairwise_cons.1 sorted
      rcases List.mem_cons.1 member with rfl | later
      · exact ⟨last, List.mem_cons_self, t, List.mem_cons_self, least t List.mem_cons_self, rfl⟩
      · obtain ⟨a, aIn, b, bIn, order, rfl⟩ := ih others later
        exact ⟨a, List.mem_cons_of_mem last aIn, b, List.mem_cons_of_mem t bIn, order, rfl⟩

/-- Times that come twice leave a gap of nothing, which adds nothing. -/
theorem sum_gaps_dedup {M : Type} [AddMonoid M] {f : Rat → M} (still : f 0 = 0) (last : Rat)
    {times : List Rat} (sorted : times.Pairwise (· ≤ ·)) :
    ((gaps last times.dedup).map f).sum = ((gaps last times).map f).sum := by
  induction times generalizing last with
  | nil => rfl
  | cons t rest ih =>
      obtain ⟨least, others⟩ := List.pairwise_cons.1 sorted
      by_cases again : t ∈ rest
      · rw [List.dedup_cons_of_mem again, ih last others]
        cases rest with
        | nil => cases again
        | cons next rest =>
            -- The next time is the same one, as it is the least of those that follow.
            have first : t ≤ next := least next List.mem_cons_self
            have same : t = next := by
              rcases List.mem_cons.1 again with equal | later
              · exact equal
              · exact le_antisymm first ((List.pairwise_cons.1 others).1 t later)
            subst same
            simp only [gaps, List.map_cons, List.sum_cons, sub_self, still, zero_add]
      · rw [List.dedup_cons_of_notMem again]
        simp only [gaps, List.map_cons, List.sum_cons, ih t others]

theorem dedup_eq_sort {times : List Rat} (sorted : times.Pairwise (· ≤ ·)) :
    times.dedup = times.toFinset.sort (· ≤ ·) := by
  have rising := sorted.sublist times.dedup_sublist
  have same : times.dedup.toFinset = times.toFinset := by
    ext t
    rw [List.mem_toFinset, List.mem_toFinset, List.mem_dedup]
  rw [← same, (List.toFinset_sort (· ≤ ·) times.nodup_dedup).2 rising]

/-- Rounding the parts one by one is off by no more than all of them together. -/
theorem sum_near {f : Rat → Nat} {unit : Rat} {spans : List Rat}
    (near : ∀ g ∈ spans, 2 * |(f g : Rat) - g * unit| ≤ 1) :
    2 * |((spans.map f).sum : Rat) - spans.sum * unit| ≤ spans.length := by
  induction spans with
  | nil => simp
  | cons g rest ih =>
      have here := near g List.mem_cons_self
      have others := ih fun h member => near h (List.mem_cons_of_mem g member)
      have parts : (((g :: rest).map f).sum : Rat) - (g :: rest).sum * unit =
          ((f g : Rat) - g * unit) + (((rest.map f).sum : Rat) - rest.sum * unit) := by
        simp only [List.map_cons, List.sum_cons, Nat.cast_add]
        ring
      have triangle := abs_add_le ((f g : Rat) - g * unit)
        (((rest.map f).sum : Rat) - rest.sum * unit)
      rw [parts, List.length_cons, Nat.cast_add, Nat.cast_one]
      linarith

theorem sum_exact {f : Rat → Nat} {unit : Rat} {spans : List Rat}
    (exact : ∀ g ∈ spans, (f g : Rat) = g * unit) :
    ((spans.map f).sum : Rat) = spans.sum * unit := by
  induction spans with
  | nil => simp
  | cons g rest ih =>
      have others := ih fun h member => exact h (List.mem_cons_of_mem g member)
      rw [List.map_cons, List.sum_cons, List.sum_cons, Nat.cast_add, others,
        exact g List.mem_cons_self]
      ring

end Gaps

namespace Tempo

variable {tempo : Tempo Rat}

theorem to_seconds_nonneg (runs : 0 < tempo.bpm) {span : Rat} (nonneg : 0 ≤ span) :
    0 ≤ tempo.toSeconds span := by
  have beat : 0 ≤ 60 / tempo.bpm := div_nonneg (Nat.cast_nonneg 60) (le_of_lt runs)
  exact mul_nonneg (mul_nonneg nonneg (Nat.cast_nonneg 4)) beat

theorem to_seconds_eq (tempo : Tempo Rat) (span : Rat) :
    tempo.toSeconds span = 240 / tempo.bpm * span := by
  change span * 4 * (60 / tempo.bpm) = _
  ring

theorem sum_map_to_seconds (tempo : Tempo Rat) (spans : List Rat) :
    (spans.map tempo.toSeconds).sum = tempo.toSeconds spans.sum := by
  rw [funext tempo.to_seconds_eq, List.sum_map_mul_left, List.map_id']

theorem to_musical_to_seconds (runs : 0 < tempo.bpm) (span : Rat) :
    tempo.toMusical (tempo.toSeconds span) = span := by
  change span * 4 * (60 / tempo.bpm) / (4 * (60 / tempo.bpm)) = span
  field_simp

theorem to_seconds_neg_iff (runs : 0 < tempo.bpm) {span : Rat} :
    tempo.toSeconds span < 0 ↔ span < 0 := by
  have scale : 0 < 240 / tempo.bpm := div_pos (by norm_num) runs
  rw [to_seconds_eq, ← mul_lt_mul_iff_right₀ scale (b := span) (c := 0), mul_zero]

theorem ticks_per_second_nonneg (runs : 0 < tempo.bpm) (ticksPerBeat : UInt16) :
    0 ≤ tempo.ticksPerSecond ticksPerBeat := by
  have minute : 0 ≤ (ticksPerBeat.toNat : Rat) * tempo.bpm :=
    mul_nonneg (Nat.cast_nonneg _) (le_of_lt runs)
  exact div_nonneg minute (Nat.cast_nonneg 60)

/-- Ticks of a musical span do not depend on the tempo. -/
theorem ticks_of_to_seconds (runs : 0 < tempo.bpm) (ticksPerBeat : UInt16) (span : Rat) :
    tempo.toSeconds span * tempo.ticksPerSecond ticksPerBeat =
      span * (4 * ticksPerBeat.toNat) := by
  change span * 4 * (60 / tempo.bpm) * (ticksPerBeat.toNat * tempo.bpm / 60) = _
  field_simp

end Tempo

end Cadenza
