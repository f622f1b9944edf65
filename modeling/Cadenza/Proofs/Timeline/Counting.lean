import Cadenza.Proofs.Number.Nearest
import Cadenza.Proofs.Timeline.Forward

/-!
# Counting seconds

Seconds are counted in ticks and in nanoseconds, each with a tie rule of its own, and both counts
are cut off at zero and at the end of their range. All this keeps order: a longer span never has the
smaller count. A count of ticks that is told in seconds is read back as it was.
-/

namespace Cadenza

set_option autoImplicit false

theorem nearest_mono (tie : Tie) {x y : Rat} (nonneg : 0 ≤ x) (le : x ≤ y) :
    nearest tie x ≤ nearest tie y := by
  have cross : x.num.toNat * y.den ≤ y.num.toNat * x.den := by
    have whole := Int.toNat_of_nonneg (Rat.num_nonneg.2 nonneg)
    have wholeMore := Int.toNat_of_nonneg (Rat.num_nonneg.2 (nonneg.trans le))
    have exact := (Rat.le_iff x y).1 le
    rw [← whole, ← wholeMore] at exact
    exact_mod_cast exact
  -- Both ratios are rounded in the same parts.
  calc nearest tie x = roundDiv tie (x.num.toNat * y.den) (x.den * y.den) :=
        (round_div_mul tie _ _ y.den_pos).symm
    _ ≤ roundDiv tie (y.num.toNat * x.den) (x.den * y.den) := round_div_mono tie _ cross
    _ = roundDiv tie (y.num.toNat * x.den) (y.den * x.den) := by rw [Nat.mul_comm x.den]
    _ = nearest tie y := round_div_mul tie _ _ x.den_pos

theorem count_mono (tie : Tie) {x y : Rat} (le : x ≤ y) :
    (Time.exact x).count tie ≤ (Time.exact y).count tie := by
  rw [UInt64.le_iff_toNat_le]
  by_cases nonneg : 0 ≤ x
  · rw [count_of_nonneg tie nonneg, count_of_nonneg tie (nonneg.trans le)]
    have rounded := nearest_mono tie nonneg le
    omega
  · rw [count_of_neg tie (not_le.1 nonneg)]
    exact Nat.zero_le _

theorem count_natCast (tie : Tie) (n : UInt64) : (Time.exact (n.toNat : Rat)).count tie = n := by
  have fits : n.toNat ≤ maxCount := by
    have bound := n.toNat_lt
    unfold maxCount UInt64.size
    omega
  apply UInt64.toNat_inj.1
  rw [count_of_nonneg tie (Nat.cast_nonneg _), nearest_natCast, Nat.min_eq_left fits]

theorem count_of_beyond (tie : Tie) {x : Rat} (beyond : maxCount < x) :
    ((Time.exact x).count tie).toNat = maxCount := by
  have nonneg : (0 : Rat) ≤ maxCount := Nat.cast_nonneg _
  have rounded := nearest_mono tie nonneg (le_of_lt beyond)
  rw [nearest_natCast] at rounded
  rw [count_of_nonneg tie (nonneg.trans (le_of_lt beyond)), Nat.min_eq_right rounded]

/-- A tie is never left below. -/
theorem lt_round_div_away (num : Nat) {den : Nat} (pos : 0 < den) :
    2 * num < 2 * (den * roundDiv .awayFromZero num den) + den := by
  have parts := Nat.div_add_mod num den
  have small := Nat.mod_lt num pos
  have up : den * (num / den + 1) = den * (num / den) + den := Nat.mul_succ _ _
  unfold roundDiv
  dsimp only
  split
  · omega
  · split
    · rw [up]
      omega
    · rw [up]
      omega

/-- `n` is a whole number nearest to `x`, the later one if `x` lies half way between two. -/
def NearestUp (x : Rat) (n : Int) : Prop :=
  2 * |x - n| ≤ 1 ∧ (2 * |x - n| = 1 → x < n)

theorem nearest_up {x : Rat} (nonneg : 0 ≤ x) :
    NearestUp x (nearest .awayFromZero x : Nat) := by
  have pos : (0 : Rat) < x.den := by exact_mod_cast x.den_pos
  have close := nearest_within_half .awayFromZero nonneg
  rw [abs_sub_comm] at close
  have below : x.den * (2 * x) < x.den * (2 * (nearest .awayFromZero x : Rat) + 1) := by
    calc x.den * (2 * x) = 2 * (x.num.toNat : Rat) := by rw [num_eq_mul_den nonneg]; ring
      _ < 2 * (x.den * nearest .awayFromZero x) + x.den := by
        exact_mod_cast lt_round_div_away x.num.toNat x.den_pos
      _ = x.den * (2 * (nearest .awayFromZero x : Rat) + 1) := by ring
  have less := lt_of_mul_lt_mul_left below (le_of_lt pos)
  unfold NearestUp
  rw [Int.cast_natCast]
  refine ⟨close, fun half => ?_⟩
  rcases abs_cases (x - nearest .awayFromZero x) with ⟨same, _⟩ | ⟨_, negative⟩
  · linarith
  · linarith

/-- How seconds are counted in units of which `rate` make one: there are none before zero, there is
a last count beyond the range, and in between lies a whole number that is `near`. -/
structure Counts (near : Rat → Int → Prop) (rate seconds : Rat) (count : UInt64) : Prop where
  before : seconds < 0 → count = 0
  inside : 0 ≤ seconds → seconds * rate ≤ maxCount → near (seconds * rate) count.toNat
  beyond : maxCount < seconds * rate → count.toNat = maxCount

namespace Tempo

variable {tempo : Tempo Rat} {ticksPerBeat : UInt16}

theorem ticks_per_second_pos (runs : 0 < tempo.bpm) (cut : 0 < ticksPerBeat) :
    0 < tempo.ticksPerSecond ticksPerBeat := by
  have parts : (0 : Rat) < ticksPerBeat.toNat := by
    exact_mod_cast UInt16.lt_iff_toNat_lt.1 cut
  exact div_pos (mul_pos parts runs) (by norm_num)

/-- Ticks that are told in seconds are read back. -/
theorem ticks_of_seconds_of_ticks (runs : 0 < tempo.bpm) (cut : 0 < ticksPerBeat) (n : UInt64) :
    tempo.ticksOfSeconds ticksPerBeat (tempo.secondsOfTicks ticksPerBeat n) = n := by
  have rate := ticks_per_second_pos runs cut
  have back : tempo.secondsOfTicks ticksPerBeat n * tempo.ticksPerSecond ticksPerBeat = n.toNat :=
    div_mul_cancel₀ _ (ne_of_gt rate)
  rw [ticksOfSeconds, back, count_natCast]

theorem ticks_of_seconds_mono (runs : 0 < tempo.bpm) (ticksPerBeat : UInt16) {a b : Rat}
    (le : a ≤ b) : tempo.ticksOfSeconds ticksPerBeat a ≤ tempo.ticksOfSeconds ticksPerBeat b :=
  count_mono .toEven (mul_le_mul_of_nonneg_right le (ticks_per_second_nonneg runs ticksPerBeat))

theorem counts_ticks (runs : 0 < tempo.bpm) (cut : 0 < ticksPerBeat) (seconds : Rat) :
    Counts NearestEven (tempo.ticksPerSecond ticksPerBeat) seconds
      (tempo.ticksOfSeconds ticksPerBeat seconds) where
  before negative :=
    count_of_neg .toEven (mul_neg_of_neg_of_pos negative (ticks_per_second_pos runs cut))
  inside nonneg fits := by
    have product := mul_nonneg nonneg (le_of_lt (ticks_per_second_pos runs cut))
    rw [ticksOfSeconds, count_of_fits .toEven product fits]
    exact nearest_to_even product
  beyond far := count_of_beyond .toEven far

end Tempo

namespace ClockTime

theorem nanos_mono {a b : Rat} (le : a ≤ b) : (ofSeconds a).nanos ≤ (ofSeconds b).nanos := by
  by_cases nonneg : 0 ≤ a
  · rw [of_seconds_of_nonneg nonneg, of_seconds_of_nonneg (nonneg.trans le)]
    exact count_mono .awayFromZero (mul_le_mul_of_nonneg_right le (Nat.cast_nonneg _))
  · rw [of_seconds_of_neg (not_le.1 nonneg), UInt64.le_iff_toNat_le]
    exact Nat.zero_le _

theorem counts_nanos (seconds : Rat) :
    Counts NearestUp nanosPerSecond seconds (ofSeconds seconds).nanos where
  before negative := by rw [of_seconds_of_neg negative]
  inside nonneg fits := by
    have product : 0 ≤ seconds * nanosPerSecond := mul_nonneg nonneg (Nat.cast_nonneg _)
    rw [of_seconds_of_nonneg nonneg, count_of_fits .awayFromZero product fits]
    exact nearest_up product
  beyond far := by
    have nonneg : 0 ≤ seconds := by
      have product : 0 ≤ seconds * nanosPerSecond := (Nat.cast_nonneg _).trans (le_of_lt far)
      exact nonneg_of_mul_nonneg_left product (by norm_num [nanosPerSecond])
    rw [of_seconds_of_nonneg nonneg, count_of_beyond .awayFromZero far]

end ClockTime

/-- At every tempo above zero and every resolution, over the rationals: a count of ticks told in
seconds is read back; more seconds never have fewer ticks; and the ticks of a span are the nearest
ones, a tie going to the even one, and are cut off at both ends of the range of a count. Nanoseconds
keep order in the same way, with ties going up. -/
theorem seconds_counted_in_order {tempo : Tempo Rat} (runs : 0 < tempo.bpm) {ticksPerBeat : UInt16}
    (cut : 0 < ticksPerBeat) :
    (∀ n, tempo.ticksOfSeconds ticksPerBeat (tempo.secondsOfTicks ticksPerBeat n) = n) ∧
    (∀ a b : Rat, a ≤ b →
      tempo.ticksOfSeconds ticksPerBeat a ≤ tempo.ticksOfSeconds ticksPerBeat b) ∧
    (∀ seconds, Counts NearestEven (ticksPerBeat.toNat * tempo.bpm / 60) seconds
      (tempo.ticksOfSeconds ticksPerBeat seconds)) ∧
    (∀ a b : Rat, a ≤ b → (ClockTime.ofSeconds a).nanos ≤ (ClockTime.ofSeconds b).nanos) ∧
    ∀ seconds : Rat, Counts NearestUp 1000000000 seconds (ClockTime.ofSeconds seconds).nanos :=
  ⟨Tempo.ticks_of_seconds_of_ticks runs cut,
    fun _ _ => Tempo.ticks_of_seconds_mono runs ticksPerBeat, Tempo.counts_ticks runs cut,
    fun _ _ => ClockTime.nanos_mono, ClockTime.counts_nanos⟩

def walking : Tempo Rat := ⟨90⟩

theorem walking_counted_in_order :
    0 < walking.bpm ∧ 0 < (1 : UInt16) ∧
      walking.ticksOfSeconds 1 (walking.secondsOfTicks 1 18446744073709551615) =
        18446744073709551615 ∧
      walking.ticksOfSeconds 1 (1 / 3) = 0 ∧ walking.ticksOfSeconds 1 1 = 2 ∧
      walking.ticksOfSeconds 1 (1 / 3) ≤ walking.ticksOfSeconds 1 1 ∧
      Counts NearestEven ((1 : UInt16).toNat * walking.bpm / 60) 1 2 := by
  have runs : 0 < walking.bpm := by decide
  have cut : 0 < (1 : UInt16) := by decide
  obtain ⟨back, forward, counted, _⟩ := seconds_counted_in_order runs cut
  have whole : walking.ticksOfSeconds 1 1 = 2 := by decide +kernel
  refine ⟨runs, cut, back _, by decide +kernel, whole, forward _ _ (by norm_num), ?_⟩
  rw [← whole]
  exact counted 1

end Cadenza
