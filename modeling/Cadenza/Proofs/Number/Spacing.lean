import Cadenza.Proofs.Number.Sums

/-!
# Where doubles lie

Doubles are counted by their ranks, and the one of a rank stands for a number of units. Two that
follow one another are a power of two apart, and that width changes at even ranks only and by a
factor of two. What is rounded to a double lies between the two middles around it, and on a middle
only if the rank is even.

From that alone: adding a span and taking it off again, both rounded, may lead away from where it
started, but doing so once more leads nowhere else.
-/

namespace Cadenza

set_option autoImplicit false

def widthExponent (rank : Nat) : Nat :=
  rank / 2 ^ 52 - 1

def magnitudeAt (rank : Nat) : Nat :=
  (rank - widthExponent rank * 2 ^ 52) * 2 ^ widthExponent rank

def unitsAt (rank : Int) : Int :=
  if rank < 0 then -(magnitudeAt rank.natAbs : Int) else magnitudeAt rank.natAbs

def widthAt (rank : Int) : Nat :=
  2 ^ widthExponent (if rank < 0 then -rank - 1 else rank).toNat

theorem width_exponent_of_parts {m k : Nat} (small : m < 2 ^ 53) (normal : 2 ^ 52 ≤ m ∨ k = 0) :
    widthExponent (k * 2 ^ 52 + m) = k := by
  unfold widthExponent
  omega

theorem magnitude_of_parts {m k : Nat} (bound : m ≤ 2 ^ 53) (normal : 2 ^ 52 ≤ m ∨ k = 0) :
    magnitudeAt (k * 2 ^ 52 + m) = m * 2 ^ k := by
  rcases Nat.lt_or_eq_of_le bound with small | rfl
  · rw [magnitudeAt, width_exponent_of_parts small normal, Nat.add_sub_cancel_left]
  · have carried : k * 2 ^ 52 + 2 ^ 53 = (k + 1) * 2 ^ 52 + 2 ^ 52 := by omega
    rw [carried, magnitudeAt, width_exponent_of_parts (by decide) (Or.inl (Nat.le_refl _)),
      Nat.add_sub_cancel_left, ← Nat.pow_add, ← Nat.pow_add]
    congr 1
    omega

theorem magnitude_succ (rank : Nat) :
    magnitudeAt (rank + 1) = magnitudeAt rank + 2 ^ widthExponent rank := by
  have parts : rank = widthExponent rank * 2 ^ 52 + (rank - widthExponent rank * 2 ^ 52) := by
    unfold widthExponent
    omega
  have more : magnitudeAt (widthExponent rank * 2 ^ 52 +
      (rank - widthExponent rank * 2 ^ 52 + 1)) =
        (rank - widthExponent rank * 2 ^ 52 + 1) * 2 ^ widthExponent rank := by
    apply magnitude_of_parts
    · unfold widthExponent
      omega
    · unfold widthExponent
      omega
  rw [← Nat.add_assoc, ← parts] at more
  rw [more, Nat.succ_mul]
  rfl

theorem units_at_natCast (rank : Nat) : unitsAt (rank : Int) = magnitudeAt rank := by
  rw [unitsAt, if_neg (by omega), Int.natAbs_natCast]

theorem units_at_neg (rank : Int) : unitsAt (-rank) = -unitsAt rank := by
  have origin : magnitudeAt 0 = 0 := rfl
  unfold unitsAt
  rw [Int.natAbs_neg]
  rcases Int.lt_trichotomy rank 0 with negative | rfl | positive
  · rw [if_neg (by omega), if_pos negative, Int.neg_neg]
  · simp [origin]
  · rw [if_pos (by omega), if_neg (by omega)]

theorem width_at_natCast (rank : Nat) : widthAt (rank : Int) = 2 ^ widthExponent rank := by
  rw [widthAt, if_neg (by omega), Int.toNat_natCast]

theorem units_at_succ (rank : Int) : unitsAt (rank + 1) = unitsAt rank + widthAt rank := by
  by_cases negative : rank < 0
  · obtain ⟨n, rfl⟩ : ∃ n : Nat, rank = -((n + 1 : Nat) : Int) := ⟨rank.natAbs - 1, by omega⟩
    have step := magnitude_succ n
    have next : -((n + 1 : Nat) : Int) + 1 = -(n : Int) := by omega
    have inward : (- -((n + 1 : Nat) : Int) - 1).toNat = n := by omega
    rw [next, units_at_neg, units_at_neg, units_at_natCast, units_at_natCast, widthAt,
      if_pos negative, inward]
    omega
  · obtain ⟨n, rfl⟩ := Int.eq_ofNat_of_zero_le (Int.not_lt.1 negative)
    rw [width_at_natCast, units_at_natCast, ← Int.natCast_succ, units_at_natCast,
      Nat.succ_eq_add_one, magnitude_succ]
    rfl

theorem width_pos (rank : Int) : 0 < widthAt rank :=
  Nat.two_pow_pos _

theorem units_at_strict {r s : Int} (less : r < s) : unitsAt r < unitsAt s := by
  obtain ⟨n, rfl⟩ : ∃ n : Nat, s = r + 1 + n := ⟨(s - r - 1).toNat, by omega⟩
  induction n with
  | zero =>
      have step := units_at_succ r
      have wide := width_pos r
      rw [Int.natCast_zero, Int.add_zero]
      omega
  | succ n ih =>
      have before := ih (by omega)
      have step := units_at_succ (r + 1 + n)
      have wide := width_pos (r + 1 + n)
      rw [Int.natCast_succ, ← Int.add_assoc]
      omega

theorem units_at_mono {r s : Int} (le : r ≤ s) : unitsAt r ≤ unitsAt s := by
  rcases Int.lt_or_eq_of_le le with less | rfl
  · exact Int.le_of_lt (units_at_strict less)
  · exact Int.le_refl _

/-- A width that is less than another one is at most half of it. -/
theorem twice_width_le {r s : Int} (less : widthAt r < widthAt s) :
    2 * widthAt r ≤ widthAt s := by
  have exponents := (Nat.pow_lt_pow_iff_right (by decide)).1 less
  unfold widthAt
  rw [← Nat.pow_succ']
  exact Nat.pow_le_pow_right (by decide) exponents

theorem width_before_le (r : Int) : widthAt (r - 1) ≤ 2 * widthAt r := by
  unfold widthAt
  rw [← Nat.pow_succ']
  apply Nat.pow_le_pow_right (by decide)
  unfold widthExponent
  split <;> split <;> omega

theorem even_of_width_lt {r : Int} (less : widthAt r < widthAt (r - 1)) : r % 2 = 0 := by
  have exponents := (Nat.pow_lt_pow_iff_right (by decide)).1 less
  unfold widthExponent at exponents
  split at exponents <;> split at exponents <;> omega

/-- A number of units is rounded to the double of a rank: it lies between the middles on both sides,
and on one of them only if the rank is even. -/
structure RoundsTo (n r : Int) : Prop where
  above : unitsAt (r - 1) + unitsAt r ≤ 2 * n
  below : 2 * n ≤ unitsAt r + unitsAt (r + 1)
  even : 2 * n = unitsAt (r - 1) + unitsAt r ∨ 2 * n = unitsAt r + unitsAt (r + 1) → r % 2 = 0

namespace RoundsTo

variable {n more r s : Int}

theorem self (r : Int) : RoundsTo (unitsAt r) r := by
  have before := units_at_strict (show r - 1 < r by omega)
  have after := units_at_strict (show r < r + 1 by omega)
  exact ⟨by omega, by omega, by omega⟩

theorem neg (rounds : RoundsTo n r) (turned : more = -n) : RoundsTo more (-r) := by
  have before : unitsAt (-r - 1) = -unitsAt (r + 1) := by
    rw [← units_at_neg]
    congr 1
    omega
  have after : unitsAt (-r + 1) = -unitsAt (r - 1) := by
    rw [← units_at_neg]
    congr 1
    omega
  have here := units_at_neg r
  obtain ⟨above, below, even⟩ := rounds
  exact ⟨by omega, by omega, by omega⟩

/-- Rounding keeps order: two neighbours cannot both be even. -/
theorem mono (rounds : RoundsTo n r) (others : RoundsTo more s) (le : n ≤ more) : r ≤ s := by
  apply Int.not_lt.1
  intro less
  have first := units_at_mono (show s ≤ r - 1 by omega)
  have second := units_at_mono (show s + 1 ≤ r by omega)
  have above := rounds.above
  have below := others.below
  have even := rounds.even (Or.inl (by omega))
  have other := others.even (Or.inr (by omega))
  by_cases neighbours : s + 1 = r
  · omega
  · have apart := units_at_strict (show s + 1 < r by omega)
    omega

theorem unique (rounds : RoundsTo n r) (others : RoundsTo n s) : r = s :=
  Int.le_antisymm (rounds.mono others (Int.le_refl n)) (others.mono rounds (Int.le_refl n))

/-- What is rounded to a double is beyond the middle between it and any one below. -/
theorem beyond_middle (rounds : RoundsTo n r) (less : s < r) :
    unitsAt s + unitsAt r ≤ 2 * n := by
  have above := rounds.above
  have le := units_at_mono (show s ≤ r - 1 by omega)
  omega

end RoundsTo

theorem lt_of_units_at_lt {r s : Int} (less : unitsAt r < unitsAt s) : r < s := by
  by_contra reversed
  have le := units_at_mono (Int.not_lt.1 reversed)
  omega

section Drift

variable {x d t y t' y' : Int} (out : RoundsTo (unitsAt x + d) t)
  (back : RoundsTo (unitsAt t - d) y) (again : RoundsTo (unitsAt y + d) t')
  (home : RoundsTo (unitsAt t' - d) y')

include out back again in
/-- What was rounded up on the way back was moved no further than on the way out. So the second way
out leads to the same double or to the next one, and to that one only if doubles are closer above
the first one than below it. -/
theorem next_of_rounded_up (up : unitsAt t - d < unitsAt y) (other : t' ≠ t) :
    t' = t + 1 ∧ widthAt t < widthAt (t - 1) := by
  have later : t < t' := by
    have le := (RoundsTo.self t).mono again (by omega)
    omega
  have begun : x < y := by
    apply lt_of_units_at_lt
    by_contra reversed
    have le := again.mono out (by omega)
    omega
  have moved := back.beyond_middle begun
  have outAbove := out.above
  have ratio := width_before_le t
  have width := units_at_succ t
  have lastWidth := units_at_succ (t - 1)
  rw [Int.sub_add_cancel] at lastWidth
  have one : t' = t + 1 := by
    have le := again.mono (RoundsTo.self (t + 1)) (by omega)
    omega
  subst one
  refine ⟨rfl, ?_⟩
  by_contra wide
  -- Both ways out would end on a middle, and two neighbours would be even.
  have outward := again.beyond_middle later
  have even := out.even (Or.inl (by omega))
  have next := again.even
  rw [Int.add_sub_cancel] at next
  have other := next (Or.inl (by omega))
  omega

include out back again home in
/-- What was rounded up on the way back stays where it is: if the second way back led elsewhere, the
double it starts from would be closer to the next one than half of the width there, and the second
way out would have been too short. -/
theorem settled_of_rounded_up (up : unitsAt t - d < unitsAt y) : y' = y := by
  by_cases same : t' = t
  · subst same
    exact home.unique back
  by_contra apart
  obtain ⟨rfl, narrower⟩ := next_of_rounded_up out back again up same
  have later := units_at_strict (show t < t + 1 by omega)
  have further : y < y' := by
    have le := back.mono home (by omega)
    omega
  have outward := again.beyond_middle (show t < t + 1 by omega)
  have homeward := home.beyond_middle further
  have beyond := units_at_mono (show y + 1 ≤ y' by omega)
  have width := units_at_succ t
  have homeWidth := units_at_succ y
  have lastHome := units_at_succ (y - 1)
  rw [Int.sub_add_cancel] at lastHome
  have backAbove := back.above
  have ratio := width_before_le y
  have even := even_of_width_lt narrower
  have odd : 2 * (unitsAt y + d) ≠ unitsAt t + unitsAt (t + 1) := by
    have tied := again.even
    rw [Int.add_sub_cancel] at tied
    intro tie
    have other := tied (Or.inl tie)
    omega
  have half := twice_width_le (show widthAt y < widthAt t by omega)
  omega

include out back again home in
/-- Adding a span and taking it off again, both rounded, leads nowhere new the second time. -/
theorem settled_after_once : y' = y := by
  rcases Int.lt_trichotomy (unitsAt t - d) (unitsAt y) with up | exactly | down
  · exact settled_of_rounded_up out back again home up
  · have same : unitsAt y + d = unitsAt t := by omega
    rw [same] at again
    obtain rfl := again.unique (RoundsTo.self t)
    exact home.unique back
  · have outTurned : RoundsTo (unitsAt (-x) + -d) (-t) := out.neg (by rw [units_at_neg]; omega)
    have backTurned : RoundsTo (unitsAt (-t) - -d) (-y) := back.neg (by rw [units_at_neg]; omega)
    have againTurned : RoundsTo (unitsAt (-y) + -d) (-t') :=
      again.neg (by rw [units_at_neg]; omega)
    have homeTurned : RoundsTo (unitsAt (-t') - -d) (-y') :=
      home.neg (by rw [units_at_neg]; omega)
    have up : unitsAt (-t) - -d < unitsAt (-y) := by
      rw [units_at_neg, units_at_neg]
      omega
    have turned := settled_of_rounded_up outTurned backTurned againTurned homeTurned up
    omega

end Drift

/-- Below a power of two doubles are closer, but nothing is rounded up to one from there. -/
theorem width_behind_nearest (n : Nat) :
    widthAt ((nearestRank n : Int) - 1) = 2 ^ excess n ∨
      2 ^ excess n * roundDiv .toEven n (2 ^ excess n) ≤ n := by
  have bound := rounded_le n
  have normal := rounded_normal n
  by_cases power : roundDiv .toEven n (2 ^ excess n) = 2 ^ 52 ∧ 0 < excess n
  · right
    rw [power.1, Nat.mul_comm]
    exact two_pow_excess_le power.2
  · left
    by_cases least : nearestRank n = 0
    · have none : excess n = 0 := by
        unfold nearestRank at least
        omega
      rw [least, none]
      rfl
    · have before : (nearestRank n : Int) - 1 =
          ((excess n * 2 ^ 52 + (roundDiv .toEven n (2 ^ excess n) - 1) : Nat) : Int) := by
        unfold nearestRank at least ⊢
        omega
      rw [before, width_at_natCast, width_exponent_of_parts (by omega) (by omega)]

theorem width_at_nearest (n : Nat) : 2 ^ excess n ≤ widthAt (nearestRank n) := by
  have normal := rounded_normal n
  rw [width_at_natCast]
  apply Nat.pow_le_pow_right (by decide)
  unfold widthExponent nearestRank
  omega

/-- What is rounded by its rank is rounded to where that rank is. -/
theorem rounds_to_nearest_rank (n : Nat) : RoundsTo n (nearestRank n) := by
  have pos := Nat.two_pow_pos (excess n)
  obtain ⟨low, high⟩ := round_div_within_half .toEven n (2 ^ excess n) pos
  have half := @even_round_div_of_half n (2 ^ excess n) pos
  have here : unitsAt (nearestRank n) =
      ((2 ^ excess n * roundDiv .toEven n (2 ^ excess n) : Nat) : Int) := by
    rw [units_at_natCast, nearestRank, magnitude_of_parts (rounded_le n) (rounded_normal n),
      Nat.mul_comm]
  have next := units_at_succ (nearestRank n)
  have last := units_at_succ (nearestRank n - 1)
  rw [Int.sub_add_cancel] at last
  have ahead := width_at_nearest n
  have behind := width_behind_nearest n
  have wide := width_pos (nearestRank n - 1)
  have parity : nearestRank n % 2 = roundDiv .toEven n (2 ^ excess n) % 2 := by
    unfold nearestRank
    omega
  refine ⟨by omega, by omega, ?_⟩
  intro middle
  have even := half (by omega)
  omega

theorem rounds_to_rounded_rank {n : Int} (low : -(topRank : Int) < roundedRank n)
    (high : roundedRank n < topRank) : RoundsTo n (roundedRank n) := by
  have rounds := rounds_to_nearest_rank n.natAbs
  unfold roundedRank at low high ⊢
  split
  · rename_i negative
    rw [if_pos negative] at low
    rw [Nat.min_eq_left (by omega)]
    exact rounds.neg (by omega)
  · rename_i nonneg
    rw [if_neg nonneg] at high
    rw [Nat.min_eq_left (by omega)]
    rwa [Int.natAbs_of_nonneg (Int.not_lt.1 nonneg)] at rounds

end Cadenza
