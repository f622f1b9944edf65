import Cadenza.Number.Exact
import Mathlib.Algebra.Group.Nat.Defs

/-!
# The nearest double

Every finite double is a whole number of units, where the unit is the least positive double. The
doubles from zero on are counted in their order, and this rank of a double holds its exponent and
its mantissa side by side. So rounding to the nearest double is a function from units to ranks, and
it keeps order.
-/

namespace Cadenza

set_option autoImplicit false

theorem div_le_round_div (tie : Tie) (num den : Nat) : num / den ≤ roundDiv tie num den := by
  unfold roundDiv
  dsimp only
  split
  · omega
  · split
    · omega
    · cases tie <;> dsimp only <;> omega

theorem round_div_le (tie : Tie) (num den : Nat) : roundDiv tie num den ≤ num / den + 1 := by
  unfold roundDiv
  dsimp only
  split
  · omega
  · split
    · omega
    · cases tie <;> dsimp only <;> omega

theorem round_div_mono (tie : Tie) {num more : Nat} (den : Nat) (le : num ≤ more) :
    roundDiv tie num den ≤ roundDiv tie more den := by
  have quotients : num / den ≤ more / den := Nat.div_le_div_right le
  by_cases same : num / den = more / den
  · have whole := Nat.div_add_mod num den
    have wholeMore := Nat.div_add_mod more den
    rw [same] at whole
    have rests : num % den ≤ more % den := by omega
    unfold roundDiv
    dsimp only
    rw [same]
    cases tie <;> dsimp only <;> split <;> split <;> (try split) <;> (try split) <;> omega
  · have low := round_div_le tie num den
    have high := div_le_round_div tie more den
    omega

/-- A ratio is rounded alike in finer parts. -/
theorem round_div_mul (tie : Tie) (num den : Nat) {parts : Nat} (pos : 0 < parts) :
    roundDiv tie (num * parts) (den * parts) = roundDiv tie num den := by
  have quotient : num * parts / (den * parts) = num / den := Nat.mul_div_mul_right num den pos
  have rest : num * parts % (den * parts) = num % den * parts := Nat.mul_mod_mul_right parts num den
  have below : 2 * (num % den * parts) < den * parts ↔ 2 * (num % den) < den := by
    rw [← Nat.mul_assoc]
    exact Nat.mul_lt_mul_right pos
  have above : den * parts < 2 * (num % den * parts) ↔ den < 2 * (num % den) := by
    rw [← Nat.mul_assoc]
    exact Nat.mul_lt_mul_right pos
  unfold roundDiv
  simp only [quotient, rest, below, above]

theorem log2_mul_two_pow {n : Nat} (pos : 0 < n) (k : Nat) : (n * 2 ^ k).log2 = n.log2 + k := by
  induction k with
  | zero => simp
  | succ k ih =>
      have positive : n * 2 ^ k ≠ 0 := Nat.ne_of_gt (Nat.mul_pos pos (Nat.two_pow_pos k))
      have doubled : n * 2 ^ (k + 1) = 2 * (n * 2 ^ k) := by
        rw [Nat.pow_succ, ← Nat.mul_assoc, Nat.mul_comm]
      rw [doubled, Nat.log2_two_mul positive, ih, Nat.add_assoc]

theorem log2_mono {n more : Nat} (le : n ≤ more) : n.log2 ≤ more.log2 := by
  by_cases zero : n = 0
  · subst zero
    simp
  · have positive : more ≠ 0 := by omega
    exact (Nat.le_log2 positive).2 (Nat.le_trans (Nat.log2_self_le zero) le)

def excess (units : Nat) : Nat :=
  units.log2 - 52

/-- The rank of the double nearest to a number of units, a tie going to the even mantissa. There is
no greatest exponent here. -/
def nearestRank (units : Nat) : Nat :=
  excess units * 2 ^ 52 + roundDiv .toEven units (2 ^ excess units)

theorem excess_mul_two_pow {m : Nat} (pos : 0 < m) (k : Nat) :
    excess (m * 2 ^ k) = m.log2 + k - 52 := by
  rw [excess, log2_mul_two_pow pos]

theorem excess_mono {units more : Nat} (le : units ≤ more) : excess units ≤ excess more := by
  have bits := log2_mono le
  unfold excess
  omega

theorem lt_two_pow_excess (units : Nat) : units < 2 ^ 53 * 2 ^ excess units := by
  have bits : units < 2 ^ (units.log2 + 1) := Nat.lt_log2_self
  have room : 2 ^ (units.log2 + 1) ≤ 2 ^ (53 + excess units) :=
    Nat.pow_le_pow_right (by decide) (by unfold excess; omega)
  rw [← Nat.pow_add]
  exact Nat.lt_of_lt_of_le bits room

theorem two_pow_excess_le {units : Nat} (long : 0 < excess units) :
    2 ^ 52 * 2 ^ excess units ≤ units := by
  have bits : units.log2 = 52 + excess units := by
    unfold excess at long ⊢
    omega
  have positive : units ≠ 0 := by
    intro zero
    simp [zero] at bits
    omega
  rw [← Nat.pow_add, ← bits]
  exact Nat.log2_self_le positive

/-- A rounded mantissa fits, or has just become a power of two. -/
theorem rounded_le (units : Nat) : roundDiv .toEven units (2 ^ excess units) ≤ 2 ^ 53 := by
  have quotient : units / 2 ^ excess units < 2 ^ 53 :=
    (Nat.div_lt_iff_lt_mul (Nat.two_pow_pos _)).2 (lt_two_pow_excess units)
  have rounded := round_div_le .toEven units (2 ^ excess units)
  omega

theorem le_rounded {units : Nat} (long : 0 < excess units) :
    2 ^ 52 ≤ roundDiv .toEven units (2 ^ excess units) := by
  have quotient : 2 ^ 52 ≤ units / 2 ^ excess units :=
    (Nat.le_div_iff_mul_le (Nat.two_pow_pos _)).2 (two_pow_excess_le long)
  exact Nat.le_trans quotient (div_le_round_div .toEven units _)

theorem rounded_normal (units : Nat) :
    2 ^ 52 ≤ roundDiv .toEven units (2 ^ excess units) ∨ excess units = 0 := by
  by_cases least : excess units = 0
  · exact Or.inr least
  · exact Or.inl (le_rounded (by omega))

theorem rounded_pos {units : Nat} (pos : 0 < units) :
    0 < roundDiv .toEven units (2 ^ excess units) := by
  rcases rounded_normal units with normal | least
  · omega
  · have whole := div_le_round_div .toEven units (2 ^ excess units)
    rw [least, Nat.pow_zero, Nat.div_one] at whole
    rw [least, Nat.pow_zero]
    omega

theorem nearest_rank_mono {units more : Nat} (le : units ≤ more) :
    nearestRank units ≤ nearestRank more := by
  have longer := excess_mono le
  unfold nearestRank
  by_cases same : excess units = excess more
  · rw [same]
    have rounded := round_div_mono .toEven (2 ^ excess more) le
    omega
  · have low := rounded_le units
    have high : 2 ^ 52 ≤ roundDiv .toEven more (2 ^ excess more) := le_rounded (by omega)
    omega

/-- Rounding leaves a double alone: its rank is its exponent beside its mantissa. -/
theorem nearest_rank_of_fits {mantissa exponent : Nat} (small : mantissa < 2 ^ 53)
    (normal : 2 ^ 52 ≤ mantissa ∨ exponent = 0) :
    nearestRank (mantissa * 2 ^ exponent) = exponent * 2 ^ 52 + mantissa := by
  have exponentIs : excess (mantissa * 2 ^ exponent) = exponent := by
    by_cases zero : mantissa = 0
    · subst zero
      simp [excess]
      omega
    · rw [excess_mul_two_pow (Nat.pos_of_ne_zero zero)]
      have high : mantissa.log2 < 53 := (Nat.log2_lt zero).2 small
      rcases normal with long | least
      · have low : 52 ≤ mantissa.log2 := (Nat.le_log2 zero).2 long
        omega
      · omega
  unfold nearestRank
  rw [exponentIs, round_div_of_dvd .toEven mantissa _ (Nat.two_pow_pos exponent)]

end Cadenza
