import Cadenza.Proofs.Number.Nearest

/-!
# Rounding as doubles do it

Doubles are rounded by shifting a mantissa to the right, one bit at a time, with one bit kept for
the half and one for all that is less. Two shifts are made, since the first rounding may carry into
a new bit. Both together give the double whose rank is the nearest one.

Exponents are written as `k - 1074` for a natural number `k`, the exponent in units.
-/

namespace Cadenza

set_option autoImplicit false

open Float.Model Float.Model.UnpackedFloat

/-- What an extended mantissa has kept of a number that was shifted by some bits. -/
structure Shifted (n bits : Nat) (kept : ExtendedMantissa) : Prop where
  mantissa : kept.mantissa = n / 2 ^ bits
  roundBit : kept.roundBit = true ↔ 2 ^ bits ≤ 2 * (n % 2 ^ bits)
  stickyBit : kept.stickyBit = true ↔ 2 * (n % 2 ^ bits) ≠ 0 ∧ 2 * (n % 2 ^ bits) ≠ 2 ^ bits

theorem shifted_zero (n : Nat) : Shifted n 0 (ExtendedMantissa.ofMantissaAndAccuracy n .exact) where
  mantissa := by simp [ExtendedMantissa.ofMantissaAndAccuracy]
  roundBit := by simp [ExtendedMantissa.ofMantissaAndAccuracy, Nat.mod_one]
  stickyBit := by simp [ExtendedMantissa.ofMantissaAndAccuracy, Nat.mod_one]

theorem shifted_succ {n bits : Nat} {kept : ExtendedMantissa} (shifted : Shifted n bits kept) :
    Shifted n (bits + 1) kept.shiftRightOne := by
  have power : 2 ^ (bits + 1) = 2 * 2 ^ bits := by rw [Nat.pow_succ, Nat.mul_comm]
  have low : n % 2 ^ bits < 2 ^ bits := Nat.mod_lt n (Nat.two_pow_pos bits)
  have rest : n % (2 * 2 ^ bits) = n % 2 ^ bits + 2 ^ bits * (n / 2 ^ bits % 2) := by
    rw [← power]
    exact Nat.mod_pow_succ
  have round := shifted.roundBit
  have sticky := shifted.stickyBit
  refine ⟨?_, ?_, ?_⟩
  · rw [ExtendedMantissa.shiftRightOne, shifted.mantissa, Nat.div_div_eq_div_mul, Nat.pow_succ]
  · simp only [ExtendedMantissa.shiftRightOne, shifted.mantissa, bne_iff_ne, power, rest]
    rcases Nat.mod_two_eq_zero_or_one (n / 2 ^ bits) with even | odd
    · rw [even]
      omega
    · rw [odd]
      omega
  · simp only [ExtendedMantissa.shiftRightOne, Bool.or_eq_true, round, sticky, power, rest]
    rcases Nat.mod_two_eq_zero_or_one (n / 2 ^ bits) with even | odd
    · rw [even]
      omega
    · rw [odd]
      omega

theorem shifted_shift (n bits : Nat) :
    Shifted n bits (ExtendedMantissa.ofMantissaAndAccuracy n .exact >>> bits) := by
  change Shifted n bits (bits.repeat ExtendedMantissa.shiftRightOne _)
  induction bits with
  | zero => exact shifted_zero n
  | succ bits ih => exact shifted_succ ih

/-- The two bits kept are all that rounding to the nearest needs. -/
theorem rounded_mantissa_of_shifted {n bits : Nat} {kept : ExtendedMantissa}
    (shifted : Shifted n bits kept) : kept.roundedMantissa = roundDiv .toEven n (2 ^ bits) := by
  obtain ⟨mantissa, round, sticky⟩ := shifted
  have low : n % 2 ^ bits < 2 ^ bits := Nat.mod_lt n (Nat.two_pow_pos bits)
  unfold roundDiv ExtendedMantissa.roundedMantissa
  dsimp only
  rw [← mantissa]
  rcases kept with ⟨m, _ | _, _ | _⟩
  all_goals
    simp only [Bool.false_eq_true, false_iff, true_iff] at round sticky
    simp only [ExtendedMantissa.accuracy, Accuracy.roundToNearestEven]
    split
    · omega
    · split <;> omega

/-- A mantissa that fits, or an exponent that is the least: what the parts of a double are like. -/
structure Fits (mantissa exponent : Nat) : Prop where
  small : mantissa < 2 ^ 53
  normal : 2 ^ 52 ≤ mantissa ∨ exponent = 0

theorem target_exponent_eq (m k : Nat) :
    Format.binary64.targetExponent (totalExponent m ((k : Int) - 1074)) =
      ((m.log2 + k - 52 : Nat) : Int) - 1074 := by
  have bits : Format.binary64.mantissaBits = 53 := rfl
  have least : Format.binary64.minExponent = -1074 := rfl
  unfold Format.targetExponent totalExponent
  rw [bits, least]
  omega

theorem shift_to_target_eq (m k : Nat) :
    shiftToTargetExponent Format.binary64 m ((k : Int) - 1074) .exact =
      (ExtendedMantissa.ofMantissaAndAccuracy m .exact >>> (m.log2 + k - 52 - k),
        ((max k (m.log2 + k - 52) : Nat) : Int) - 1074) := by
  rw [shiftToTargetExponent, target_exponent_eq, shiftToExponent]
  have bits : (((m.log2 + k - 52 : Nat) : Int) - 1074 - ((k : Int) - 1074)).toNat =
      m.log2 + k - 52 - k := by omega
  simp only [bits]
  congr 1
  omega

/-- A rounded mantissa is left alone, unless it has just become a power of two. -/
theorem carry_eq {m k : Nat} (bound : m ≤ 2 ^ 53) (normal : 2 ^ 52 ≤ m ∨ k = 0) :
    ∃ m' k', Fits m' k' ∧ k' * 2 ^ 52 + m' = k * 2 ^ 52 + m ∧ (0 < m → 0 < m') ∧
      (shiftToTargetExponent Format.binary64 m ((k : Int) - 1074) .exact).1.mantissa = m' ∧
      (shiftToTargetExponent Format.binary64 m ((k : Int) - 1074) .exact).2 =
        (k' : Int) - 1074 := by
  rw [shift_to_target_eq]
  dsimp only
  by_cases carried : m = 2 ^ 53
  · have bits : m.log2 = 53 := by rw [carried, Nat.log2_two_pow]
    refine ⟨2 ^ 52, k + 1, ⟨by decide, Or.inl (Nat.le_refl _)⟩, by omega, by omega, ?_, ?_⟩
    · rw [(shifted_shift m _).mantissa, bits, carried]
      have one : 53 + k - 52 - k = 1 := by omega
      rw [one, Nat.pow_div (by decide) (by decide)]
    · rw [bits]
      omega
  · have bits : m.log2 ≤ 52 := by
      by_cases zero : m = 0
      · subst zero
        simp
      · have less : m.log2 < 53 := (Nat.log2_lt zero).2 (by omega)
        omega
    refine ⟨m, k, ⟨by omega, normal⟩, rfl, id, ?_, ?_⟩
    · have none : m.log2 + k - 52 - k = 0 := by omega
      rw [(shifted_shift m _).mantissa, none, Nat.pow_zero, Nat.div_one]
    · omega

theorem decrease_exponent_eq (m k target : Nat) :
    decreaseExponent m ((k : Int) - 1074) ((target : Int) - 1074) =
      (m * 2 ^ (k - target), ((min k target : Nat) : Int) - 1074) := by
  have bits : ((k : Int) - 1074 - ((target : Int) - 1074)).toNat = k - target := by omega
  unfold decreaseExponent
  simp only [bits, Nat.shiftLeft_eq]
  congr 1
  omega

theorem decreased_mul (m k target : Nat) :
    m * 2 ^ (k - target) * 2 ^ min k target = m * 2 ^ k := by
  rw [Nat.mul_assoc, ← Nat.pow_add]
  congr 2
  omega

/-- The first shift, of a number that is written with enough bits. -/
theorem rounded_shift_eq {m k : Nat} (pos : 0 < m) (enough : k ≤ excess (m * 2 ^ k)) :
    (shiftToTargetExponent Format.binary64 m ((k : Int) - 1074) .exact).1.roundedMantissa =
        roundDiv .toEven (m * 2 ^ k) (2 ^ excess (m * 2 ^ k)) ∧
      (shiftToTargetExponent Format.binary64 m ((k : Int) - 1074) .exact).2 =
        (excess (m * 2 ^ k) : Int) - 1074 := by
  have power : 2 ^ excess (m * 2 ^ k) = 2 ^ (excess (m * 2 ^ k) - k) * 2 ^ k := by
    rw [← Nat.pow_add]
    congr 1
    omega
  rw [shift_to_target_eq, ← excess_mul_two_pow pos, Nat.max_eq_right enough]
  refine ⟨?_, rfl⟩
  rw [rounded_mantissa_of_shifted (shifted_shift m _), power,
    round_div_mul .toEven m _ (Nat.two_pow_pos k)]

theorem round_eq (s : Sign) {m : Nat} (pos : 0 < m) (k : Nat) :
    ∃ m' k', ∃ pos' : 0 < m', Fits m' k' ∧ k' * 2 ^ 52 + m' = nearestRank (m * 2 ^ k) ∧
      UnpackedFloat.round Format.binary64 s m ((k : Int) - 1074) =
        .finite s m' ((k' : Int) - 1074) pos' := by
  have same := decreased_mul m k (excess (m * 2 ^ k))
  have wide : 0 < m * 2 ^ (k - excess (m * 2 ^ k)) := Nat.mul_pos pos (Nat.two_pow_pos _)
  have first := rounded_shift_eq wide (by rw [same]; exact Nat.min_le_right _ _)
  rw [same] at first
  -- The second shift undoes a carry of the first one.
  obtain ⟨m', k', fits, rank, kept, mantissaIs, exponentIs⟩ :=
    carry_eq (rounded_le (m * 2 ^ k)) (rounded_normal (m * 2 ^ k))
  have positive : 0 < m' := kept (rounded_pos (Nat.mul_pos pos (Nat.two_pow_pos k)))
  refine ⟨m', k', positive, fits, rank, ?_⟩
  rw [UnpackedFloat.round, target_exponent_eq, ← excess_mul_two_pow pos]
  change roundWithAccuracy Format.binary64 s
    (decreaseExponent m ((k : Int) - 1074) ((excess (m * 2 ^ k) : Int) - 1074)).1
    (decreaseExponent m ((k : Int) - 1074) ((excess (m * 2 ^ k) : Int) - 1074)).2 .exact = _
  rw [decrease_exponent_eq, roundWithAccuracy]
  dsimp only
  rw [first.1, first.2, dif_neg (by rw [mantissaIs]; exact Nat.ne_of_gt positive), finite.injEq]
  exact ⟨rfl, mantissaIs, exponentIs⟩

end Cadenza
