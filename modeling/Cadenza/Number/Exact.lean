/-!
# Exact values and their rounding

A number that measures time is read as an exact ratio before it is rounded to whole ticks or
nanoseconds, so that rounding is one rule on natural numbers, whatever the arithmetic the number
came from. Main statements: the quotient found is within half a unit, and a tie goes as asked.
-/

namespace Cadenza

set_option autoImplicit false

inductive Exact where
  | notANumber
  | negInfinite
  | posInfinite
  /-- The ratio of `num` to a positive `den`. -/
  | ratio (num : Int) (den : Nat)
  deriving DecidableEq, Repr

/-- Where a quotient goes that lies half way between two whole numbers. -/
inductive Tie where
  | toEven
  | awayFromZero
  deriving DecidableEq, Repr

def roundDiv (tie : Tie) (num den : Nat) : Nat :=
  let below := num / den
  let rest := num % den
  if 2 * rest < den then below
  else if den < 2 * rest then below + 1
  else match tie with
    | .toEven => below + below % 2
    | .awayFromZero => below + 1

/-- The quotient found is no further than half a unit from the exact one. -/
theorem round_div_within_half (tie : Tie) (num den : Nat) (pos : 0 < den) :
    2 * (den * roundDiv tie num den) ≤ 2 * num + den ∧
      2 * num ≤ 2 * (den * roundDiv tie num den) + den := by
  have parts := Nat.div_add_mod num den
  have small := Nat.mod_lt num pos
  have up : den * (num / den + 1) = den * (num / den) + den := Nat.mul_succ _ _
  unfold roundDiv
  dsimp only
  split
  · omega
  · split
    · rw [up]; omega
    · cases tie with
      | awayFromZero => dsimp only; rw [up]; omega
      | toEven =>
          dsimp only
          rcases Nat.mod_two_eq_zero_or_one (num / den) with even | odd
          · rw [even, Nat.add_zero]; omega
          · rw [odd, up]; omega

theorem round_div_of_dvd (tie : Tie) (whole den : Nat) (pos : 0 < den) :
    roundDiv tie (whole * den) den = whole := by
  have rest : whole * den % den = 0 := Nat.mul_mod_left whole den
  have below : whole * den / den = whole := Nat.mul_div_cancel whole pos
  unfold roundDiv
  simp only [rest, below, Nat.mul_zero, pos, ↓reduceIte]

/-- A quotient that is exactly half a unit off has gone to the even side. -/
theorem even_round_div_of_half {num den : Nat} (pos : 0 < den)
    (half : 2 * (den * roundDiv .toEven num den) = 2 * num + den ∨
      2 * num = 2 * (den * roundDiv .toEven num den) + den) :
    roundDiv .toEven num den % 2 = 0 := by
  have parts := Nat.div_add_mod num den
  have small := Nat.mod_lt num pos
  have up : den * (num / den + 1) = den * (num / den) + den := Nat.mul_succ _ _
  unfold roundDiv at half ⊢
  dsimp only at half ⊢
  split at half
  · omega
  · split at half
    · rw [up] at half
      omega
    · rw [if_neg ‹_›, if_neg ‹_›]
      omega

def maxCount : Nat := UInt64.size - 1

def saturate (n : Nat) : UInt64 :=
  UInt64.ofNat (min n maxCount)

theorem saturate_to_nat (n : Nat) : (saturate n).toNat = min n maxCount := by
  unfold saturate
  rw [UInt64.toNat_ofNat']
  exact Nat.mod_eq_of_lt (by simp only [maxCount, UInt64.size]; omega)

/-- The count nearest to an exact value: zero below zero, the largest count above the range,
zero for what is no number. -/
def Exact.count (tie : Tie) : Exact → UInt64
  | .notANumber => 0
  | .negInfinite => 0
  | .posInfinite => saturate maxCount
  | .ratio (.ofNat num) den => saturate (roundDiv tie num den)
  | .ratio (.negSucc _) _ => 0

end Cadenza
