import Cadenza.Proofs.Number.Packing

/-!
# Doubles in order

Doubles compare as their ranks do, infinities included. The rank of a sum is that of the rounded sum
of units, so adding the same double to two others keeps their order, whatever is rounded on the way.
-/

namespace Cadenza

set_option autoImplicit false

open Float.Model Float.Model.UnpackedFloat

def topRank : Nat := 2047 * 2 ^ 52

/-- The position of a double among all doubles, counted from zero. -/
def rank : UnpackedFloat → Int
  | .notANumber => 0
  | .infinity s => s.apply topRank
  | .zero _ => 0
  | .finite s m e _ => s.apply (((e + 1074).toNat * 2 ^ 52 + m : Nat) : Int)

theorem rank_finite (s : Sign) {m : Nat} (k : Nat) (pos : 0 < m) :
    rank (.finite s m ((k : Int) - 1074) pos) = s.apply ((k * 2 ^ 52 + m : Nat) : Int) := by
  have exponent : ((k : Int) - 1074 + 1074).toNat = k := by omega
  simp only [rank, exponent]

theorem rank_lt_top {m k : Nat} (fits : Fits m k) (top : k ≤ 2045) : k * 2 ^ 52 + m < topRank := by
  have small := fits.small
  unfold topRank
  omega

theorem infinity_or_finite {x : UnpackedFloat} (number : x.isNaN = false) :
    (∃ s, x = .infinity s) ∨ x.isFinite = true := by
  cases x with
  | notANumber => cases number
  | infinity s => exact Or.inl ⟨s, rfl⟩
  | zero s => exact Or.inr rfl
  | finite s m e pos => exact Or.inr rfl

theorem abs_rank_le {x : UnpackedFloat} (known : Canonical x) :
    -(topRank : Int) ≤ rank x ∧ rank x ≤ topRank := by
  cases x with
  | notANumber => simp [rank]
  | infinity s => cases s <;> simp [rank, Sign.apply]
  | zero s => simp [rank]
  | finite s m e pos =>
      obtain ⟨k, rfl, top, fits⟩ := known
      have below := rank_lt_top fits top
      rw [rank_finite]
      cases s <;> simp only [Sign.apply] <;> omega

theorem abs_rank_lt {x : UnpackedFloat} (known : Canonical x) (finite : x.isFinite = true) :
    -(topRank : Int) < rank x ∧ rank x < topRank := by
  have above : 0 < topRank := by decide
  cases x with
  | notANumber => cases finite
  | infinity s => cases finite
  | zero s => simp only [rank]; omega
  | finite s m e pos =>
      obtain ⟨k, rfl, top, fits⟩ := known
      have below := rank_lt_top fits top
      rw [rank_finite]
      cases s <;> simp only [Sign.apply] <;> omega

theorem compare_parts {m n j k : Nat} (fits : Fits m j) (others : Fits n k) :
    (compare ((j : Int) - 1074) ((k : Int) - 1074)).then (compare m n) =
      compare ((j * 2 ^ 52 + m : Nat) : Int) ((k * 2 ^ 52 + n : Nat) : Int) := by
  obtain ⟨small, normal⟩ := fits
  obtain ⟨otherSmall, otherNormal⟩ := others
  rcases Nat.lt_trichotomy j k with less | same | greater
  · rw [Int.compare_eq_lt.2 (by omega), Int.compare_eq_lt.2 (by omega)]
    rfl
  · subst same
    rw [Int.compare_eq_eq.2 rfl]
    rcases Nat.lt_trichotomy m n with less | same | greater
    · rw [Nat.compare_eq_lt.2 less, Int.compare_eq_lt.2 (by omega)]
      rfl
    · subst same
      rw [Nat.compare_eq_eq.2 rfl, Int.compare_eq_eq.2 rfl]
      rfl
    · rw [Nat.compare_eq_gt.2 greater, Int.compare_eq_gt.2 (by omega)]
      rfl
  · rw [Int.compare_eq_gt.2 (by omega), Int.compare_eq_gt.2 (by omega)]
    rfl

theorem swap_compare_neg (a b : Int) : (compare a b).swap = compare (-a) (-b) := by
  rcases Int.lt_trichotomy a b with less | same | greater
  · rw [Int.compare_eq_lt.2 less, Int.compare_eq_gt.2 (by omega)]
    rfl
  · subst same
    rw [Int.compare_eq_eq.2 rfl, Int.compare_eq_eq.2 rfl]
    rfl
  · rw [Int.compare_eq_gt.2 greater, Int.compare_eq_lt.2 (by omega)]
    rfl

theorem compare_infinity_finite (s : Sign) {y : UnpackedFloat} (known : Canonical y)
    (finite : y.isFinite = true) :
    (UnpackedFloat.infinity s).compare y = some (compare (rank (.infinity s)) (rank y)) := by
  obtain ⟨low, high⟩ := abs_rank_lt known finite
  cases s with
  | negative =>
      have less : rank (.infinity .negative) < rank y := low
      rw [Int.compare_eq_lt.2 less]
      cases y <;> first | rfl | cases finite
  | positive =>
      have more : rank y < rank (.infinity .positive) := high
      rw [Int.compare_eq_gt.2 more]
      cases y <;> first | rfl | cases finite

theorem compare_finite_infinity {x : UnpackedFloat} (known : Canonical x)
    (finite : x.isFinite = true) (t : Sign) :
    x.compare (.infinity t) = some (compare (rank x) (rank (.infinity t))) := by
  obtain ⟨low, high⟩ := abs_rank_lt known finite
  cases t with
  | negative =>
      have more : rank (.infinity .negative) < rank x := low
      rw [Int.compare_eq_gt.2 more]
      cases x with
      | finite s m e pos => cases s <;> rfl
      | _ => first | rfl | cases finite
  | positive =>
      have less : rank x < rank (.infinity .positive) := high
      rw [Int.compare_eq_lt.2 less]
      cases x with
      | finite s m e pos => cases s <;> rfl
      | _ => first | rfl | cases finite

theorem compare_finite {x y : UnpackedFloat} (known : Canonical x) (others : Canonical y)
    (finite : x.isFinite = true) (other : y.isFinite = true) :
    x.compare y = some (compare (rank x) (rank y)) := by
  cases x with
  | notANumber => cases finite
  | infinity s => cases finite
  | zero s =>
      cases y with
      | notANumber => cases other
      | infinity t => cases other
      | zero t => rfl
      | finite t n e pos =>
          obtain ⟨k, rfl, top, fits⟩ := others
          rw [rank_finite]
          cases t with
          | negative =>
              rw [Int.compare_eq_gt.2 (by simp only [rank, Sign.apply]; omega)]
              rfl
          | positive =>
              rw [Int.compare_eq_lt.2 (by simp only [rank, Sign.apply]; omega)]
              rfl
  | finite s m e pos =>
      obtain ⟨j, rfl, top, fits⟩ := known
      rw [rank_finite]
      cases y with
      | notANumber => cases other
      | infinity t => cases other
      | zero t =>
          cases s with
          | negative =>
              rw [Int.compare_eq_lt.2 (by simp only [rank, Sign.apply]; omega)]
              rfl
          | positive =>
              rw [Int.compare_eq_gt.2 (by simp only [rank, Sign.apply]; omega)]
              rfl
      | finite t n e positive =>
          obtain ⟨k, rfl, otherTop, otherFits⟩ := others
          have parts := compare_parts fits otherFits
          rw [rank_finite]
          cases s with
          | negative =>
              cases t with
              | negative =>
                  simp only [Sign.apply]
                  rw [← swap_compare_neg, ← parts]
                  rfl
              | positive =>
                  rw [Int.compare_eq_lt.2 (by simp only [Sign.apply]; omega)]
                  rfl
          | positive =>
              cases t with
              | negative =>
                  rw [Int.compare_eq_gt.2 (by simp only [Sign.apply]; omega)]
                  rfl
              | positive =>
                  simp only [Sign.apply]
                  rw [← parts]
                  rfl

theorem compare_eq {x y : UnpackedFloat} (known : Canonical x) (others : Canonical y)
    (number : x.isNaN = false) (other : y.isNaN = false) :
    x.compare y = some (compare (rank x) (rank y)) := by
  rcases infinity_or_finite number with ⟨s, rfl⟩ | finite
  · rcases infinity_or_finite other with ⟨t, rfl⟩ | otherFinite
    · cases s <;> cases t <;> decide
    · exact compare_infinity_finite s others otherFinite
  · rcases infinity_or_finite other with ⟨t, rfl⟩ | otherFinite
    · exact compare_finite_infinity known finite t
    · exact compare_finite known others finite otherFinite

theorem numbers_of_compare {x y : UnpackedFloat} {o : Ordering} (compared : x.compare y = some o) :
    x.isNaN = false ∧ y.isNaN = false := by
  cases x with
  | notANumber => cases compared
  | infinity s => cases y <;> first | exact ⟨rfl, rfl⟩ | (cases s <;> cases compared)
  | zero s => cases y <;> first | exact ⟨rfl, rfl⟩ | cases compared
  | finite s m e pos => cases y <;> first | exact ⟨rfl, rfl⟩ | (cases s <;> cases compared)

theorem numbers_of_le {x y : UnpackedFloat} (le : x.le y = true) :
    x.isNaN = false ∧ y.isNaN = false := by
  unfold UnpackedFloat.le at le
  cases compared : x.compare y with
  | none => rw [compared] at le; cases le
  | some o => exact numbers_of_compare compared

theorem numbers_of_lt {x y : UnpackedFloat} (less : x.lt y = true) :
    x.isNaN = false ∧ y.isNaN = false :=
  numbers_of_compare (beq_iff_eq.1 less)

theorem lt_iff_rank {x y : UnpackedFloat} (known : Canonical x) (others : Canonical y)
    (number : x.isNaN = false) (other : y.isNaN = false) :
    x.lt y = true ↔ rank x < rank y := by
  rw [UnpackedFloat.lt, compare_eq known others number other, beq_iff_eq, Option.some.injEq,
    Int.compare_eq_lt]

theorem le_iff_rank {x y : UnpackedFloat} (known : Canonical x) (others : Canonical y)
    (number : x.isNaN = false) (other : y.isNaN = false) :
    x.le y = true ↔ rank x ≤ rank y := by
  rw [UnpackedFloat.le, compare_eq known others number other, Option.any_some, Int.isLE_compare]

end Cadenza
