import Cadenza.Proofs.Number.Ranks
import Cadenza.Time

/-!
# Sums of doubles

The rank of a sum is that of the exact sum in units, rounded, and an infinity beyond the greatest
double. Units and ranks tell the same order.
-/

namespace Cadenza

set_option autoImplicit false

open Float.Model Float.Model.UnpackedFloat

/-- A finite double as a number of units. -/
def units : UnpackedFloat → Int
  | .finite s m e _ => s.apply ((m * 2 ^ (e + 1074).toNat : Nat) : Int)
  | _ => 0

def roundedRank (n : Int) : Int :=
  if n < 0 then -((min (nearestRank n.natAbs) topRank : Nat) : Int)
  else ((min (nearestRank n.natAbs) topRank : Nat) : Int)

theorem rounded_rank_zero : roundedRank 0 = 0 := by
  decide

theorem rounded_rank_mono {a b : Int} (le : a ≤ b) : roundedRank a ≤ roundedRank b := by
  unfold roundedRank
  by_cases negative : a < 0
  · rw [if_pos negative]
    by_cases other : b < 0
    · have ranks : nearestRank b.natAbs ≤ nearestRank a.natAbs := nearest_rank_mono (by omega)
      rw [if_pos other]
      omega
    · rw [if_neg other]
      omega
  · have ranks : nearestRank a.natAbs ≤ nearestRank b.natAbs := nearest_rank_mono (by omega)
    rw [if_neg negative, if_neg (by omega)]
    omega

theorem rounded_rank_apply (s : Sign) {n : Nat} (pos : 0 < n) :
    roundedRank (s.apply (n : Int)) = s.apply ((min (nearestRank n) topRank : Nat) : Int) := by
  unfold roundedRank
  cases s with
  | negative =>
      have negative : -(n : Int) < 0 := by omega
      simp only [Sign.apply, negative, ↓reduceIte, Int.natAbs_neg, Int.natAbs_natCast]
  | positive =>
      have positive : ¬ (n : Int) < 0 := by omega
      simp only [Sign.apply, positive, ↓reduceIte, Int.natAbs_natCast]

/-- What is written of a rounded double, beyond the greatest one as well. -/
theorem rank_stored (s : Sign) {m k : Nat} (pos : 0 < m) (fits : Fits m k) :
    (stored (.finite s m ((k : Int) - 1074) pos)).isNaN = false ∧
      rank (stored (.finite s m ((k : Int) - 1074) pos)) =
        s.apply ((min (k * 2 ^ 52 + m) topRank : Nat) : Int) := by
  by_cases top : k ≤ 2045
  · have below := rank_lt_top fits top
    rw [stored_of_fits s pos fits top, rank_finite, Nat.min_eq_left (Nat.le_of_lt below)]
    exact ⟨rfl, rfl⟩
  · have above : topRank ≤ k * 2 ^ 52 + m := by
      have long := fits.normal
      unfold topRank
      omega
    rw [stored_of_overflow s pos (by omega), Nat.min_eq_right above]
    exact ⟨rfl, rfl⟩

structure NearestTo (x : UnpackedFloat) (n : Int) : Prop where
  number : x.isNaN = false
  rank : rank x = roundedRank n

theorem nearest_of_round (s : Sign) {m : Nat} (pos : 0 < m) (k : Nat) :
    NearestTo (stored (UnpackedFloat.round Format.binary64 s m ((k : Int) - 1074)))
      (s.apply ((m * 2 ^ k : Nat) : Int)) := by
  obtain ⟨m', k', pos', fits, nearest, same⟩ := round_eq s pos k
  obtain ⟨number, rankIs⟩ := rank_stored s pos' fits
  rw [same]
  refine ⟨number, ?_⟩
  rw [rankIs, nearest, rounded_rank_apply s (Nat.mul_pos pos (Nat.two_pow_pos k))]

theorem nearest_of_normalize (n : Int) (k : Nat) :
    NearestTo (stored (UnpackedFloat.normalize Format.binary64 n ((k : Int) - 1074) .positive))
      (n * ((2 ^ k : Nat) : Int)) := by
  unfold UnpackedFloat.normalize
  rcases Int.lt_trichotomy n 0 with negative | zero | positive
  · rw [Int.compare_eq_lt.2 negative]
    have magnitude : n * ((2 ^ k : Nat) : Int) =
        Sign.negative.apply (((-n).toNat * 2 ^ k : Nat) : Int) := by
      simp only [Sign.apply]
      rw [Int.natCast_mul, Int.toNat_of_nonneg (by omega), Int.neg_mul, Int.neg_neg]
    rw [magnitude]
    exact nearest_of_round .negative (by omega) k
  · subst zero
    rw [Int.zero_mul]
    change NearestTo (stored (.zero .positive)) 0
    rw [stored_zero]
    exact ⟨rfl, rounded_rank_zero.symm⟩
  · rw [Int.compare_eq_gt.2 positive]
    have magnitude : n * ((2 ^ k : Nat) : Int) =
        Sign.positive.apply ((n.toNat * 2 ^ k : Nat) : Int) := by
      simp only [Sign.apply]
      rw [Int.natCast_mul, Int.toNat_of_nonneg (by omega)]
    rw [magnitude]
    exact nearest_of_round .positive (by omega) k

theorem stored_of_canonical {x : UnpackedFloat} (known : Canonical x) : stored x = x := by
  cases x with
  | notANumber => exact stored_not_a_number
  | infinity s => exact stored_infinity s
  | zero s => exact stored_zero s
  | finite s m e pos =>
      obtain ⟨k, rfl, top, fits⟩ := known
      exact stored_of_fits s pos fits top

theorem rounded_rank_units {x : UnpackedFloat} (known : Canonical x) (finite : x.isFinite = true) :
    roundedRank (units x) = rank x := by
  cases x with
  | notANumber => cases finite
  | infinity s => cases finite
  | zero s => exact rounded_rank_zero
  | finite s m e pos =>
      obtain ⟨k, rfl, top, fits⟩ := known
      have exponent : ((k : Int) - 1074 + 1074).toNat = k := by omega
      have below := rank_lt_top fits top
      rw [units, rank_finite, exponent, rounded_rank_apply s (Nat.mul_pos pos (Nat.two_pow_pos k)),
        nearest_rank_of_fits fits.small fits.normal, Nat.min_eq_left (Nat.le_of_lt below)]

theorem apply_decreased (s : Sign) (m : Nat) {j k : Nat} (le : j ≤ k) :
    s.apply (((decreaseExponent m ((k : Int) - 1074) ((j : Int) - 1074)).1 : Nat) : Int) *
      ((2 ^ j : Nat) : Int) = s.apply ((m * 2 ^ k : Nat) : Int) := by
  have same := decreased_mul m k j
  rw [Nat.min_eq_right le] at same
  rw [decrease_exponent_eq, ← same, Int.natCast_mul _ (2 ^ j)]
  cases s with
  | negative => exact Int.neg_mul _ _
  | positive => rfl

theorem nearest_of_canonical {x : UnpackedFloat} (known : Canonical x)
    (finite : x.isFinite = true) : NearestTo (stored x) (units x) := by
  rw [stored_of_canonical known]
  refine ⟨?_, (rounded_rank_units known finite).symm⟩
  cases x with
  | notANumber => cases finite
  | _ => rfl

/-- A sum is the double nearest to the sum of units. -/
theorem nearest_of_add {x y : UnpackedFloat} (known : Canonical x) (others : Canonical y)
    (finite : x.isFinite = true) (other : y.isFinite = true) :
    NearestTo (stored (UnpackedFloat.add Format.binary64 x y)) (units x + units y) := by
  cases x with
  | notANumber => cases finite
  | infinity s => cases finite
  | zero s =>
      cases y with
      | notANumber => cases other
      | infinity t => cases other
      | zero t => cases s <;> cases t <;> exact ⟨rfl, rounded_rank_zero.symm⟩
      | finite t n e pos =>
          have sum : units (.zero s) + units (.finite t n e pos) = units (.finite t n e pos) :=
            Int.zero_add _
          rw [sum]
          exact nearest_of_canonical others other
  | finite s m e pos =>
      cases y with
      | notANumber => cases other
      | infinity t => cases other
      | zero t =>
          have sum : units (.finite s m e pos) + units (.zero t) = units (.finite s m e pos) :=
            Int.add_zero _
          rw [sum]
          exact nearest_of_canonical known finite
      | finite t n f positive =>
          obtain ⟨j, rfl, top, fits⟩ := known
          obtain ⟨k, rfl, otherTop, otherFits⟩ := others
          have least :
              min ((j : Int) - 1074) ((k : Int) - 1074) = ((min j k : Nat) : Int) - 1074 := by
            omega
          have first := apply_decreased s m (Nat.min_le_left j k)
          have second := apply_decreased t n (Nat.min_le_right j k)
          have exponent : ((j : Int) - 1074 + 1074).toNat = j := by omega
          have otherExponent : ((k : Int) - 1074 + 1074).toNat = k := by omega
          simp only [units, exponent, otherExponent]
          rw [← first, ← second, ← Int.add_mul]
          unfold UnpackedFloat.add
          dsimp only
          rw [least]
          exact nearest_of_normalize _ _

theorem canonical_stored (x : UnpackedFloat) : Canonical (stored x) :=
  canonical_unpack _

/-- A finite double is a mantissa and an exponent, zero included. -/
theorem finite_parts {x : UnpackedFloat} (known : Canonical x) (finite : x.isFinite = true) :
    ∃ s m k, Fits m k ∧ rank x = Sign.apply s ((k * 2 ^ 52 + m : Nat) : Int) ∧
      units x = Sign.apply s ((m * 2 ^ k : Nat) : Int) := by
  cases x with
  | notANumber => cases finite
  | infinity s => cases finite
  | zero s => exact ⟨.positive, 0, 0, ⟨by decide, Or.inr rfl⟩, rfl, rfl⟩
  | finite s m e pos =>
      obtain ⟨k, rfl, top, fits⟩ := known
      have exponent : ((k : Int) - 1074 + 1074).toNat = k := by omega
      refine ⟨s, m, k, fits, rank_finite s k pos, ?_⟩
      rw [units, exponent]

theorem units_le_of_parts {m n j k : Nat} (fits : Fits m j) (others : Fits n k)
    (le : j * 2 ^ 52 + m ≤ k * 2 ^ 52 + n) : m * 2 ^ j ≤ n * 2 ^ k := by
  obtain ⟨small, normal⟩ := fits
  obtain ⟨otherSmall, otherNormal⟩ := others
  rcases Nat.lt_trichotomy j k with less | same | greater
  · have room : 2 ^ (j + 1) ≤ 2 ^ k := Nat.pow_le_pow_right (by decide) less
    calc
      m * 2 ^ j ≤ 2 ^ 53 * 2 ^ j := Nat.mul_le_mul_right _ (Nat.le_of_lt small)
      _ = 2 ^ 52 * 2 ^ (j + 1) := by rw [← Nat.pow_add, ← Nat.pow_add]; congr 1; omega
      _ ≤ n * 2 ^ k := Nat.mul_le_mul (by omega) room
  · subst same
    exact Nat.mul_le_mul_right _ (by omega)
  · omega

theorem units_mono {x y : UnpackedFloat} (known : Canonical x) (others : Canonical y)
    (finite : x.isFinite = true) (other : y.isFinite = true) (le : rank x ≤ rank y) :
    units x ≤ units y := by
  obtain ⟨s, m, j, fits, rankIs, unitsAre⟩ := finite_parts known finite
  obtain ⟨t, n, k, otherFits, otherRank, otherUnits⟩ := finite_parts others other
  rw [rankIs, otherRank] at le
  rw [unitsAre, otherUnits]
  cases s with
  | negative =>
      cases t with
      | negative =>
          simp only [Sign.apply] at le ⊢
          have magnitudes := units_le_of_parts otherFits fits (by omega)
          omega
      | positive =>
          simp only [Sign.apply]
          omega
  | positive =>
      cases t with
      | negative =>
          simp only [Sign.apply] at le ⊢
          have zero : m = 0 := by omega
          have otherZero : n = 0 := by omega
          subst zero otherZero
          omega
      | positive =>
          simp only [Sign.apply] at le ⊢
          have magnitudes := units_le_of_parts fits otherFits (by omega)
          omega

end Cadenza
