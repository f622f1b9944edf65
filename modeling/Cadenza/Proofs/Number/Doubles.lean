import Cadenza.Proofs.Number.Sums
import Cadenza.Time

/-!
# The order of doubles

What holds of doubles however sums are rounded: adding the same double to both sides keeps their
order, and a span that is not negative moves nothing backwards. Where a sum is no number nothing is
claimed, but then nothing compares with it either.
-/

namespace Cadenza

set_option autoImplicit false

open Float.Model Float.Model.UnpackedFloat

theorem numbers_of_add {x y : UnpackedFloat}
    (number : (UnpackedFloat.add Format.binary64 x y).isNaN = false) :
    x.isNaN = false ∧ y.isNaN = false := by
  cases x with
  | notANumber => cases number
  | infinity s => cases y <;> first | exact ⟨rfl, rfl⟩ | cases number
  | zero s => cases y <;> first | exact ⟨rfl, rfl⟩ | cases number
  | finite s m e pos => cases y <;> first | exact ⟨rfl, rfl⟩ | cases number

theorem add_infinity {x : UnpackedFloat} {s : Sign}
    (number : (UnpackedFloat.add Format.binary64 x (.infinity s)).isNaN = false) :
    UnpackedFloat.add Format.binary64 x (.infinity s) = .infinity s := by
  cases x with
  | notANumber => cases number
  | infinity t => cases s <;> cases t <;> first | rfl | cases number
  | zero t => rfl
  | finite t m e pos => rfl

theorem infinity_add {x : UnpackedFloat} (s : Sign) (finite : x.isFinite = true) :
    UnpackedFloat.add Format.binary64 (.infinity s) x = .infinity s := by
  cases x with
  | notANumber => cases finite
  | infinity t => cases finite
  | zero t => rfl
  | finite t m e pos => rfl

theorem add_comm_unpacked (x y : UnpackedFloat) :
    UnpackedFloat.add Format.binary64 x y = UnpackedFloat.add Format.binary64 y x := by
  cases x with
  | notANumber => cases y <;> rfl
  | infinity s =>
      cases y with
      | infinity t => cases s <;> cases t <;> rfl
      | _ => rfl
  | zero s =>
      cases y with
      | zero t => cases s <;> cases t <;> rfl
      | _ => rfl
  | finite s m e pos =>
      cases y with
      | finite t n f positive =>
          unfold UnpackedFloat.add
          dsimp only
          rw [Int.min_comm e f, Int.add_comm]
      | _ => rfl

/-- Adding the same double keeps order, where both sums are numbers. -/
theorem rank_add_mono {x y z : UnpackedFloat} (known : Canonical x) (others : Canonical y)
    (shift : Canonical z)
    (number : (UnpackedFloat.add Format.binary64 x z).isNaN = false)
    (other : (UnpackedFloat.add Format.binary64 y z).isNaN = false) (le : rank x ≤ rank y) :
    rank (stored (UnpackedFloat.add Format.binary64 x z)) ≤
      rank (stored (UnpackedFloat.add Format.binary64 y z)) := by
  obtain ⟨xNumber, zNumber⟩ := numbers_of_add number
  have yNumber := (numbers_of_add other).1
  have bounds := abs_rank_le (canonical_stored (UnpackedFloat.add Format.binary64 x z))
  have otherBounds := abs_rank_le (canonical_stored (UnpackedFloat.add Format.binary64 y z))
  rcases infinity_or_finite zNumber with ⟨s, rfl⟩ | zFinite
  · have same := (add_infinity number).trans (add_infinity other).symm
    exact Int.le_of_eq (congrArg (fun sum => rank (stored sum)) same)
  · rcases infinity_or_finite xNumber with ⟨s, rfl⟩ | xFinite
    · rw [infinity_add s zFinite, stored_infinity] at bounds ⊢
      cases s with
      | negative => exact otherBounds.1
      | positive =>
          rcases infinity_or_finite yNumber with ⟨t, rfl⟩ | yFinite
          · cases t with
            | negative => exact absurd le (by decide)
            | positive =>
                have sum := congrArg stored (infinity_add .positive zFinite)
                rw [stored_infinity] at sum
                exact Int.le_of_eq (congrArg rank sum.symm)
          · have less := (abs_rank_lt others yFinite).2
            exact absurd less (Int.not_lt.2 le)
    · rcases infinity_or_finite yNumber with ⟨t, rfl⟩ | yFinite
      · rw [infinity_add t zFinite, stored_infinity]
        cases t with
        | negative =>
            have less := (abs_rank_lt known xFinite).1
            exact absurd less (Int.not_lt.2 le)
        | positive => exact bounds.2
      · rw [(nearest_of_add known shift xFinite zFinite).rank,
          (nearest_of_add others shift yFinite zFinite).rank]
        have more := units_mono known others xFinite yFinite le
        exact rounded_rank_mono (by omega)

/-- Adding to zero changes at most the sign of a zero. -/
theorem zero_add_stored {x : UnpackedFloat} (known : Canonical x) :
    (stored (UnpackedFloat.add Format.binary64 (.zero .positive) x)).isNaN = x.isNaN ∧
      rank (stored (UnpackedFloat.add Format.binary64 (.zero .positive) x)) = rank x := by
  cases x with
  | notANumber =>
      rw [add_comm_unpacked]
      exact ⟨congrArg UnpackedFloat.isNaN stored_not_a_number, congrArg rank stored_not_a_number⟩
  | infinity s =>
      exact ⟨congrArg UnpackedFloat.isNaN (stored_infinity s), congrArg rank (stored_infinity s)⟩
  | zero s => cases s <;> exact ⟨rfl, rfl⟩
  | finite s m e pos =>
      have same := stored_of_canonical known
      exact ⟨congrArg UnpackedFloat.isNaN same, congrArg rank same⟩

theorem number_of_stored {x : UnpackedFloat} (number : (stored x).isNaN = false) :
    x.isNaN = false := by
  cases x with
  | notANumber =>
      rw [stored_not_a_number] at number
      cases number
  | _ => rfl

def parts (a : Float) : UnpackedFloat :=
  a.toModel.unpack

theorem canonical_parts (a : Float) : Canonical (parts a) :=
  canonical_unpack _

theorem parts_add (a b : Float) :
    parts (a + b) = stored (UnpackedFloat.add Format.binary64 (parts a) (parts b)) :=
  rfl

theorem parts_zero : parts (Time.zero : Float) = .zero .positive :=
  rfl

theorem float_le_iff {a b : Float} :
    a ≤ b ↔ a.isNaN = false ∧ b.isNaN = false ∧ rank (parts a) ≤ rank (parts b) := by
  have unfolded : a ≤ b ↔ (parts a).le (parts b) = true := decide_eq_true_iff
  rw [unfolded]
  constructor
  · intro le
    obtain ⟨number, other⟩ := numbers_of_le le
    exact ⟨number, other, (le_iff_rank (canonical_parts a) (canonical_parts b) number other).1 le⟩
  · intro ⟨number, other, le⟩
    exact (le_iff_rank (canonical_parts a) (canonical_parts b) number other).2 le

theorem float_lt_iff {a b : Float} :
    a < b ↔ a.isNaN = false ∧ b.isNaN = false ∧ rank (parts a) < rank (parts b) := by
  have unfolded : a < b ↔ (parts a).lt (parts b) = true := decide_eq_true_iff
  rw [unfolded]
  constructor
  · intro less
    obtain ⟨number, other⟩ := numbers_of_lt less
    exact ⟨number, other, (lt_iff_rank (canonical_parts a) (canonical_parts b) number other).1 less⟩
  · intro ⟨number, other, less⟩
    exact (lt_iff_rank (canonical_parts a) (canonical_parts b) number other).2 less

/-- Only what is no number does not compare with itself. -/
theorem compares_iff_number {a : Float} : Time.compares a = true ↔ a.isNaN = false := by
  rw [Time.compares, decide_eq_true_iff, float_le_iff]
  exact ⟨fun le => le.1, fun number => ⟨number, number, Int.le_refl _⟩⟩

theorem compares_of_finite {a : Float} (finite : a.isFinite = true) : Time.compares a = true := by
  apply compares_iff_number.2
  change (parts a).isFinite = true at finite
  change (parts a).isNaN = false
  cases known : parts a with
  | notANumber =>
      rw [known] at finite
      cases finite
  | _ => rfl

theorem float_add_comm (a b : Float) : a + b = b + a := by
  have same := add_comm_unpacked (parts a) (parts b)
  change Float.ofModel (Float.Model.pack (UnpackedFloat.add Format.binary64 (parts a) (parts b))) =
    Float.ofModel (Float.Model.pack (UnpackedFloat.add Format.binary64 (parts b) (parts a)))
  rw [same]

theorem float_add_le_add_right {a b c : Float} (le : a ≤ b) (number : (a + c).isNaN = false)
    (other : (b + c).isNaN = false) : a + c ≤ b + c := by
  rw [float_le_iff] at le ⊢
  exact ⟨number, other, rank_add_mono (canonical_parts a) (canonical_parts b) (canonical_parts c)
    (number_of_stored number) (number_of_stored other) le.2.2⟩

theorem float_le_add_of_nonneg {a span : Float} (nonneg : Time.zero ≤ span)
    (number : (a + span).isNaN = false) : a ≤ a + span := by
  rw [float_add_comm] at number ⊢
  obtain ⟨kept, rankKept⟩ := zero_add_stored (canonical_parts a)
  have operand : a.isNaN = false := (numbers_of_add (number_of_stored number)).2
  have moved := float_add_le_add_right nonneg (kept.trans operand) number
  rw [float_le_iff] at moved ⊢
  rw [parts_add, parts_zero, rankKept] at moved
  exact ⟨operand, moved.2⟩

/-- However the sums are rounded, a note does not end before it starts. -/
theorem float_not_end_lt_start {start span shift : Float} (nonneg : Time.zero ≤ span) :
    ¬ start + span + shift < start + shift := by
  intro less
  obtain ⟨ended, started, ranks⟩ := float_lt_iff.1 less
  have spanned : (start + span).isNaN = false := (numbers_of_add (number_of_stored ended)).1
  have later := float_add_le_add_right (float_le_add_of_nonneg nonneg spanned) started ended
  have above := (float_le_iff.1 later).2.2
  omega

end Cadenza
