import Cadenza.Proofs.Number.Doubles
import Cadenza.Proofs.Number.Spacing
import Mathlib.Data.List.Iterate

/-!
# Adding and taking off again

A time that is found by adding a span and taking it off again, in doubles, need not be the time it
started from. But it does not wander: done again, it leads to the same double. This is so for all
finite doubles, zeros with a sign among them, and for spans that are negative.
-/

namespace Cadenza

set_option autoImplicit false

open Float.Model Float.Model.UnpackedFloat

/-- What rounding leaves, before it is written: a mantissa that fits, with any exponent. -/
def Rounded : UnpackedFloat → Prop
  | .finite _ m e _ => ∃ k : Nat, e = (k : Int) - 1074 ∧ Fits m k
  | _ => True

theorem rounded_of_canonical {x : UnpackedFloat} (known : Canonical x) : Rounded x := by
  cases x with
  | finite s m e pos =>
      obtain ⟨k, exponent, _, fits⟩ := known
      exact ⟨k, exponent, fits⟩
  | _ => trivial

theorem normalize_cases (n : Int) (k : Nat) :
    UnpackedFloat.normalize Format.binary64 n ((k : Int) - 1074) .positive = .zero .positive ∨
      ∃ s m k', ∃ pos : 0 < m, Fits m k' ∧
        UnpackedFloat.normalize Format.binary64 n ((k : Int) - 1074) .positive =
          .finite s m ((k' : Int) - 1074) pos := by
  unfold UnpackedFloat.normalize
  rcases Int.lt_trichotomy n 0 with negative | zero | positive
  · rw [Int.compare_eq_lt.2 negative]
    obtain ⟨m, k', pos, fits, _, same⟩ := round_eq .negative (show 0 < (-n).toNat by omega) k
    exact .inr ⟨_, m, k', pos, fits, same⟩
  · rw [Int.compare_eq_eq.2 zero]
    exact .inl rfl
  · rw [Int.compare_eq_gt.2 positive]
    obtain ⟨m, k', pos, fits, _, same⟩ := round_eq .positive (show 0 < n.toNat by omega) k
    exact .inr ⟨_, m, k', pos, fits, same⟩

/-- A sum of two doubles that are not zero is a positive zero, or a mantissa that fits. -/
theorem add_finite_cases (s t : Sign) {m n : Nat} (j k : Nat) (pos : 0 < m) (positive : 0 < n) :
    UnpackedFloat.add Format.binary64 (.finite s m ((j : Int) - 1074) pos)
        (.finite t n ((k : Int) - 1074) positive) = .zero .positive ∨
      ∃ r l i, ∃ more : 0 < l, Fits l i ∧
        UnpackedFloat.add Format.binary64 (.finite s m ((j : Int) - 1074) pos)
          (.finite t n ((k : Int) - 1074) positive) = .finite r l ((i : Int) - 1074) more := by
  have least :
      min ((j : Int) - 1074) ((k : Int) - 1074) = ((min j k : Nat) : Int) - 1074 := by
    omega
  unfold UnpackedFloat.add
  dsimp only
  rw [least]
  exact normalize_cases _ _

theorem rounded_add {x y : UnpackedFloat} (known : Canonical x) (others : Canonical y) :
    Rounded (UnpackedFloat.add Format.binary64 x y) := by
  cases x with
  | notANumber => cases y <;> trivial
  | infinity s =>
      cases y with
      | infinity t => cases s <;> cases t <;> trivial
      | _ => trivial
  | zero s =>
      cases y with
      | zero t => cases s <;> cases t <;> trivial
      | finite t n f positive => exact rounded_of_canonical others
      | _ => trivial
  | finite s m e pos =>
      cases y with
      | zero t => exact rounded_of_canonical known
      | finite t n f positive =>
          obtain ⟨j, rfl, _, _⟩ := known
          obtain ⟨k, rfl, _, _⟩ := others
          obtain zero | ⟨r, l, i, more, fits, same⟩ := add_finite_cases s t j k pos positive
          · rw [zero]
            trivial
          · rw [same]
            exact ⟨i, rfl, fits⟩
      | _ => trivial

/-- What is finite when it is read again was written as it is. -/
theorem stored_of_rounded {x : UnpackedFloat} (rounded : Rounded x)
    (finite : (stored x).isFinite = true) : stored x = x := by
  cases x with
  | notANumber => exact stored_not_a_number
  | infinity s => exact stored_infinity s
  | zero s => exact stored_zero s
  | finite s m e pos =>
      obtain ⟨k, rfl, fits⟩ := rounded
      by_cases top : k ≤ 2045
      · exact stored_of_fits s pos fits top
      · rw [stored_of_overflow s pos (by omega)] at finite
        cases finite

theorem stored_add {x y : UnpackedFloat} (known : Canonical x) (others : Canonical y)
    (finite : (stored (UnpackedFloat.add Format.binary64 x y)).isFinite = true) :
    stored (UnpackedFloat.add Format.binary64 x y) = UnpackedFloat.add Format.binary64 x y :=
  stored_of_rounded (rounded_add known others) finite

theorem finite_of_stored {x : UnpackedFloat} (finite : (stored x).isFinite = true) :
    x.isFinite = true := by
  cases x with
  | notANumber => rw [stored_not_a_number] at finite; cases finite
  | infinity s => rw [stored_infinity] at finite; cases finite
  | _ => rfl

theorem finite_of_add {x y : UnpackedFloat}
    (finite : (UnpackedFloat.add Format.binary64 x y).isFinite = true) :
    x.isFinite = true ∧ y.isFinite = true := by
  cases x with
  | notANumber => cases y <;> cases finite
  | infinity s =>
      cases y with
      | infinity t => cases s <;> cases t <;> cases finite
      | _ => cases finite
  | _ => cases y <;> first | exact ⟨rfl, rfl⟩ | cases finite

/-- A sum is a negative zero only if what is added are two of them. -/
theorem add_ne_negative_zero {x y : UnpackedFloat} (known : Canonical x) (others : Canonical y)
    (plus : x ≠ .zero .negative ∨ y ≠ .zero .negative) :
    UnpackedFloat.add Format.binary64 x y ≠ .zero .negative := by
  cases x with
  | notANumber => cases y <;> nofun
  | infinity s =>
      cases y with
      | infinity t => cases s <;> cases t <;> nofun
      | _ => nofun
  | zero s =>
      cases y with
      | zero t =>
          cases s with
          | positive => cases t <;> nofun
          | negative =>
              cases t with
              | positive => nofun
              | negative => exact absurd plus (by simp)
      | _ => nofun
  | finite s m e pos =>
      cases y with
      | finite t n f positive =>
          obtain ⟨j, rfl, _, _⟩ := known
          obtain ⟨k, rfl, _, _⟩ := others
          obtain zero | ⟨r, l, i, more, _, same⟩ := add_finite_cases s t j k pos positive
          · rw [zero]
            nofun
          · rw [same]
            nofun
      | _ => nofun

theorem sub_eq_add_neg_unpacked (x y : UnpackedFloat) :
    UnpackedFloat.sub Format.binary64 x y = UnpackedFloat.add Format.binary64 x y.neg := by
  cases x with
  | notANumber => cases y <;> rfl
  | finite s m e pos =>
      cases y with
      | finite t n f positive =>
          have turned : ∀ i : Int, (-t).apply i = -t.apply i := by
            intro i
            cases t
            · exact (Int.neg_neg i).symm
            · rfl
          unfold UnpackedFloat.sub UnpackedFloat.add UnpackedFloat.neg
          dsimp only
          rw [turned, Int.sub_eq_add_neg]
      | _ => rfl
  | _ => cases y <;> rfl

theorem canonical_neg {x : UnpackedFloat} (known : Canonical x) : Canonical x.neg := by
  cases x <;> exact known

theorem finite_neg (x : UnpackedFloat) : x.neg.isFinite = x.isFinite := by
  cases x <;> rfl

theorem units_neg (x : UnpackedFloat) : units x.neg = -units x := by
  cases x with
  | finite s m e pos =>
      cases s
      · exact (Int.neg_neg _).symm
      · rfl
  | _ => rfl

theorem units_at_rank {x : UnpackedFloat} (known : Canonical x) (finite : x.isFinite = true) :
    unitsAt (rank x) = units x := by
  obtain ⟨s, m, k, fits, rankIs, unitsAre⟩ := finite_parts known finite
  have magnitude := magnitude_of_parts (Nat.le_of_lt fits.small) fits.normal
  rw [rankIs, unitsAre]
  cases s with
  | negative =>
      simp only [Sign.apply]
      rw [units_at_neg, units_at_natCast, magnitude]
  | positive =>
      simp only [Sign.apply]
      rw [units_at_natCast, magnitude]

theorem Fits.eq_of_rank {m n j k : Nat} (fits : Fits m j) (others : Fits n k)
    (ranks : j * 2 ^ 52 + m = k * 2 ^ 52 + n) : j = k ∧ m = n := by
  obtain ⟨small, normal⟩ := fits
  obtain ⟨otherSmall, otherNormal⟩ := others
  omega

/-- A finite double that is no negative zero is told by its rank. -/
theorem eq_of_rank {x y : UnpackedFloat} (known : Canonical x) (others : Canonical y)
    (finite : x.isFinite = true) (other : y.isFinite = true) (plus : x ≠ .zero .negative)
    (otherPlus : y ≠ .zero .negative) (same : rank x = rank y) : x = y := by
  cases x with
  | notANumber => cases finite
  | infinity s => cases finite
  | zero s =>
      cases y with
      | notANumber => cases other
      | infinity t => cases other
      | zero t => cases s <;> cases t <;> first | rfl | exact absurd rfl ‹_›
      | finite t n f positive =>
          obtain ⟨k, rfl, _, _⟩ := others
          rw [rank_finite] at same
          cases t <;> simp only [rank, Sign.apply] at same <;> omega
  | finite s m e pos =>
      obtain ⟨j, rfl, _, fits⟩ := known
      rw [rank_finite] at same
      cases y with
      | notANumber => cases other
      | infinity t => cases other
      | zero t => cases s <;> simp only [rank, Sign.apply] at same <;> omega
      | finite t n f positive =>
          obtain ⟨k, rfl, _, otherFits⟩ := others
          rw [rank_finite] at same
          cases s <;> cases t <;> simp only [Sign.apply] at same <;>
            first
            | (obtain ⟨rfl, rfl⟩ := fits.eq_of_rank otherFits (by omega); rfl)
            | omega

section Floats

variable {a b : Float}

theorem parts_sub (a b : Float) :
    parts (a - b) = stored (UnpackedFloat.sub Format.binary64 (parts a) (parts b)) :=
  rfl

theorem parts_sub_eq (a b : Float) :
    parts (a - b) = stored (UnpackedFloat.add Format.binary64 (parts a) (parts b).neg) := by
  rw [parts_sub, sub_eq_add_neg_unpacked]

theorem finite_of_float_add (finite : (a + b).isFinite = true) :
    a.isFinite = true ∧ b.isFinite = true := by
  change (stored (UnpackedFloat.add Format.binary64 (parts a) (parts b))).isFinite = true at finite
  exact finite_of_add (finite_of_stored finite)

theorem finite_of_float_sub (finite : (a - b).isFinite = true) :
    a.isFinite = true ∧ b.isFinite = true := by
  change (parts (a - b)).isFinite = true at finite
  rw [parts_sub_eq] at finite
  obtain ⟨here, there⟩ := finite_of_add (finite_of_stored finite)
  exact ⟨here, (finite_neg (parts b)).symm.trans there⟩

/-- A finite sum is rounded from the sum of units. -/
theorem rounds_to_sum {x y : UnpackedFloat} (known : Canonical x) (others : Canonical y)
    (finite : (stored (UnpackedFloat.add Format.binary64 x y)).isFinite = true) :
    RoundsTo (units x + units y) (rank (stored (UnpackedFloat.add Format.binary64 x y))) := by
  obtain ⟨here, there⟩ := finite_of_add (finite_of_stored finite)
  obtain ⟨low, high⟩ := abs_rank_lt (canonical_stored _) finite
  have nearest := (nearest_of_add known others here there).rank
  rw [nearest] at low high ⊢
  exact rounds_to_rounded_rank low high

theorem rounds_to_add (finite : (a + b).isFinite = true) :
    RoundsTo (unitsAt (rank (parts a)) + unitsAt (rank (parts b))) (rank (parts (a + b))) := by
  obtain ⟨here, there⟩ := finite_of_float_add finite
  rw [units_at_rank (canonical_parts a) here, units_at_rank (canonical_parts b) there]
  exact rounds_to_sum (canonical_parts a) (canonical_parts b) finite

theorem rounds_to_sub (finite : (a - b).isFinite = true) :
    RoundsTo (unitsAt (rank (parts a)) - unitsAt (rank (parts b))) (rank (parts (a - b))) := by
  obtain ⟨here, there⟩ := finite_of_float_sub finite
  change (parts (a - b)).isFinite = true at finite
  rw [parts_sub_eq] at finite
  rw [units_at_rank (canonical_parts a) here, units_at_rank (canonical_parts b) there,
    Int.sub_eq_add_neg, ← units_neg, parts_sub_eq]
  exact rounds_to_sum (canonical_parts a) (canonical_neg (canonical_parts b)) finite

theorem rank_add_zero (a : Float) : rank (parts (a + Time.zero)) = rank (parts a) := by
  rw [float_add_comm]
  exact (zero_add_stored (canonical_parts a)).2

theorem parts_add_zero_ne (finite : (a + Time.zero).isFinite = true) :
    parts (a + Time.zero) ≠ .zero .negative := by
  have known := canonical_parts a
  have zero : Canonical (.zero .positive) := trivial
  have made : parts (a + Time.zero) =
      UnpackedFloat.add Format.binary64 (parts a) (.zero .positive) :=
    stored_add known zero finite
  rw [made]
  exact add_ne_negative_zero known zero (.inr nofun)

theorem parts_sub_of_finite (finite : (a - b).isFinite = true) (plus : parts a ≠ .zero .negative) :
    parts (a - b) = UnpackedFloat.sub Format.binary64 (parts a) (parts b) ∧
      parts (a - b) ≠ .zero .negative := by
  have known := canonical_parts a
  have turned := canonical_neg (canonical_parts b)
  change (parts (a - b)).isFinite = true at finite
  rw [parts_sub_eq] at finite
  rw [parts_sub_eq, stored_add known turned finite, sub_eq_add_neg_unpacked]
  exact ⟨rfl, add_ne_negative_zero known turned (.inl plus)⟩

/-- Finite differences of the same rank are the same double, where nothing is taken off a negative
zero. -/
theorem float_sub_eq_of_rank {c d : Float} (finite : (a - b).isFinite = true)
    (other : (c - d).isFinite = true) (plus : parts a ≠ .zero .negative)
    (otherPlus : parts c ≠ .zero .negative)
    (same : rank (parts (a - b)) = rank (parts (c - d))) : a - b = c - d := by
  obtain ⟨made, unsigned⟩ := parts_sub_of_finite finite plus
  obtain ⟨otherMade, otherUnsigned⟩ := parts_sub_of_finite other otherPlus
  have parts := eq_of_rank (canonical_parts (a - b)) (canonical_parts (c - d)) finite other
    unsigned otherUnsigned same
  rw [made, otherMade] at parts
  exact congrArg (fun x => Float.ofModel (Float.Model.pack x)) parts

end Floats

/-- A span added to a time and taken off again, in doubles. -/
def restart (span start : Float) : Float :=
  start + span + Time.zero - span

theorem finite_of_restart {span start : Float} (finite : (restart span start).isFinite = true) :
    start.isFinite = true ∧ (start + span).isFinite = true ∧
      (start + span + Time.zero).isFinite = true := by
  have moved := (finite_of_float_sub finite).1
  have ended := (finite_of_float_add moved).1
  exact ⟨(finite_of_float_add ended).1, ended, moved⟩

theorem rounds_to_restart {span start : Float} (finite : (restart span start).isFinite = true) :
    RoundsTo (unitsAt (rank (parts start)) + unitsAt (rank (parts span)))
        (rank (parts (start + span))) ∧
      RoundsTo (unitsAt (rank (parts (start + span))) - unitsAt (rank (parts span)))
        (rank (parts (restart span start))) := by
  have back := rounds_to_sub (a := start + span + Time.zero) (b := span) finite
  rw [rank_add_zero] at back
  exact ⟨rounds_to_add (finite_of_restart finite).2.1, back⟩

/-- A span that was added and taken off once can be added and taken off again without any change,
as long as all that is found on the way is finite. -/
theorem restart_settles {span start : Float}
    (finite : (restart span (restart span start)).isFinite = true) :
    restart span (restart span start) = restart span start := by
  obtain ⟨first, _, again⟩ := finite_of_restart finite
  obtain ⟨out, back⟩ := rounds_to_restart first
  obtain ⟨outAgain, home⟩ := rounds_to_restart finite
  exact float_sub_eq_of_rank finite first (parts_add_zero_ne again)
    (parts_add_zero_ne (finite_of_restart first).2.2)
    (settled_after_once out back outAgain home)

/-- From zero the way leads back to zero. -/
theorem restart_zero {span : Float} (finite : (restart span Time.zero).isFinite = true) :
    restart span Time.zero = Time.zero := by
  have origin : rank (parts (Time.zero : Float)) = 0 := rfl
  have none : unitsAt 0 = 0 := rfl
  obtain ⟨out, back⟩ := rounds_to_restart finite
  rw [origin, none, Int.zero_add] at out
  rw [out.unique (RoundsTo.self _), Int.sub_self] at back
  have home : rank (parts (restart span Time.zero)) =
      rank (parts (Time.zero - Time.zero : Float)) :=
    back.unique (none ▸ RoundsTo.self 0)
  have plus : parts (Time.zero : Float) ≠ .zero .negative := nofun
  have moved := parts_add_zero_ne (finite_of_restart finite).2.2
  have nothing : (Time.zero - Time.zero : Float) = Time.zero := by decide
  exact (float_sub_eq_of_rank finite (by decide) moved plus home).trans nothing

theorem iterate_of_fixed {α : Type} {f : α → α} {a : α} (fixed : f a = a) (count : Nat) :
    List.iterate f a count = List.replicate count a := by
  induction count with
  | zero => rfl
  | succ count ih => rw [List.iterate, fixed, ih, List.replicate_succ]

/-- Restarting over and over leads to one other time at most. -/
theorem iterate_restart {span first : Float} {count : Nat}
    (finite : ∀ t ∈ List.iterate (restart span) first (count + 1), t.isFinite = true) :
    List.iterate (restart span) first (count + 1) =
      first :: List.replicate count (restart span first) := by
  rw [List.iterate]
  congr 1
  match count with
  | 0 => rfl
  | 1 => rfl
  | count + 2 =>
      have third : (restart span (restart span first)).isFinite = true :=
        finite _ (by simp [List.iterate])
      exact iterate_of_fixed (restart_settles third) _

end Cadenza
