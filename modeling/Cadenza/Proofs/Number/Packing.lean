import Cadenza.Proofs.Number.Rounding
import Mathlib

/-!
# The bits of a double

What is read off the bits of a double has a mantissa that fits, and such a double is read again as
it was written. Beyond the greatest exponent an infinity is written instead.
-/

namespace Cadenza

set_option autoImplicit false

open Float.Model Float.Model.UnpackedFloat

def Canonical : UnpackedFloat → Prop
  | .finite _ m e _ => ∃ k : Nat, e = (k : Int) - 1074 ∧ k ≤ 2045 ∧ Fits m k
  | _ => True

theorem to_nat_append_one (mantissa : BitVec 52) :
    (1#1 ++ mantissa).toNat = 2 ^ 52 + mantissa.toNat := by
  rw [BitVec.toNat_append, ← Nat.shiftLeft_add_eq_or_of_lt mantissa.isLt]
  rfl

theorem canonical_unpack (bits : BitVec Format.binary64.numBits) :
    Canonical (UnpackedFloat.unpack Format.binary64 bits) := by
  have bias : (Format.binary64.exponentBias : Int) + Format.binary64.mantissaBitsWithoutImplicit =
      1075 := rfl
  unfold UnpackedFloat.unpack
  dsimp only
  rw [bias]
  split
  · split <;> trivial
  · rename_i notTop
    split
    · rename_i least
      split
      · trivial
      · have small : (unpackMantissa bits).toNat < 2 ^ 52 := (unpackMantissa bits).isLt
        refine ⟨0, ?_, by omega, by omega, Or.inr rfl⟩
        rw [least]
        rfl
    · rename_i notLeast
      have small : (unpackMantissa bits).toNat < 2 ^ 52 := (unpackMantissa bits).isLt
      have bound : (unpackExponent bits).toNat < 2 ^ 11 := (unpackExponent bits).isLt
      have positive : (unpackExponent bits).toNat ≠ 0 := fun zero =>
        notLeast (BitVec.eq_of_toNat_eq zero)
      have below : (unpackExponent bits).toNat ≠ 2047 := fun top =>
        notTop (BitVec.eq_of_toNat_eq top)
      refine ⟨(unpackExponent bits).toNat - 1, by omega, by omega, ?_⟩
      rw [to_nat_append_one]
      exact ⟨by omega, Or.inl (by omega)⟩

def stored (x : UnpackedFloat) : UnpackedFloat :=
  UnpackedFloat.unpack Format.binary64 (UnpackedFloat.pack Format.binary64 x)

theorem stored_not_a_number : stored .notANumber = .notANumber :=
  unpack_packedNaN

theorem stored_zero (s : Sign) : stored (.zero s) = .zero s :=
  unpack_packedZero

theorem stored_infinity (s : Sign) : stored (.infinity s) = .infinity s := by
  change UnpackedFloat.unpack Format.binary64 (packComponents _ s _ _) = _
  unfold UnpackedFloat.unpack
  simp only [unpackExponent_packComponents, unpackMantissa_packComponents,
    unpackSign_packComponents, Sign.ofBitVec_toBitVec]
  rfl

theorem unpack_normal (s : Sign) {exponent : BitVec 11} (mantissa : BitVec 52)
    (below : exponent ≠ -1#11) (positive : exponent ≠ 0#11) :
    UnpackedFloat.unpack Format.binary64 (packComponents Format.binary64 s exponent mantissa) =
      .finite s (2 ^ 52 + mantissa.toNat) ((exponent.toNat : Int) - 1075) (by omega) := by
  have bias : (Format.binary64.exponentBias : Int) + Format.binary64.mantissaBitsWithoutImplicit =
      1075 := rfl
  unfold UnpackedFloat.unpack
  simp only [unpackExponent_packComponents, unpackMantissa_packComponents,
    unpackSign_packComponents, Sign.ofBitVec_toBitVec, below, positive, ↓reduceIte, bias]
  congr 1
  exact to_nat_append_one mantissa

theorem unpack_subnormal (s : Sign) {mantissa : BitVec 52} (nonzero : mantissa ≠ 0#52)
    (pos : 0 < mantissa.toNat) :
    UnpackedFloat.unpack Format.binary64 (packComponents Format.binary64 s 0#11 mantissa) =
      .finite s mantissa.toNat (-1074) pos := by
  unfold UnpackedFloat.unpack
  simp only [unpackExponent_packComponents, unpackMantissa_packComponents,
    unpackSign_packComponents, Sign.ofBitVec_toBitVec, nonzero]
  rfl

theorem biased_exponent_eq (k : Nat) :
    ((k : Int) - 1074 + Format.binary64.exponentBias +
      Format.binary64.mantissaBitsWithoutImplicit).toNat = k + 1 := by
  have bias : Format.binary64.exponentBias = 1023 := rfl
  have bits : Format.binary64.mantissaBitsWithoutImplicit = 52 := rfl
  rw [bias, bits]
  omega

theorem pack_finite_eq (s : Sign) {m : Nat} (pos : 0 < m) (k : Nat) :
    UnpackedFloat.pack Format.binary64 (.finite s m ((k : Int) - 1074) pos) =
      if 2048 ≤ k + 2 then packedInfinity Format.binary64 s
      else if m.log2 + 1 = 53 then
        packComponents Format.binary64 s (BitVec.ofNat 11 (k + 1)) (BitVec.ofNat 52 m)
      else packComponents Format.binary64 s 0#11 (BitVec.ofNat 52 m) := by
  have field := biased_exponent_eq k
  change (if 2048 ≤ _ + 1 then _ else if m.log2 + 1 = 53 then
    packComponents Format.binary64 s (BitVec.ofNat 11 _) (BitVec.ofNat 52 m) else _) = _
  rw [field]

theorem stored_of_normal (s : Sign) {m k : Nat} (pos : 0 < m) (small : m < 2 ^ 53)
    (long : 2 ^ 52 ≤ m) (top : k ≤ 2045) :
    stored (.finite s m ((k : Int) - 1074) pos) = .finite s m ((k : Int) - 1074) pos := by
  have inRange : ¬ 2048 ≤ k + 2 := by omega
  have bits : m.log2 + 1 = 53 := by
    rw [(Nat.log2_eq_iff (Nat.ne_of_gt pos)).2 ⟨long, small⟩]
  have exponent : (BitVec.ofNat 11 (k + 1)).toNat = k + 1 := by
    rw [BitVec.toNat_ofNat]
    omega
  have mantissa : (BitVec.ofNat 52 m).toNat = m - 2 ^ 52 := by
    rw [BitVec.toNat_ofNat]
    omega
  have below : BitVec.ofNat 11 (k + 1) ≠ -1#11 := by
    intro same
    have value : (BitVec.ofNat 11 (k + 1)).toNat = 2047 := by
      rw [same]
      rfl
    omega
  have positive : BitVec.ofNat 11 (k + 1) ≠ 0#11 := by
    intro same
    have value : (BitVec.ofNat 11 (k + 1)).toNat = 0 := by
      rw [same]
      rfl
    omega
  unfold stored
  rw [pack_finite_eq, if_neg inRange, if_pos bits, unpack_normal s _ below positive]
  congr 1
  · omega
  · omega

theorem stored_of_subnormal (s : Sign) {m : Nat} (pos : 0 < m) (short : m < 2 ^ 52) :
    stored (.finite s m ((0 : Nat) - 1074) pos) = .finite s m ((0 : Nat) - 1074) pos := by
  have bits : ¬ m.log2 + 1 = 53 := by
    have less : m.log2 < 52 := (Nat.log2_lt (Nat.ne_of_gt pos)).2 short
    omega
  have mantissa : (BitVec.ofNat 52 m).toNat = m := by
    rw [BitVec.toNat_ofNat]
    omega
  have nonzero : BitVec.ofNat 52 m ≠ 0#52 := by
    intro same
    have value : (BitVec.ofNat 52 m).toNat = 0 := by
      rw [same]
      rfl
    omega
  unfold stored
  rw [pack_finite_eq, if_neg (by decide), if_neg bits, unpack_subnormal s nonzero (by omega)]
  congr 1

theorem stored_of_fits (s : Sign) {m k : Nat} (pos : 0 < m) (fits : Fits m k) (top : k ≤ 2045) :
    stored (.finite s m ((k : Int) - 1074) pos) = .finite s m ((k : Int) - 1074) pos := by
  obtain ⟨small, normal⟩ := fits
  by_cases long : 2 ^ 52 ≤ m
  · exact stored_of_normal s pos small long top
  · obtain rfl : k = 0 := by omega
    exact stored_of_subnormal s pos (Nat.lt_of_not_le long)

theorem stored_of_overflow (s : Sign) {m k : Nat} (pos : 0 < m) (beyond : 2045 < k) :
    stored (.finite s m ((k : Int) - 1074) pos) = .infinity s := by
  have outOfRange : 2048 ≤ k + 2 := by omega
  rw [← stored_infinity s]
  unfold stored
  rw [pack_finite_eq, if_pos outOfRange]
  rfl

end Cadenza
