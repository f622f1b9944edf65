/-!
# Checked 32-bit words

Pitches count in 32-bit signed words. An operation on them is carried out on the integers and
then brought back into a word; a result that does not fit is no word at all, never a wrapped one.
-/

namespace Cadenza

set_option autoImplicit false

def word? (n : Int) : Option Int32 :=
  if Int32.minValue.toInt ≤ n ∧ n ≤ Int32.maxValue.toInt then some (Int32.ofInt n) else none

theorem word?_eq_some_iff {n : Int} {w : Int32} : word? n = some w ↔ w.toInt = n := by
  have low := w.le_toInt
  have high := w.toInt_lt
  have least := Int32.toInt_minValue
  have greatest := Int32.toInt_maxValue
  unfold word?
  split
  · rename_i fits
    rw [Option.some.injEq]
    constructor
    · intro same
      rw [← same, Int32.toInt_ofInt_of_le (by omega) (by omega)]
    · intro same
      rw [← same, Int32.ofInt_toInt]
  · rename_i outside
    constructor
    · intro impossible
      cases impossible
    · intro same
      omega

theorem word?_eq_none_iff {n : Int} :
    word? n = none ↔ n < Int32.minValue.toInt ∨ Int32.maxValue.toInt < n := by
  unfold word?
  split
  · rename_i fits
    constructor
    · intro impossible
      cases impossible
    · intro outside
      omega
  · rename_i outside
    constructor
    · intro _
      omega
    · intro _
      rfl

end Cadenza
