import Cadenza.Number.Exact

/-!
# Doubles taken apart

A double is read off its bits as a sign, a natural mantissa and a power of two, which is all that
rounding it or writing it needs.
-/

namespace Cadenza

set_option autoImplicit false

/-- What the bits of a double stand for; the finite value is `±mantissa * 2 ^ exponent`. -/
inductive Double where
  | notANumber
  | infinite (negative : Bool)
  | finite (negative : Bool) (mantissa : Nat) (exponent : Int)
  deriving DecidableEq, Repr

namespace Double

/-- Fields of the format: 1 sign bit, 11 exponent bits, 52 fraction bits. The lowest exponent field
marks the numbers without a leading one, the highest marks the values that are not finite. -/
def ofFloat (x : Float) : Double :=
  let bits : Nat := x.toBits.toNat
  let negative := decide (1 <<< 63 ≤ bits)
  let field : Nat := (bits >>> 52) % (1 <<< 11)
  let fraction : Nat := bits % (1 <<< 52)
  if field = (1 <<< 11) - 1 then
    if fraction = 0 then .infinite negative else .notANumber
  else if field = 0 then .finite negative fraction (-1074)
  else .finite negative ((1 <<< 52) + fraction) ((field : Int) - 1075)

def exact : Double → Exact
  | .notANumber => .notANumber
  | .infinite true => .negInfinite
  | .infinite false => .posInfinite
  | .finite negative mantissa exponent =>
      let signed : Int := if negative then -mantissa else mantissa
      match exponent with
      | .ofNat power => .ratio (signed * (1 <<< power : Nat)) 1
      | .negSucc power => .ratio signed (1 <<< (power + 1))

end Double

end Cadenza
