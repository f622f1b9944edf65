import Cadenza.Number.Double

/-!
# Numbers that measure time

Layout, tempo and rounding are written once for every number type that can measure time. Doubles
run; rationals are what the exact laws of time are about.
-/

namespace Cadenza

set_option autoImplicit false

class Time (τ : Type) extends Add τ, Sub τ, Mul τ, Div τ, NatCast τ, LE τ, LT τ, BEq τ where
  decLE : DecidableLE τ
  decLT : DecidableLT τ
  /-- The exact value, from which whole counts are rounded. -/
  exact : τ → Exact

attribute [reducible, instance] Time.decLE Time.decLT

instance : Time Float where
  natCast := Float.ofNat
  decLE := inferInstance
  decLT := inferInstance
  exact x := (Double.ofFloat x).exact

instance : Time Rat where
  decLE := inferInstance
  decLT := inferInstance
  exact x := .ratio x.num x.den

abbrev Time.zero {τ : Type} [Time τ] : τ := ((0 : Nat) : τ)

/-- Whether a time compares with anything at all, and so with itself. -/
def Time.compares {τ : Type} [Time τ] (t : τ) : Bool :=
  decide (t ≤ t)

theorem compares_rat (t : Rat) : Time.compares t = true :=
  decide_eq_true (Rat.le_refl (a := t))

end Cadenza
