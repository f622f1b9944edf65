import Cadenza.Proofs.Number.Doubles
import Cadenza.Proofs.Sorting.Filtering
import Cadenza.Timeline

/-!
# The order of events

Doubles are ordered apart from those that are no numbers, rationals all of them. So events at times
that compare have one stable order, which does not depend on the other events of the list.
-/

namespace Cadenza

set_option autoImplicit false

/-- Coming before is a weak order among the times that compare with themselves. -/
class OrderedTime (τ : Type) [Time τ] : Prop where
  asymm : ∀ a b : τ, a < b → ¬ b < a
  split : ∀ a b c : τ, Time.compares b = true → a < c → a < b ∨ b < c

instance : OrderedTime Float where
  asymm a b less := by
    intro back
    have forth := (float_lt_iff.1 less).2.2
    have ranks := (float_lt_iff.1 back).2.2
    omega
  split a b _ compares less := by
    obtain ⟨first, last, ranks⟩ := float_lt_iff.1 less
    have number := (float_le_iff.1 (of_decide_eq_true compares)).1
    by_cases low : rank (parts a) < rank (parts b)
    · exact Or.inl (float_lt_iff.2 ⟨first, number, low⟩)
    · exact Or.inr (float_lt_iff.2 ⟨number, last, by omega⟩)

instance : OrderedTime Rat where
  asymm _ _ less := Rat.not_lt.2 (Rat.le_of_lt less)
  split a b c _ less := by
    by_cases low : a < b
    · exact Or.inl low
    · have below : b ≤ a := Rat.not_lt.1 low
      exact Or.inr (Rat.not_le.1 fun above => Rat.not_le.2 less (Rat.le_trans above below))

variable {τ : Type} [Time τ] [OrderedTime τ]

theorem weak_order_after :
    WeakOrder (Event.after (τ := τ)) fun e => Time.compares e.time = true where
  asymm x y _ _ passes := by
    have less : x.time < y.time := of_decide_eq_true passes
    exact decide_eq_false (OrderedTime.asymm _ _ less)
  split x y z _ compares _ passes := by
    have less : x.time < z.time := of_decide_eq_true passes
    rcases OrderedTime.split x.time y.time z.time compares less with low | high
    · exact Or.inl (decide_eq_true low)
    · exact Or.inr (decide_eq_true high)

theorem rising_sort (events : List (Event Rat)) :
    (sortStable Event.after events).Pairwise fun earlier later => earlier.time ≤ later.time := by
  have sorted := pairwise_sort_stable weak_order_after.orders
    fun e (_ : e ∈ events) => compares_rat e.time
  apply sorted.imp
  intro earlier later stands
  exact Rat.not_lt.1 (of_decide_eq_false stands)

end Cadenza
