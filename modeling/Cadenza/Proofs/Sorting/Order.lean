import Cadenza.Sorting

/-!
# What sorting by insertion puts in order

The test that sorting is given only says what comes strictly after what. If it tells an order among
the elements at hand, they are sorted by that order.
-/

namespace Cadenza

set_option autoImplicit false

variable {α : Type}

/-- Among some elements, `after y x` decides which of the two may stand before the other. -/
structure Orders (after : α → α → Bool) (among : α → Prop) (before : α → α → Prop) : Prop where
  of_after : ∀ x y, among x → among y → after y x = true → before x y
  of_not_after : ∀ x y, among x → among y → after y x = false → before y x
  trans : ∀ x y z, among x → among y → among z → before x y → before y z → before x z

theorem mem_insert_back {after : α → α → Bool} {x y : α} {sorted : List α} :
    y ∈ insertBack after x sorted ↔ y = x ∨ y ∈ sorted :=
  (perm_insert_back after x sorted).mem_iff.trans List.mem_cons

theorem pairwise_insert_back {after : α → α → Bool} {among : α → Prop} {before : α → α → Prop}
    (orders : Orders after among before) {x : α} {sorted : List α} (known : among x)
    (inside : ∀ y ∈ sorted, among y)
    (falling : sorted.Pairwise fun later earlier => before earlier later) :
    (insertBack after x sorted).Pairwise fun later earlier => before earlier later := by
  induction sorted with
  | nil => exact List.pairwise_singleton _ x
  | cons y rest ih =>
      have first := inside y List.mem_cons_self
      have others : ∀ z ∈ rest, among z := fun z member => inside z (List.mem_cons_of_mem y member)
      obtain ⟨top, below⟩ := List.pairwise_cons.1 falling
      unfold insertBack
      by_cases passes : after y x = true
      · rw [if_pos passes]
        refine List.pairwise_cons.2 ⟨?_, ih others below⟩
        intro z member
        rcases mem_insert_back.1 member with same | old
        · exact same ▸ orders.of_after x y known first passes
        · exact top z old
      · rw [if_neg passes]
        have stops := orders.of_not_after x y known first (Bool.not_eq_true _ ▸ passes)
        refine List.pairwise_cons.2 ⟨?_, falling⟩
        intro z member
        rcases List.mem_cons.1 member with same | old
        · exact same ▸ stops
        · exact orders.trans z y x (others z old) first known (top z old) stops

theorem pairwise_insert_all {after : α → α → Bool} {among : α → Prop} {before : α → α → Prop}
    (orders : Orders after among before) {sorted xs : List α} (known : ∀ x ∈ xs, among x)
    (inside : ∀ y ∈ sorted, among y)
    (falling : sorted.Pairwise fun later earlier => before earlier later) :
    (insertAll after sorted xs).Pairwise fun later earlier => before earlier later := by
  induction xs generalizing sorted with
  | nil => exact falling
  | cons x rest ih =>
      have first := known x List.mem_cons_self
      refine ih (fun y member => known y (List.mem_cons_of_mem x member)) ?_
        (pairwise_insert_back orders first inside falling)
      intro y member
      rcases mem_insert_back.1 member with same | old
      · exact same ▸ first
      · exact inside y old

theorem pairwise_sort_stable {after : α → α → Bool} {among : α → Prop} {before : α → α → Prop}
    (orders : Orders after among before) {xs : List α} (known : ∀ x ∈ xs, among x) :
    (sortStable after xs).Pairwise before := by
  rw [sortStable, List.pairwise_reverse]
  refine pairwise_insert_all orders known ?_ List.Pairwise.nil
  intro y member
  cases member

end Cadenza
