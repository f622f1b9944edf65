import Cadenza.Proofs.Sorting.Order

/-!
# Sorting some of the elements

Elements that are left out do not change the order of the others: picking from a sorted list gives
what sorting the picked elements gives, ties included. The test has to tell a weak order for this.
What is done to the elements without touching their order can be done before or after.
-/

namespace Cadenza

set_option autoImplicit false

variable {α β : Type}

/-- Among some elements, coming strictly after one another is a weak order. -/
structure WeakOrder (after : α → α → Bool) (among : α → Prop) : Prop where
  asymm : ∀ x y, among x → among y → after y x = true → after x y = false
  split : ∀ x y z, among x → among y → among z → after z x = true →
    after y x = true ∨ after z y = true

/-- Elements may stand as they are if the later one does not belong before the earlier one. -/
theorem WeakOrder.orders {after : α → α → Bool} {among : α → Prop} (weak : WeakOrder after among) :
    Orders after among fun earlier later => after earlier later = false where
  of_after := weak.asymm
  of_not_after _ _ _ _ stops := stops
  trans x y z first second third low high := by
    apply Bool.eq_false_iff.2
    intro passes
    rcases weak.split z y x third second first passes with wrong | wrong
    · rw [high] at wrong
      cases wrong
    · rw [low] at wrong
      cases wrong

theorem insert_back_of_not_after {after : α → α → Bool} {x : α} {sorted : List α}
    (stops : ∀ y ∈ sorted, after y x = false) : insertBack after x sorted = x :: sorted := by
  cases sorted with
  | nil => rfl
  | cons y rest => simp [insertBack, stops y List.mem_cons_self]

theorem insert_back_of_after {after : α → α → Bool} {x y : α} (passes : after y x = true)
    (rest : List α) : insertBack after x (y :: rest) = y :: insertBack after x rest := by
  simp only [insertBack, passes, if_true]

variable {after : α → α → Bool} {among : α → Prop}

/-- In a list that falls, an element that stops at its top stops at everything below. -/
theorem not_after_of_head (weak : WeakOrder after among) {x y z : α} {rest : List α}
    (known : among x) (inside : ∀ z ∈ y :: rest, among z)
    (falling : (y :: rest).Pairwise fun later earlier => after earlier later = false)
    (stops : after y x = false) (member : z ∈ y :: rest) : after z x = false := by
  rcases List.mem_cons.1 member with rfl | below
  · exact stops
  · exact weak.orders.trans z y x (inside z member) (inside y List.mem_cons_self) known
      ((List.pairwise_cons.1 falling).1 z below) stops

theorem filter_insert_back (weak : WeakOrder after among) (keep : α → Bool) {x : α}
    {sorted : List α} (known : among x) (inside : ∀ y ∈ sorted, among y)
    (falling : sorted.Pairwise fun later earlier => after earlier later = false) :
    (insertBack after x sorted).filter keep =
      if keep x then insertBack after x (sorted.filter keep) else sorted.filter keep := by
  induction sorted with
  | nil => cases kept : keep x <;> simp [insertBack, kept]
  | cons y rest ih =>
      have others : ∀ z ∈ rest, among z := fun z member => inside z (List.mem_cons_of_mem y member)
      have below := ih others (List.pairwise_cons.1 falling).2
      by_cases passes : after y x = true
      · rw [insert_back_of_after passes, List.filter_cons, List.filter_cons, below]
        cases kept : keep x <;> cases keep y <;> simp [insert_back_of_after passes]
      · have stops := Bool.eq_false_iff.2 passes
        have all : ∀ z ∈ y :: rest, after z x = false := fun z member =>
          not_after_of_head weak known inside falling stops member
        have picked : ∀ z ∈ (y :: rest).filter keep, after z x = false := fun z member =>
          all z (List.mem_filter.1 member).1
        rw [insert_back_of_not_after all, insert_back_of_not_after picked, List.filter_cons]

theorem filter_insert_all (weak : WeakOrder after among) (keep : α → Bool) {sorted xs : List α}
    (known : ∀ x ∈ xs, among x) (inside : ∀ y ∈ sorted, among y)
    (falling : sorted.Pairwise fun later earlier => after earlier later = false) :
    (insertAll after sorted xs).filter keep =
      insertAll after (sorted.filter keep) (xs.filter keep) := by
  induction xs generalizing sorted with
  | nil => rfl
  | cons x rest ih =>
      have first := known x List.mem_cons_self
      have others : ∀ y ∈ rest, among y := fun y member => known y (List.mem_cons_of_mem x member)
      have grown : ∀ y ∈ insertBack after x sorted, among y := by
        intro y member
        rcases mem_insert_back.1 member with rfl | old
        · exact first
        · exact inside y old
      have still := pairwise_insert_back weak.orders first inside falling
      change (insertAll after (insertBack after x sorted) rest).filter keep = _
      rw [ih others grown still, filter_insert_back weak keep first inside falling,
        List.filter_cons]
      cases keep x <;> rfl

theorem filter_sort_stable (weak : WeakOrder after among) (keep : α → Bool) {xs : List α}
    (known : ∀ x ∈ xs, among x) :
    (sortStable after xs).filter keep = sortStable after (xs.filter keep) := by
  have none : ∀ y ∈ ([] : List α), among y := by
    intro y member
    cases member
  rw [sortStable, sortStable, List.filter_reverse,
    filter_insert_all weak keep known none List.Pairwise.nil, List.filter_nil]

theorem sort_stable_of_in_order {xs : List α}
    (inOrder : xs.Pairwise fun earlier later => after earlier later = false) :
    sortStable after xs = xs := by
  have inserted : ∀ sorted : List α, (∀ y ∈ sorted, ∀ x ∈ xs, after y x = false) →
      insertAll after sorted xs = xs.reverse ++ sorted := by
    induction xs with
    | nil => exact fun _ _ => rfl
    | cons x rest ih =>
        intro sorted below
        obtain ⟨first, others⟩ := List.pairwise_cons.1 inOrder
        have top : insertBack after x sorted = x :: sorted :=
          insert_back_of_not_after fun y member => below y member x List.mem_cons_self
        change insertAll after (insertBack after x sorted) rest = _
        rw [top, ih others, List.reverse_cons, List.append_assoc, List.singleton_append]
        intro y member z later
        rcases List.mem_cons.1 member with rfl | old
        · exact first z later
        · exact below y old z (List.mem_cons_of_mem x later)
  rw [sortStable, inserted [] (fun y member => by cases member), List.append_nil,
    List.reverse_reverse]

section First

variable {xs rest : List α} {x : α}

/-- The first of the sorted elements comes after none. -/
theorem not_after_of_sorted (weak : WeakOrder after among) (known : ∀ y ∈ xs, among y)
    (sorted : sortStable after xs = x :: rest) : x ∈ xs ∧ ∀ y ∈ xs, after x y = false := by
  have same : ∀ y, y ∈ xs ↔ y ∈ x :: rest := fun y =>
    sorted ▸ (perm_sort_stable after xs).mem_iff.symm
  have inside : x ∈ xs := (same x).2 List.mem_cons_self
  have ordered := pairwise_sort_stable weak.orders known
  rw [sorted] at ordered
  refine ⟨inside, fun y member => ?_⟩
  rcases List.mem_cons.1 ((same y).1 member) with rfl | later
  · apply Bool.eq_false_iff.2
    intro itself
    rw [weak.asymm y y (known y inside) (known y inside) itself] at itself
    cases itself
  · exact (List.pairwise_cons.1 ordered).1 y later

/-- Elements that do not come after one that comes after none are not told apart. -/
theorem in_order_of_ties (weak : WeakOrder after among) (known : ∀ y ∈ xs, among y)
    (inside : x ∈ xs) (least : ∀ y ∈ xs, after x y = false) :
    (xs.filter fun y => !after y x).Pairwise fun earlier later => after earlier later = false := by
  apply List.pairwise_of_forall_mem_list
  intro y yIn z zIn
  obtain ⟨yInside, yStops⟩ := List.mem_filter.1 yIn
  have zInside := (List.mem_filter.1 zIn).1
  apply Bool.eq_false_iff.2
  intro passes
  rcases weak.split z x y (known z zInside) (known x inside) (known y yInside) passes with
    wrong | wrong
  · rw [least z zInside] at wrong
    cases wrong
  · rw [wrong] at yStops
    cases yStops

/-- Where the first of the sorted elements came from: all that stood before it come strictly after
it, and it comes strictly after none. -/
theorem head_sort_stable (weak : WeakOrder after among) (known : ∀ y ∈ xs, among y)
    (sorted : sortStable after xs = x :: rest) :
    ∃ front back, xs = front ++ x :: back ∧ (∀ y ∈ front, after y x = true) ∧
      ∀ y ∈ back, after x y = false := by
  obtain ⟨inside, least⟩ := not_after_of_sorted weak known sorted
  -- Sorting the elements that tie with the first one changes nothing, so it is the first of them.
  have ties := sort_stable_of_in_order (in_order_of_ties weak known inside least)
  have first : (xs.filter fun y => !after y x) = x :: rest.filter fun y => !after y x := by
    rw [← ties, ← filter_sort_stable weak _ known, sorted, List.filter_cons_of_pos]
    rw [least x inside]
    rfl
  obtain ⟨front, back, rfl, skipped, _, _⟩ := List.filter_eq_cons_iff.1 first
  refine ⟨front, back, rfl, fun y member => by simpa using skipped y member, ?_⟩
  intro y member
  exact least y (List.mem_append_right front (List.mem_cons_of_mem x member))

end First

section Mapping

variable {f : α → β} {afterMapped : β → β → Bool}

theorem map_insert_back (same : ∀ x y, afterMapped (f y) (f x) = after y x) (x : α)
    (sorted : List α) :
    (insertBack after x sorted).map f = insertBack afterMapped (f x) (sorted.map f) := by
  induction sorted with
  | nil => rfl
  | cons y rest ih =>
      simp only [insertBack, List.map_cons, same]
      split <;> simp [ih]

theorem map_sort_stable (same : ∀ x y, afterMapped (f y) (f x) = after y x) (xs : List α) :
    (sortStable after xs).map f = sortStable afterMapped (xs.map f) := by
  have inserted : ∀ sorted : List α,
      (insertAll after sorted xs).map f = insertAll afterMapped (sorted.map f) (xs.map f) := by
    induction xs with
    | nil => exact fun _ => rfl
    | cons x rest ih =>
        intro sorted
        change (insertAll after (insertBack after x sorted) rest).map f = _
        rw [ih, map_insert_back same]
        rfl
  rw [sortStable, sortStable, List.map_reverse, inserted, List.map_nil]

end Mapping

end Cadenza
