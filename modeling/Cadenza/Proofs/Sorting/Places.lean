import Cadenza.Proofs.Sorting.Filtering

/-!
# The stable order

Elements that the order does not tell apart are told apart by their places in the list they come
from. So there is one list only that is in order and keeps what ties as it was, and sorting by
insertion finds it.
-/

namespace Cadenza

set_option autoImplicit false

variable {α : Type}

/-- Of two elements with their places the later one belongs strictly after the earlier one, or the
earlier one does not and has the lower place. -/
def ByPlace (after : α → α → Bool) (earlier later : α × Nat) : Prop :=
  after later.1 earlier.1 = true ∨ after earlier.1 later.1 = false ∧ earlier.2 < later.2

/-- `sorted` holds the elements of `xs` in order, those that are not told apart in the order in
which `xs` has them. -/
def StablyOrders (after : α → α → Bool) (xs sorted : List α) : Prop :=
  ∃ placed : List (α × Nat), placed.Perm xs.zipIdx ∧ placed.map Prod.fst = sorted ∧
    placed.Pairwise (ByPlace after)

variable {after : α → α → Bool} {among : α → Prop} {xs sorted : List α}

theorem rising_places (xs : List α) :
    xs.zipIdx.Pairwise fun earlier later => earlier.2 < later.2 := by
  apply List.pairwise_map.1
  rw [List.zipIdx_map_snd]
  exact List.pairwise_lt_range' 1

theorem WeakOrder.with_places (weak : WeakOrder after among) :
    WeakOrder (fun y x : α × Nat => after y.1 x.1) fun x => among x.1 where
  asymm x y := weak.asymm x.1 y.1
  split x y z := weak.split x.1 y.1 z.1

theorem among_of_mem_places (known : ∀ x ∈ xs, among x) : ∀ x ∈ xs.zipIdx, among x.1 := by
  intro x member
  exact known x.1 (List.fst_mem_of_mem_zipIdx member)

/-- Elements that tie with one element tie with each other, so sorting leaves them as they are. -/
theorem sort_stable_of_ties (weak : WeakOrder after among) {x : α} (here : among x)
    (known : ∀ y ∈ xs, among y) (ties : ∀ y ∈ xs, after y x = false ∧ after x y = false) :
    sortStable after xs = xs := by
  apply sort_stable_of_in_order
  apply List.pairwise_of_forall_mem_list
  intro y yIn z zIn
  apply Bool.eq_false_iff.2
  intro passes
  rcases weak.split z x y (known z zIn) here (known y yIn) passes with wrong | wrong
  · rw [(ties z zIn).2] at wrong
    cases wrong
  · rw [(ties y yIn).1] at wrong
    cases wrong

theorem by_place_sort_stable (weak : WeakOrder after among) (known : ∀ x ∈ xs, among x) :
    (sortStable (fun y x : α × Nat => after y.1 x.1) xs.zipIdx).Pairwise (ByPlace after) := by
  have inside := among_of_mem_places known
  have inOrder := pairwise_sort_stable weak.with_places.orders inside
  have same : ∀ x, x ∈ sortStable (fun y x : α × Nat => after y.1 x.1) xs.zipIdx ↔ x ∈ xs.zipIdx :=
    fun x => (perm_sort_stable _ _).mem_iff
  apply List.pairwise_iff_forall_sublist.2
  intro x y both
  have stands : after x.1 y.1 = false := List.pairwise_iff_forall_sublist.1 inOrder both
  by_cases passes : after y.1 x.1 = true
  · exact Or.inl passes
  · -- Both are among what ties with `x`, which sorting does not touch.
    let tied : α × Nat → Bool := fun z => !after z.1 x.1 && !after x.1 z.1
    have here : x ∈ xs.zipIdx := (same x).1 (both.subset List.mem_cons_self)
    have own := inside x here
    have itself : after x.1 x.1 = false := by
      apply Bool.eq_false_iff.2
      intro twice
      rw [weak.asymm x.1 x.1 own own twice] at twice
      cases twice
    have kept : [x, y].filter tied = [x, y] := by
      simp [tied, itself, stands, passes]
    have untouched : (sortStable (fun y x : α × Nat => after y.1 x.1) xs.zipIdx).filter tied =
        xs.zipIdx.filter tied := by
      rw [filter_sort_stable weak.with_places tied inside]
      apply sort_stable_of_ties weak.with_places own
      · exact fun z member => inside z (List.mem_filter.1 member).1
      · intro z member
        simpa [tied] using (List.mem_filter.1 member).2
    have listed : [x, y].Sublist (xs.zipIdx.filter tied) := by
      rw [← kept, ← untouched]
      exact both.filter tied
    have lower : x.2 < y.2 := List.pairwise_iff_forall_sublist.1 (rising_places xs)
      (listed.trans List.filter_sublist)
    exact Or.inr ⟨stands, lower⟩

theorem by_place_asymm (weak : WeakOrder after among) {x y : α × Nat} (first : among x.1)
    (second : among y.1) (forth : ByPlace after x y) : ¬ ByPlace after y x := by
  rintro (back | ⟨stands, higher⟩)
  · rcases forth with later | ⟨wrong, _⟩
    · rw [weak.asymm x.1 y.1 first second later] at back
      cases back
    · rw [wrong] at back
      cases back
  · rcases forth with later | ⟨_, lower⟩
    · rw [stands] at later
      cases later
    · omega

/-- There is one stable order only, and sorting gives it. -/
theorem stably_orders_iff (weak : WeakOrder after among) (known : ∀ x ∈ xs, among x) :
    StablyOrders after xs sorted ↔ sorted = sortStable after xs := by
  let placed := sortStable (fun y x : α × Nat => after y.1 x.1) xs.zipIdx
  have perm : placed.Perm xs.zipIdx := perm_sort_stable _ _
  have plain : placed.map Prod.fst = sortStable after xs := by
    have sorts : placed.map Prod.fst = sortStable after (xs.zipIdx.map Prod.fst) :=
      map_sort_stable (fun _ _ => rfl) xs.zipIdx
    rwa [List.zipIdx_map_fst] at sorts
  have byPlace : placed.Pairwise (ByPlace after) := by_place_sort_stable weak known
  constructor
  · rintro ⟨other, same, rfl, others⟩
    have inside := among_of_mem_places known
    have equal : other = placed := by
      apply List.Perm.eq_of_pairwise _ others byPlace (same.trans perm.symm)
      intro x y xIn yIn forth back
      have first := inside x (same.mem_iff.1 xIn)
      have second := inside y (perm.mem_iff.1 yIn)
      exact absurd back (by_place_asymm weak first second forth)
    rw [equal, plain]
  · rintro rfl
    exact ⟨placed, perm, plain, byPlace⟩

end Cadenza
