/-!
# Stable sorting

Each element moves left past the elements that come strictly after it, and no further. So elements
that the order does not tell apart keep the order they came in, and an element that compares with
nothing stays where it is and holds back what follows it.
-/

namespace Cadenza

set_option autoImplicit false

variable {α : Type}

/-- Puts `x` into a sorted list written backwards, before the first element that is not after
`x`. -/
def insertBack (after : α → α → Bool) (x : α) : List α → List α
  | [] => [x]
  | y :: rest => if after y x then y :: insertBack after x rest else x :: y :: rest

def insertAll (after : α → α → Bool) (sorted xs : List α) : List α :=
  xs.foldl (fun sorted x => insertBack after x sorted) sorted

/-- Sorts by inserting; `after y x` says that `y` belongs strictly after `x`. -/
def sortStable (after : α → α → Bool) (xs : List α) : List α :=
  (insertAll after [] xs).reverse

theorem perm_insert_back (after : α → α → Bool) (x : α) (sorted : List α) :
    (insertBack after x sorted).Perm (x :: sorted) := by
  induction sorted with
  | nil => exact List.Perm.refl _
  | cons y rest ih =>
      unfold insertBack
      split
      · exact (List.Perm.cons y ih).trans (List.Perm.swap x y rest)
      · exact List.Perm.refl _

theorem perm_insert_all (after : α → α → Bool) (sorted xs : List α) :
    (insertAll after sorted xs).Perm (xs ++ sorted) := by
  induction xs generalizing sorted with
  | nil => exact List.Perm.refl _
  | cons x rest ih =>
      exact (ih _).trans (((perm_insert_back after x sorted).append_left rest).trans
        List.perm_middle)

theorem perm_sort_stable (after : α → α → Bool) (xs : List α) :
    (sortStable after xs).Perm xs :=
  (List.reverse_perm _).trans ((perm_insert_all after [] xs).trans (by rw [List.append_nil]))

end Cadenza
