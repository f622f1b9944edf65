import Cadenza.Sorting.Runs

/-!
# Sorting by a pivot

A list is parted into what comes before a pivot and what does not, and both parts are sorted in the
same way. A part whose least element is known to be its pivot is parted into what is not after the
pivot, which is in order, and the rest. When the list has been parted too often it is sorted by
runs. A long list that is not in long runs is sorted like this. Main statement: a long list that can
be sorted keeps its elements.
-/

namespace Cadenza.Sorting

set_option autoImplicit false

variable {α : Type}

def median (after : α → α → Bool) (a b c : α × Nat) : α × Nat :=
  if after b.1 a.1 = after c.1 a.1 then if after c.1 b.1 = after b.1 a.1 then b else c else a

/-- The pivot of the first `size` elements of a block: the median of pivots of three eighths of it,
at the start, in the middle and at the end. An eighth that is shorter than one element is the start
of the block alone. -/
def pivot? (after : α → α → Bool) (size : Nat) (block : List (α × Nat)) : Option (α × Nat) :=
  if 8 ≤ size then
    let eighth := size / 8
    (pivot? after eighth block).bind fun first =>
      (pivot? after eighth (block.drop (4 * eighth))).bind fun middle =>
        (pivot? after eighth (block.drop (7 * eighth))).map fun last =>
          median after first middle last
  else block.head?
termination_by size
decreasing_by all_goals omega

/-- Parts a list in two that keep its order. The element at `place` does not decide for itself. -/
def partAt (goesLeft : α → Bool) (place : Nat) (pivotLeft : Bool) (xs : List α) :
    List α × List α :=
  let parts := xs.zipIdx.partition fun (x, position) =>
    if position = place then pivotLeft else goesLeft x
  (parts.1.map Prod.fst, parts.2.map Prod.fst)

theorem perm_part_at (goesLeft : α → Bool) (place : Nat) (pivotLeft : Bool) (xs : List α) :
    ((partAt goesLeft place pivotLeft xs).1 ++ (partAt goesLeft place pivotLeft xs).2).Perm xs := by
  simp only [partAt, List.partition_eq_filter_filter]
  rw [← List.map_append]
  have whole := (List.filter_append_perm (fun (x, position) =>
    if position = place then pivotLeft else goesLeft x) xs.zipIdx).map Prod.fst
  rwa [List.zipIdx_map_fst] at whole

/-- Sorts by parting at most `limit` times in a row. The `ancestor` is the pivot that all of the
list is known not to come before; nothing comes between it and a pivot that is not after it. -/
def sortParted? (after : α → α → Bool) : Nat → Option α → List α → Option (List α)
  | limit, ancestor, xs =>
    if xs.length ≤ shortLength then sortShort? after xs
    else
      match limit with
      | 0 => sortEagerly? after xs
      | limit + 1 =>
          (pivot? after xs.length xs.zipIdx).bind fun (p, place) =>
            let (below, others) := partAt (fun x => after p x) place false xs
            if ancestor.any (fun a => !after p a) || below.isEmpty then
              let (same, above) := partAt (fun x => !after x p) place true xs
              (sortParted? after limit none above).map (same ++ ·)
            else
              (sortParted? after limit ancestor below).bind fun first =>
                (sortParted? after limit (some p) others).map (first ++ ·)

theorem perm_sort_parted {after : α → α → Bool} {limit : Nat} {ancestor : Option α}
    {xs sorted : List α} (h : sortParted? after limit ancestor xs = some sorted) :
    sorted.Perm xs := by
  induction limit generalizing ancestor xs sorted with
  | zero =>
      unfold sortParted? at h
      split at h
      · exact perm_sort_short h
      · exact perm_sort_eagerly h
  | succ limit ih =>
      unfold sortParted? at h
      split at h
      · exact perm_sort_short h
      · obtain ⟨⟨p, place⟩, _, parted⟩ := Option.bind_eq_some_iff.1 h
        simp only at parted
        split at parted
        · obtain ⟨above, sortedAbove, rfl⟩ := Option.map_eq_some_iff.1 parted
          exact ((ih sortedAbove).append_left _).trans (perm_part_at _ place true xs)
        · obtain ⟨first, sortedFirst, later⟩ := Option.bind_eq_some_iff.1 parted
          obtain ⟨second, sortedSecond, rfl⟩ := Option.map_eq_some_iff.1 later
          exact ((ih sortedFirst).append (ih sortedSecond)).trans (perm_part_at _ place false xs)

def sortLater? (after : α → α → Bool) (xs : List α) : Option (List α) :=
  sortParted? after (2 * xs.length.log2) none xs

/-- The greatest length of a list whose runs are sorted as soon as they are cut. -/
def eagerLength : Nat := 64

/-- Sorts a long list stably; `after y x` says that `y` belongs strictly after `x`. Nothing, if
comparisons contradict each other and this is noticed. -/
def sortLong? (after : α → α → Bool) (xs : List α) : Option (List α) :=
  if xs.length ≤ eagerLength then sortEagerly? after xs
  else
    (cutRuns? after (goodLength xs.length) false xs).bind
      (joinRuns? after (sortLater? after) xs.length)

theorem perm_sort_long {after : α → α → Bool} {xs sorted : List α}
    (h : sortLong? after xs = some sorted) : sorted.Perm xs := by
  unfold sortLong? at h
  split at h
  · exact perm_sort_eagerly h
  · obtain ⟨runs, cut, joined⟩ := Option.bind_eq_some_iff.1 h
    exact (perm_join_runs (fun _ _ => perm_sort_parted) joined).trans (perm_cut_runs cut)

end Cadenza.Sorting
