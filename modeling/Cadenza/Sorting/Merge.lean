import Cadenza.Sorting

/-!
# Merging sorted lists

Two sorted lists are merged along the shorter one, or from both ends at once up to the middle. If
the two ends meet, every element was taken once. If they do not, the comparisons contradict each
other, and there is no merged list. Main statement: what is merged is what was there.
-/

namespace Cadenza.Sorting

set_option autoImplicit false

variable {α : Type}

/-- Merges from the front if the left list is not the longer one, else from the back. -/
def merge (after : α → α → Bool) (left right : List α) : List α :=
  if left.length ≤ right.length then left.merge right fun l r => !after l r
  else (left.reverse.merge right.reverse after).reverse

theorem perm_merge (after : α → α → Bool) (left right : List α) :
    (merge after left right).Perm (left ++ right) := by
  unfold merge
  split
  · exact List.merge_perm_append _
  · exact (List.reverse_perm _).trans ((List.merge_perm_append _).trans
      ((List.reverse_perm left).append (List.reverse_perm right)))

/-- The first `count` elements of a merge, and how many of them are from the left list. -/
def draw (fromLeft : α → α → Bool) : Nat → List α → List α → List α × Nat
  | count + 1, l :: left, r :: right =>
      if fromLeft l r then
        let (drawn, ofLeft) := draw fromLeft count left (r :: right)
        (l :: drawn, ofLeft + 1)
      else
        let (drawn, ofLeft) := draw fromLeft count (l :: left) right
        (r :: drawn, ofLeft)
  | _, _, _ => ([], 0)

theorem draw_of_left_le (fromLeft : α → α → Bool) (count : Nat) (left right : List α) :
    (draw fromLeft count left right).2 ≤ count := by
  fun_induction draw fromLeft count left right <;> grind

/-- What is drawn from lists that are long enough are elements from the front of both. -/
theorem perm_draw (fromLeft : α → α → Bool) (count : Nat) (left right : List α)
    (onLeft : count ≤ left.length) (onRight : count ≤ right.length) :
    (draw fromLeft count left right).1.Perm
      (left.take (draw fromLeft count left right).2 ++
        right.take (count - (draw fromLeft count left right).2)) := by
  fun_induction draw fromLeft count left right with
  | case1 count l left r right taken drawn ofLeft found ih =>
      have inner := ih (by simpa using onLeft) (by simp at onRight ⊢; omega)
      have bound := draw_of_left_le fromLeft count left (r :: right)
      simp only [found] at inner bound
      rw [List.take_succ_cons, List.cons_append, Nat.succ_sub_succ]
      exact inner.cons l
  | case2 count l left r right taken drawn ofLeft found ih =>
      have inner := ih (by simp at onLeft ⊢; omega) (by simpa using onRight)
      have bound := draw_of_left_le fromLeft count (l :: left) right
      simp only [found] at inner bound
      rw [Nat.succ_sub bound, List.take_succ_cons]
      exact (inner.cons r).trans List.perm_middle.symm
  | case3 count left right short =>
      cases count with
      | zero => simp
      | succ count =>
          cases left with
          | nil => simp at onLeft
          | cons l left =>
              cases right with
              | nil => simp at onRight
              | cons r right => exact absurd rfl (short count l left r right rfl rfl)

/-- Merges from both ends as many elements as the left list has, which is not the longer one, and
puts what nobody took between them. Nothing, if an element was taken twice or too many were left. -/
def mergeBoth? (after : α → α → Bool) (left right : List α) : Option (List α) :=
  let count := left.length
  let (front, low) := draw (fun l r => !after l r) count left right
  let (back, high) := draw after count left.reverse right.reverse
  let ofLeft := count - (low + high)
  let spare := right.length - count
  if low + high ≤ count ∧ ofLeft ≤ spare then
    some (front ++ (left.drop low).take ofLeft ++ (right.drop (count - low)).take (spare - ofLeft) ++
      back.reverse)
  else none

/-- A list is its front, its middle and its back. -/
theorem perm_three_parts (xs : List α) (low high : Nat) (fits : low + high ≤ xs.length) :
    (xs.take low ++ (xs.drop low).take (xs.length - (low + high)) ++
      (xs.reverse.take high).reverse) = xs := by
  rw [List.reverse_take, List.reverse_reverse, List.length_reverse, List.append_assoc]
  have back : xs.drop (xs.length - high) = (xs.drop low).drop (xs.length - (low + high)) := by
    rw [List.drop_drop]
    congr 1
    omega
  rw [back, List.take_append_drop, List.take_append_drop]

theorem perm_merge_both {after : α → α → Bool} {left right merged : List α}
    (notLonger : left.length ≤ right.length) (h : mergeBoth? after left right = some merged) :
    merged.Perm (left ++ right) := by
  have front := perm_draw (fun l r => !after l r) left.length left right (Nat.le_refl _) notLonger
  have back := perm_draw after left.length left.reverse right.reverse (by simp) (by simpa)
  have lowBound := draw_of_left_le (fun l r => !after l r) left.length left right
  have highBound := draw_of_left_le after left.length left.reverse right.reverse
  simp only [mergeBoth?] at h
  generalize draw (fun l r => !after l r) left.length left right = drawnFront at *
  generalize draw after left.length left.reverse right.reverse = drawnBack at *
  obtain ⟨frontItems, low⟩ := drawnFront
  obtain ⟨backItems, high⟩ := drawnBack
  simp only at front back lowBound highBound h
  split at h
  · rename_i met
    obtain rfl := Option.some.inj h
    have leftParts := perm_three_parts left low high met.1
    have rightParts := perm_three_parts right (left.length - low) (left.length - high) (by omega)
    have middle : right.length - (left.length - low + (left.length - high)) =
        right.length - left.length - (left.length - (low + high)) := by omega
    rw [middle] at rightParts
    classical
    refine List.perm_iff_count.2 fun x => ?_
    have ofFront := front.count_eq x
    have ofBack := back.count_eq x
    have ofLeft := congrArg (List.count x) leftParts
    have ofRight := congrArg (List.count x) rightParts
    simp only [List.count_append, List.count_reverse] at *
    omega
  · simp at h

def joinPairs (after : α → α → Bool) (a b c d : α) : List α :=
  match after a c, after b d with
  | false, false => if after b c then [a, c, b, d] else [a, b, c, d]
  | false, true => if after c d then [a, d, c, b] else [a, c, d, b]
  | true, false => if after a b then [c, b, a, d] else [c, a, b, d]
  | true, true => if after a d then [c, d, a, b] else [c, a, d, b]

def sortFour (after : α → α → Bool) (a b c d : α) : List α :=
  match after a b, after c d with
  | false, false => joinPairs after a b c d
  | false, true => joinPairs after a b d c
  | true, false => joinPairs after b a c d
  | true, true => joinPairs after b a d c

theorem perm_join_pairs (after : α → α → Bool) (a b c d : α) :
    (joinPairs after a b c d).Perm [a, b, c, d] := by
  classical
  refine List.perm_iff_count.2 fun x => ?_
  unfold joinPairs
  split <;> split <;> simp only [List.count_cons, List.count_nil] <;> omega

theorem perm_sort_four (after : α → α → Bool) (a b c d : α) :
    (sortFour after a b c d).Perm [a, b, c, d] := by
  unfold sortFour
  split
  · exact perm_join_pairs after a b c d
  · exact (perm_join_pairs after a b d c).trans ((List.Perm.swap c d []).append_left [a, b])
  · exact (perm_join_pairs after b a c d).trans (List.Perm.swap a b [c, d])
  · exact (perm_join_pairs after b a d c).trans
      ((List.Perm.swap a b [d, c]).trans ((List.Perm.swap c d []).append_left [a, b]))

/-- Sorts one of the halves: the first four at once if that is asked for, the others by inserting
them. -/
def sortHalf (after : α → α → Bool) (four : Bool) (xs : List α) : List α :=
  match four, xs with
  | true, a :: b :: c :: d :: rest =>
      (insertAll after (sortFour after a b c d).reverse rest).reverse
  | _, xs => sortStable after xs

theorem perm_sort_half (after : α → α → Bool) (four : Bool) (xs : List α) :
    (sortHalf after four xs).Perm xs := by
  unfold sortHalf
  split
  · rename_i a b c d rest
    have sorted := (List.reverse_perm _).trans (perm_sort_four after a b c d)
    exact (List.reverse_perm _).trans ((perm_insert_all after _ rest).trans
      ((sorted.append_left rest).trans List.perm_append_comm))
  · exact perm_sort_stable after xs

def shortLength : Nat := 32

def sortShort? (after : α → α → Bool) (xs : List α) : Option (List α) :=
  let half := xs.length / 2
  let four := decide (8 ≤ xs.length)
  mergeBoth? after (sortHalf after four (xs.take half)) (sortHalf after four (xs.drop half))

theorem perm_sort_short {after : α → α → Bool} {xs sorted : List α}
    (h : sortShort? after xs = some sorted) : sorted.Perm xs := by
  have left := perm_sort_half after (decide (8 ≤ xs.length)) (xs.take (xs.length / 2))
  have right := perm_sort_half after (decide (8 ≤ xs.length)) (xs.drop (xs.length / 2))
  have notLonger : (sortHalf after (decide (8 ≤ xs.length)) (xs.take (xs.length / 2))).length ≤
      (sortHalf after (decide (8 ≤ xs.length)) (xs.drop (xs.length / 2))).length := by
    rw [left.length_eq, right.length_eq, List.length_take, List.length_drop]
    omega
  have merged := perm_merge_both notLonger h
  simpa using merged.trans (left.append right)

end Cadenza.Sorting
