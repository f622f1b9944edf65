import Cadenza.Sorting.Merge

/-!
# Sorting by runs

A list is cut into runs. A long stretch that already rises or falls is a sorted run; what lies
between is cut into pieces, which are sorted at once or left for later. Neighbouring runs are then
joined in a tree that is balanced by their lengths: the border nearest to the middle of the list is
the last to go. Main statement: the runs, and their join, hold what the list holds.
-/

namespace Cadenza.Sorting

set_option autoImplicit false

variable {α : Type}

/-- A piece of a list, and whether it is sorted already. -/
structure Run (α : Type) where
  items : List α
  sorted : Bool

def stretch (after : α → α → Bool) (falls : Bool) (previous : α) : List α → Nat
  | [] => 0
  | x :: rest => if after previous x = falls then stretch after falls x rest + 1 else 0

/-- Whether a list strictly falls at its start, and the length of the stretch there. -/
def opening (after : α → α → Bool) : List α → Bool × Nat
  | x :: y :: rest =>
      let falls := after x y
      (falls, stretch after falls y rest + 2)
  | xs => (false, xs.length)

/-- The least length of a stretch that is worth a run of its own: half of a short list, 64 in a
longer one, and about the square root of a very long one. -/
def goodLength (count : Nat) : Nat :=
  if count ≤ 64 * 64 then min (count - count / 2) 64
  else
    let shift := (1 + count.log2) / 2
    ((1 <<< shift) + (count >>> shift)) / 2

/-- The length of the run at the start of a list; one without a good stretch there takes a short
piece if `eager`, else as much as a good stretch would take. -/
def runLength (after : α → α → Bool) (good : Nat) (eager : Bool) (xs : List α) : Nat :=
  let natural := (opening after xs).2
  if good ≤ natural then natural else if eager then shortLength else max good 1

/-- The run at the start of a list. A good stretch that falls is turned around; a piece without one
is sorted at once if `eager`. -/
def firstRun? (after : α → α → Bool) (good : Nat) (eager : Bool) (xs : List α) :
    Option (Run α) :=
  let items := xs.take (runLength after good eager xs)
  if good ≤ (opening after xs).2 then
    some ⟨if (opening after xs).1 then items.reverse else items, true⟩
  else if eager then (sortShort? after items).map fun sorted => ⟨sorted, true⟩
  else some ⟨items, false⟩

theorem run_length_pos (after : α → α → Bool) (good : Nat) (eager : Bool) (x : α)
    (rest : List α) : 1 ≤ runLength after good eager (x :: rest) := by
  have natural : 1 ≤ (opening after (x :: rest)).2 := by
    cases rest <;> simp [opening]
  unfold runLength shortLength
  grind

theorem perm_first_run {after : α → α → Bool} {good : Nat} {eager : Bool} {xs : List α}
    {run : Run α} (h : firstRun? after good eager xs = some run) :
    run.items.Perm (xs.take (runLength after good eager xs)) := by
  unfold firstRun? at h
  split at h
  · obtain rfl := Option.some.inj h
    simp only
    split
    · exact List.reverse_perm _
    · exact List.Perm.refl _
  · split at h
    · obtain ⟨sorted, short, rfl⟩ := Option.map_eq_some_iff.1 h
      exact perm_sort_short short
    · obtain rfl := Option.some.inj h
      exact List.Perm.refl _

def cutRuns? (after : α → α → Bool) (good : Nat) (eager : Bool) : List α → Option (List (Run α))
  | [] => some []
  | x :: rest =>
      (firstRun? after good eager (x :: rest)).bind fun run =>
        (cutRuns? after good eager
          (rest.drop (runLength after good eager (x :: rest) - 1))).map (run :: ·)
termination_by xs => xs.length
decreasing_by
  simp only [List.length_cons, List.length_drop]
  omega

theorem perm_cut_runs {after : α → α → Bool} {good : Nat} {eager : Bool} {xs : List α}
    {runs : List (Run α)} (h : cutRuns? after good eager xs = some runs) :
    (runs.flatMap Run.items).Perm xs := by
  fun_induction cutRuns? after good eager xs generalizing runs with
  | case1 =>
      obtain rfl := Option.some.inj h
      exact List.Perm.refl _
  | case2 x rest ih =>
      obtain ⟨run, made, cut⟩ := Option.bind_eq_some_iff.1 h
      obtain ⟨later, cutLater, rfl⟩ := Option.map_eq_some_iff.1 cut
      have parts : (x :: rest).take (runLength after good eager (x :: rest)) ++
          rest.drop (runLength after good eager (x :: rest) - 1) = x :: rest := by
        have positive := run_length_pos after good eager x rest
        generalize runLength after good eager (x :: rest) = length at *
        cases length with
        | zero => omega
        | succ length => simp
      rw [List.flatMap_cons]
      exact ((perm_first_run made).append (ih cutLater)).trans (.of_eq parts)

def Run.settle? (sort? : List α → Option (List α)) (run : Run α) : Option (List α) :=
  if run.sorted then some run.items else sort? run.items

/-- Joins neighbours. Two runs that are not sorted are put one after the other; else both are sorted
and merged. -/
def Run.join? (after : α → α → Bool) (sort? : List α → Option (List α)) (left right : Run α) :
    Option (Run α) :=
  if left.sorted || right.sorted then
    (left.settle? sort?).bind fun first =>
      (right.settle? sort?).map fun second => ⟨merge after first second, true⟩
  else some ⟨left.items ++ right.items, false⟩

theorem perm_settle {sort? : List α → Option (List α)}
    (keeps : ∀ xs sorted, sort? xs = some sorted → sorted.Perm xs) {run : Run α}
    {items : List α} (h : run.settle? sort? = some items) : items.Perm run.items := by
  unfold Run.settle? at h
  split at h
  · exact Option.some.inj h ▸ List.Perm.refl _
  · exact keeps _ _ h

theorem perm_join {after : α → α → Bool} {sort? : List α → Option (List α)}
    (keeps : ∀ xs sorted, sort? xs = some sorted → sorted.Perm xs) {left right joined : Run α}
    (h : left.join? after sort? right = some joined) :
    joined.items.Perm (left.items ++ right.items) := by
  unfold Run.join? at h
  split at h
  · obtain ⟨first, ofLeft, made⟩ := Option.bind_eq_some_iff.1 h
    obtain ⟨second, ofRight, rfl⟩ := Option.map_eq_some_iff.1 made
    exact (perm_merge after first second).trans
      ((perm_settle keeps ofLeft).append (perm_settle keeps ofRight))
  · exact Option.some.inj h ▸ List.Perm.refl _

/-- How deep in the tree of joins the border at `middle` lies, between runs from `first` and up to
`last` of a list of `count` elements: the number of leading binary digits that the middles of the
two runs, as fractions of the list, have in common. -/
def borderDepth (count first middle last : Nat) : Nat :=
  let scale := ((1 <<< 62) + count - 1) / count
  let difference := (scale * (first + middle)) ^^^ (scale * (middle + last))
  if difference = 0 then 64 else 63 - difference.log2

/-- Joins a run with those before it, the nearest first, whose border to their right neighbour is not
less deep than `depth`. -/
def joinDeeper? (after : α → α → Bool) (sort? : List α → Option (List α)) (depth : Nat) :
    List (Run α × Nat) → Run α → Option (Run α × List (Run α × Nat))
  | [], run => some (run, [])
  | (left, border) :: waiting, run =>
      if depth ≤ border then
        (left.join? after sort? run).bind (joinDeeper? after sort? depth waiting)
      else some (run, (left, border) :: waiting)

theorem perm_join_deeper {after : α → α → Bool} {sort? : List α → Option (List α)}
    (keeps : ∀ xs sorted, sort? xs = some sorted → sorted.Perm xs) {depth : Nat}
    {waiting others : List (Run α × Nat)} {run joined : Run α}
    (h : joinDeeper? after sort? depth waiting run = some (joined, others)) :
    (joined.items ++ others.flatMap (·.1.items)).Perm
      (run.items ++ waiting.flatMap (·.1.items)) := by
  induction waiting generalizing run with
  | nil =>
      obtain ⟨rfl, rfl⟩ := Prod.mk.inj (Option.some.inj h)
      exact List.Perm.refl _
  | cons next waiting ih =>
      obtain ⟨left, border⟩ := next
      unfold joinDeeper? at h
      split at h
      · obtain ⟨both, made, deeper⟩ := Option.bind_eq_some_iff.1 h
        refine (ih deeper).trans (((perm_join keeps made).append_right _).trans ?_)
        simp only [List.flatMap_cons, ← List.append_assoc]
        exact List.perm_append_comm.append_right _
      · obtain ⟨rfl, rfl⟩ := Prod.mk.inj (Option.some.inj h)
        exact List.Perm.refl _

def joinAll? (after : α → α → Bool) (sort? : List α → Option (List α)) :
    List (Run α × Nat) → Run α → Option (Run α)
  | [], run => some run
  | (left, _) :: waiting, run =>
      (left.join? after sort? run).bind (joinAll? after sort? waiting)

theorem perm_join_all {after : α → α → Bool} {sort? : List α → Option (List α)}
    (keeps : ∀ xs sorted, sort? xs = some sorted → sorted.Perm xs)
    {waiting : List (Run α × Nat)} {run whole : Run α}
    (h : joinAll? after sort? waiting run = some whole) :
    whole.items.Perm (run.items ++ waiting.flatMap (·.1.items)) := by
  induction waiting generalizing run with
  | nil => exact Option.some.inj h ▸ (by simp)
  | cons next waiting ih =>
      obtain ⟨both, made, deeper⟩ := Option.bind_eq_some_iff.1 h
      refine (ih deeper).trans (((perm_join keeps made).append_right _).trans ?_)
      simp only [List.flatMap_cons, ← List.append_assoc]
      exact List.perm_append_comm.append_right _

/-- Joins the run from `first` with the runs that wait before it and with those that follow. -/
def joinFrom? (after : α → α → Bool) (sort? : List α → Option (List α)) (count : Nat) :
    Nat → List (Run α × Nat) → Run α → List (Run α) → Option (Run α)
  | _, waiting, run, [] => joinAll? after sort? waiting run
  | first, waiting, run, next :: rest =>
      let middle := first + run.items.length
      let depth := borderDepth count first middle (middle + next.items.length)
      (joinDeeper? after sort? depth waiting run).bind fun (joined, others) =>
        joinFrom? after sort? count middle ((joined, depth) :: others) next rest

theorem perm_join_from {after : α → α → Bool} {sort? : List α → Option (List α)}
    (keeps : ∀ xs sorted, sort? xs = some sorted → sorted.Perm xs) {count first : Nat}
    {waiting : List (Run α × Nat)} {run whole : Run α} {rest : List (Run α)}
    (h : joinFrom? after sort? count first waiting run rest = some whole) :
    whole.items.Perm (run.items ++ waiting.flatMap (·.1.items) ++ rest.flatMap Run.items) := by
  induction rest generalizing first waiting run with
  | nil => simpa using perm_join_all keeps h
  | cons next rest ih =>
      obtain ⟨⟨joined, others⟩, deeper, later⟩ := Option.bind_eq_some_iff.1 h
      refine (ih later).trans ?_
      simp only [List.flatMap_cons, ← List.append_assoc]
      refine List.Perm.append_right _ ?_
      rw [List.append_assoc]
      exact List.perm_append_comm.trans ((perm_join_deeper keeps deeper).append_right _)

def joinRuns? (after : α → α → Bool) (sort? : List α → Option (List α)) (count : Nat) :
    List (Run α) → Option (List α)
  | [] => some []
  | run :: rest => (joinFrom? after sort? count 0 [] run rest).bind (·.settle? sort?)

theorem perm_join_runs {after : α → α → Bool} {sort? : List α → Option (List α)}
    (keeps : ∀ xs sorted, sort? xs = some sorted → sorted.Perm xs) {count : Nat}
    {runs : List (Run α)} {sorted : List α}
    (h : joinRuns? after sort? count runs = some sorted) :
    sorted.Perm (runs.flatMap Run.items) := by
  cases runs with
  | nil => exact Option.some.inj h ▸ List.Perm.refl _
  | cons run rest =>
      obtain ⟨whole, joined, settled⟩ := Option.bind_eq_some_iff.1 h
      simpa using (perm_settle keeps settled).trans (perm_join_from keeps joined)

def sortEagerly? (after : α → α → Bool) (xs : List α) : Option (List α) :=
  (cutRuns? after (goodLength xs.length) true xs).bind (joinRuns? after some xs.length)

theorem perm_sort_eagerly {after : α → α → Bool} {xs sorted : List α}
    (h : sortEagerly? after xs = some sorted) : sorted.Perm xs := by
  obtain ⟨runs, cut, joined⟩ := Option.bind_eq_some_iff.1 h
  have keeps : ∀ ys sorted : List α, some ys = some sorted → sorted.Perm ys :=
    fun ys sorted same => Option.some.inj same ▸ List.Perm.refl _
  exact (perm_join_runs keeps joined).trans (perm_cut_runs cut)

end Cadenza.Sorting
