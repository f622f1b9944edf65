/-!
# Outcomes of checked steps

A step gives something or fails, and a later step is taken only if the one before it gave something.
So a run of steps fails with the first failure, and to know when it fails and how is to know this of
each step. The same goes for one step that is taken for each element of a list.
-/

namespace Cadenza

set_option autoImplicit false

/-- A step after another one is taken only if that one gave something. -/
theorem except_bind_ok {ε α β : Type} {x : Except ε α} {f : α → Except ε β} {b : β}
    (made : (x >>= f) = .ok b) : ∃ a, x = .ok a ∧ f a = .ok b := by
  cases x with
  | error e => cases made
  | ok a => exact ⟨a, rfl, made⟩

/-- A result that fails in one given way, or in none. -/
def Settled {ε α : Type} (failure : Option ε) (result : Except ε α) : Prop :=
  match failure with
  | some e => result = .error e
  | none => ∃ a, result = .ok a

variable {ε α β : Type} {first later : Option ε} {x : Except ε α} {y : Except ε β}

theorem Settled.error_iff (settled : Settled first x) {e : ε} : x = .error e ↔ first = some e := by
  cases first with
  | some e' =>
      have failed : x = .error e' := settled
      rw [failed, Except.error.injEq, Option.some.injEq]
  | none =>
      obtain ⟨a, made⟩ := settled
      simp [made]

theorem Settled.ok_iff (settled : Settled first x) : (∃ a, x = .ok a) ↔ first = none := by
  cases first with
  | some e =>
      have failed : x = .error e := settled
      simp [failed]
  | none => exact iff_of_true settled rfl

/-- One step and then another. -/
theorem Settled.next (head : Settled first x) (failed : ∀ e, x = .error e → y = .error e)
    (passed : ∀ a, x = .ok a → Settled later y) : Settled (first.or later) y := by
  cases first with
  | some e => exact failed e head
  | none =>
      obtain ⟨a, made⟩ := head
      exact passed a made

theorem Settled.last (head : Settled first x) (failed : ∀ e, x = .error e → y = .error e)
    (passed : ∀ a, x = .ok a → ∃ b, y = .ok b) : Settled first y := by
  have both : Settled (first.or none) y := head.next failed passed
  rwa [Option.or_none] at both

theorem Settled.next_of_ok {a : α} (head : Settled first x) (made : x = .ok a)
    (tail : Settled later y) : Settled (first.or later) y := by
  rw [head.ok_iff.1 ⟨a, made⟩, Option.none_or]
  exact tail

theorem Settled.next_of_error {e : ε} (head : Settled first x) (failed : x = .error e) :
    Settled (first.or later) (.error e : Except ε β) := by
  rw [head.error_iff.1 failed, Option.some_or]
  exact rfl

theorem Settled.bind {f : α → Except ε β} (head : Settled first x)
    (tail : ∀ a, Settled later (f a)) : Settled (first.or later) (x >>= f) := by
  apply head.next
  · rintro e rfl
    rfl
  · rintro a rfl
    exact tail a

theorem Settled.bind_ok {f : α → Except ε β} (head : Settled first x)
    (passed : ∀ a, ∃ b, f a = .ok b) : Settled first (x >>= f) := by
  have both : Settled (first.or none) (x >>= f) := head.bind passed
  rwa [Option.or_none] at both

/-- What is found first in a list is found in its head, or else in what follows. -/
theorem find_first_cons {f : α → Option β} {a : α} {rest : List α} :
    (a :: rest).findSome? f = (f a).or (rest.findSome? f) := by
  rw [List.findSome?_cons]
  cases f a <;> rfl

section Mapping

variable {γ : Type} {f : α → Option β} {xs : List α} {ys : List β}

/-- A list is mapped if each of its elements is. -/
theorem mapM_eq_some_iff : xs.mapM f = some ys ↔ xs.map f = ys.map some := by
  induction xs generalizing ys with
  | nil => cases ys <;> simp
  | cons x rest ih =>
      simp only [List.mapM_cons, Option.bind_eq_bind, Option.bind_eq_some_iff, ih]
      cases ys <;> simp

theorem exists_map_eq_map_some (all : ∀ x ∈ xs, f x ≠ none) :
    ∃ ys : List β, xs.map f = ys.map some := by
  induction xs with
  | nil => exact ⟨[], rfl⟩
  | cons x rest ih =>
      obtain ⟨y, made⟩ := Option.ne_none_iff_exists'.1 (all x List.mem_cons_self)
      obtain ⟨ys, others⟩ := ih fun z member => all z (List.mem_cons_of_mem x member)
      exact ⟨y :: ys, by rw [List.map_cons, List.map_cons, made, others]⟩

theorem exists_mapM_iff : (∃ ys : List β, xs.mapM f = some ys) ↔ ∀ x ∈ xs, f x ≠ none := by
  constructor
  · rintro ⟨ys, mapped⟩ x member missing
    have image : none ∈ ys.map some := by
      rw [← mapM_eq_some_iff.1 mapped, ← missing]
      exact List.mem_map_of_mem member
    simp at image
  · intro all
    obtain ⟨ys, each⟩ := exists_map_eq_map_some all
    exact ⟨ys, mapM_eq_some_iff.2 each⟩

theorem source_of_mem_mapM (mapped : xs.mapM f = some ys) {y : β} (member : y ∈ ys) :
    ∃ x ∈ xs, f x = some y := by
  have image : some y ∈ xs.map f := by
    rw [mapM_eq_some_iff.1 mapped]
    exact List.mem_map_of_mem member
  exact List.mem_map.1 image

/-- What can be told of an element before it is mapped as well as after. -/
theorem map_of_mapM {g : α → γ} {h : β → γ} (told : ∀ x y, f x = some y → h y = g x)
    (mapped : xs.mapM f = some ys) : ys.map h = xs.map g := by
  have each := mapM_eq_some_iff.1 mapped
  clear mapped
  induction xs generalizing ys with
  | nil =>
      rw [List.map_eq_nil_iff.1 each.symm]
      rfl
  | cons x rest ih =>
      cases ys with
      | nil => cases each
      | cons y others =>
          obtain ⟨here, later⟩ := List.cons.inj each
          rw [List.map_cons, List.map_cons, ih later, told x y here]

end Mapping

end Cadenza
