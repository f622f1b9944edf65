import Cadenza.Phrase

/-!
# What a phrase leads to

Phrases are kept in a list and name their followers by position. The search opens each position
once, however many ways lead there. Main statement: it finds exactly what the links reach.
-/

namespace Cadenza

set_option autoImplicit false

variable {τ : Type}

def followers (phrases : List (Phrase τ)) (i : Nat) : List Nat :=
  (phrases[i]?.map (·.next)).getD []

theorem followers_of_some {phrases : List (Phrase τ)} {i : Nat} {p : Phrase τ}
    (found : phrases[i]? = some p) : followers phrases i = p.next := by
  simp [followers, found]

theorem followers_of_none {phrases : List (Phrase τ)} {i : Nat}
    (missing : phrases[i]? = none) : followers phrases i = [] := by
  simp [followers, missing]

/-- Position `j` can be reached from `i` by zero or more links. -/
inductive Reaches (phrases : List (Phrase τ)) : Nat → Nat → Prop where
  | refl (i : Nat) : Reaches phrases i i
  | step {i j k : Nat} (link : j ∈ followers phrases i) (rest : Reaches phrases j k) :
      Reaches phrases i k

def without (i : Nat) (positions : List Nat) : List Nat :=
  positions.filter (· ≠ i)

theorem mem_without {i j : Nat} {positions : List Nat} :
    j ∈ without i positions ↔ j ∈ positions ∧ j ≠ i := by
  simp [without]

theorem length_without_lt {i : Nat} {positions : List Nat} (member : i ∈ positions) :
    (without i positions).length < positions.length :=
  List.length_filter_lt_length_iff_exists.2 ⟨i, member, by simp⟩

/-- Looks for `target` among the pending positions and what they reach. A position is opened once,
while it is among the `unseen` ones. -/
def finds (phrases : List (Phrase τ)) (target : Nat) (unseen pending : List Nat) : Bool :=
  match pending with
  | [] => false
  | i :: rest =>
      if i = target then true
      else if i ∈ unseen then
        finds phrases target (without i unseen) (followers phrases i ++ rest)
      else finds phrases target unseen rest
termination_by (unseen.length, pending.length)
decreasing_by
  · rename_i fresh
    exact Prod.Lex.left _ _ (length_without_lt fresh)
  · exact Prod.Lex.right _ (by simp)

def reaches (phrases : List (Phrase τ)) (i target : Nat) : Bool :=
  finds phrases target (List.range phrases.length) [i]

theorem finds_sound {phrases : List (Phrase τ)} {target : Nat} {unseen pending : List Nat}
    (found : finds phrases target unseen pending = true) :
    ∃ i ∈ pending, Reaches phrases i target := by
  fun_induction finds phrases target unseen pending with
  | case1 => cases found
  | case2 unseen rest => exact ⟨target, List.mem_cons_self, Reaches.refl target⟩
  | case3 unseen i rest other fresh ih =>
      obtain ⟨j, member, path⟩ := ih found
      rcases List.mem_append.1 member with link | later
      · exact ⟨i, List.mem_cons_self, Reaches.step link path⟩
      · exact ⟨j, List.mem_cons_of_mem i later, path⟩
  | case4 unseen i rest other stale ih =>
      obtain ⟨j, later, path⟩ := ih found
      exact ⟨j, List.mem_cons_of_mem i later, path⟩

/-- A set of positions without the target that holds everything its members lead to. -/
structure Avoids (phrases : List (Phrase τ)) (target : Nat) (within : Nat → Prop) : Prop where
  missing : ¬ within target
  closed : ∀ i, within i → ∀ j ∈ followers phrases i, within j

theorem Avoids.not_reaches {phrases : List (Phrase τ)} {target i : Nat} {within : Nat → Prop}
    (avoids : Avoids phrases target within) (member : within i) : ¬ Reaches phrases i target := by
  intro path
  induction path with
  | refl => exact avoids.missing member
  | step link rest ih => exact ih avoids (avoids.closed _ member _ link)

/-- What holds while the search runs: a position that was opened is not the target, and its
followers are opened or pending. -/
def Searched (phrases : List (Phrase τ)) (target : Nat) (unseen pending : List Nat) : Prop :=
  ∀ i, i < phrases.length → i ∉ unseen →
    i ≠ target ∧ ∀ j ∈ followers phrases i, j ∈ pending ∨ (j ∉ unseen ∧ j ≠ target)

/-- A search that fails leaves a set without the target that its pending positions never leave. -/
theorem avoids_of_not_finds {phrases : List (Phrase τ)} {target : Nat}
    {unseen pending : List Nat} (failed : finds phrases target unseen pending = false)
    (searched : Searched phrases target unseen pending) :
    ∃ within : Nat → Prop, Avoids phrases target within ∧ (∀ i ∈ pending, within i) ∧
      ∀ i, i ∉ unseen → i ≠ target → within i := by
  fun_induction finds phrases target unseen pending with
  | case1 unseen =>
      refine ⟨fun i => i ∉ unseen ∧ i ≠ target, ⟨fun member => member.2 rfl, ?_⟩, ?_, ?_⟩
      · intro i member j link
        by_cases inside : i < phrases.length
        · rcases (searched i inside member.1).2 j link with impossible | opened
          · cases impossible
          · exact opened
        · rw [followers_of_none (List.getElem?_eq_none (Nat.le_of_not_lt inside))] at link
          cases link
      · intro i impossible
        cases impossible
      · intro i opened other
        exact ⟨opened, other⟩
  | case2 => cases failed
  | case3 unseen i rest other fresh ih =>
      have still : Searched phrases target (without i unseen)
          (followers phrases i ++ rest) := by
        intro k inside opened
        by_cases same : k = i
        · subst same
          exact ⟨other, fun j link => Or.inl (List.mem_append_left rest link)⟩
        · have before : k ∉ unseen := fun member => opened (mem_without.2 ⟨member, same⟩)
          refine ⟨(searched k inside before).1, ?_⟩
          intro j link
          rcases (searched k inside before).2 j link with waiting | done
          · rcases List.mem_cons.1 waiting with now | later
            · subst now
              exact Or.inr ⟨fun left => (mem_without.1 left).2 rfl, other⟩
            · exact Or.inl (List.mem_append_right _ later)
          · exact Or.inr ⟨fun left => done.1 (mem_without.1 left).1, done.2⟩
      obtain ⟨within, avoids, pendingIn, openedIn⟩ := ih failed still
      refine ⟨within, avoids, ?_, ?_⟩
      · intro k member
        rcases List.mem_cons.1 member with now | later
        · subst now
          exact openedIn k (fun left => (mem_without.1 left).2 rfl) other
        · exact pendingIn k (List.mem_append_right _ later)
      · intro k opened different
        exact openedIn k (fun left => opened (mem_without.1 left).1) different
  | case4 unseen i rest other stale ih =>
      have still : Searched phrases target unseen rest := by
        intro k inside opened
        refine ⟨(searched k inside opened).1, ?_⟩
        intro j link
        rcases (searched k inside opened).2 j link with waiting | done
        · rcases List.mem_cons.1 waiting with now | later
          · subst now
            exact Or.inr ⟨stale, other⟩
          · exact Or.inl later
        · exact Or.inr done
      obtain ⟨within, avoids, pendingIn, openedIn⟩ := ih failed still
      refine ⟨within, avoids, ?_, openedIn⟩
      intro k member
      rcases List.mem_cons.1 member with now | later
      · subst now
        exact openedIn k stale other
      · exact pendingIn k later

theorem reaches_eq_true_iff {phrases : List (Phrase τ)} {i target : Nat} :
    reaches phrases i target = true ↔ Reaches phrases i target := by
  constructor
  · intro found
    obtain ⟨j, member, path⟩ := finds_sound found
    rw [List.mem_singleton.1 member] at path
    exact path
  · intro path
    cases answer : reaches phrases i target with
    | true => rfl
    | false =>
        have searched : Searched phrases target (List.range phrases.length) [i] := by
          intro k below opened
          exact absurd (List.mem_range.2 below) opened
        obtain ⟨within, avoids, pendingIn, _⟩ := avoids_of_not_finds answer searched
        exact absurd path (avoids.not_reaches (pendingIn i List.mem_cons_self))

end Cadenza
