import Cadenza.Phrase.Layout
import Cadenza.Score

/-!
# Laying out a score

A phrase is followed by all that its links lead to, depth first and in the order of the links; a
phrase that can be reached in several ways is laid out once for each way. The work is done from a
list of pending phrases, and ends because the links close no cycle.
-/

namespace Cadenza.Score

set_option autoImplicit false

variable {τ : Type}

/-- How many phrases are laid out from a position, each one counted once for every way to it. -/
def weight (s : Score τ) (i : Nat) : Nat :=
  1 + (followers s.phrases i).attach.foldr (fun ⟨j, _⟩ sum => s.weight j + sum) 0
termination_by s.acyclic.wrap i
decreasing_by
  rename_i link
  exact link

def load (s : Score τ) (pending : List Nat) : Nat :=
  pending.foldr (fun i sum => s.weight i + sum) 0

theorem weight_eq (s : Score τ) (i : Nat) : s.weight i = 1 + s.load (followers s.phrases i) := by
  rw [weight, load]
  congr 1
  conv => rhs; rw [← List.attach_map_subtype_val (followers s.phrases i), List.foldr_map]

theorem load_cons (s : Score τ) (i : Nat) (rest : List Nat) :
    s.load (i :: rest) = s.weight i + s.load rest :=
  rfl

theorem load_append (s : Score τ) (first rest : List Nat) :
    s.load (first ++ rest) = s.load first + s.load rest := by
  induction first with
  | nil => exact (Nat.zero_add _).symm
  | cons i others ih => rw [List.cons_append, load_cons, load_cons, ih, Nat.add_assoc]

theorem load_lt_of_pop (s : Score τ) (i : Nat) (rest : List Nat) :
    s.load rest < s.load (i :: rest) := by
  have opened := s.weight_eq i
  rw [load_cons]
  omega

theorem load_lt_of_open {s : Score τ} {i : Nat} {p : Phrase τ} (found : s.phrase? i = some p)
    (rest : List Nat) : s.load (p.next ++ rest) < s.load (i :: rest) := by
  have opened := s.weight_eq i
  rw [followers_of_some found] at opened
  rw [load_cons, load_append]
  omega

def walkFrom (s : Score τ) : List Nat → List Nat
  | [] => []
  | i :: rest =>
      match _found : s.phrase? i with
      | none => s.walkFrom rest
      | some p => i :: s.walkFrom (p.next ++ rest)
termination_by pending => s.load pending
decreasing_by
  · exact s.load_lt_of_pop i rest
  · exact load_lt_of_open _found rest

def walk (s : Score τ) (i : Nat) : List Nat :=
  s.walkFrom [i]

/-- A phrase that waits to be laid out after one that lasted from `lastStart` to `lastEnd`. -/
structure Pending (τ : Type) where
  phrase : Nat
  lastStart : τ
  lastEnd : τ

variable [Time τ]

def layOutFrom (s : Score τ) (policy : DelayPolicy) :
    List (Pending τ) → Except (LayoutError τ) (List (Entry τ))
  | [] => .ok []
  | first :: rest =>
      match _found : s.phrase? first.phrase with
      | none => s.layOutFrom policy rest
      | some p =>
          match p.place policy first.lastStart first.lastEnd with
          | .error e => .error e
          | .ok placed =>
              match s.layOutFrom policy
                  (p.next.map (⟨·, placed.start, placed.finish⟩) ++ rest) with
              | .error e => .error e
              | .ok entries => .ok (placed.entry :: entries)
termination_by pending => s.load (pending.map Pending.phrase)
decreasing_by
  · exact s.load_lt_of_pop first.phrase (rest.map Pending.phrase)
  · simpa [Function.comp_def] using load_lt_of_open _found (rest.map Pending.phrase)

def layOut (s : Score τ) (policy : DelayPolicy) (i : Nat) (lastStart lastEnd : τ) :
    Except (LayoutError τ) (List (Entry τ)) :=
  s.layOutFrom policy [⟨i, lastStart, lastEnd⟩]

end Cadenza.Score
