import Cadenza.Score.Reach

/-!
# Scores

A score is a store of phrases, each named by its position, and linked from a phrase to those that
follow it. A phrase may follow several others, but never itself by any way round: a link that would
close a cycle is refused, so the links of every score are well founded.
-/

namespace Cadenza

set_option autoImplicit false

variable {τ : Type}

/-- Phrases whose links close no cycle. -/
structure Score (τ : Type) where
  phrases : List (Phrase τ)
  acyclic : WellFounded fun j i => j ∈ followers phrases i

theorem well_founded_of_followers {before after : List (Phrase τ)}
    (acyclic : WellFounded fun j i => j ∈ followers before i)
    (fewer : ∀ i j, j ∈ followers after i → j ∈ followers before i) :
    WellFounded fun j i => j ∈ followers after i :=
  Subrelation.wf (fun {j i} link => fewer i j link) acyclic

/-- One more link, to a position that does not lead back, closes no cycle. -/
theorem well_founded_of_link {before after : List (Phrase τ)} {a b : Nat}
    (acyclic : WellFounded fun j i => j ∈ followers before i)
    (apart : ¬ Reaches before b a)
    (linked : ∀ i j, j ∈ followers after i → j ∈ followers before i ∨ (i = a ∧ j = b)) :
    WellFounded fun j i => j ∈ followers after i := by
  have beyond : ∀ i, ¬ Reaches before i a → Acc (fun j i => j ∈ followers after i) i := by
    intro i
    induction i using acyclic.induction with
    | _ i ih =>
        intro away
        refine Acc.intro i fun j link => ?_
        rcases linked i j link with old | ⟨same, _⟩
        · exact ih j old fun path => away (Reaches.step old path)
        · exact absurd (same ▸ Reaches.refl i) away
  refine ⟨fun i => ?_⟩
  induction i using acyclic.induction with
  | _ i ih =>
      refine Acc.intro i fun j link => ?_
      rcases linked i j link with old | ⟨_, same⟩
      · exact ih j old
      · exact same ▸ beyond b apart

theorem followers_modify {phrases : List (Phrase τ)} {f : Phrase τ → Phrase τ} {a i : Nat} :
    followers (phrases.modify a f) i =
      if a = i then (phrases[i]?.map fun p => (f p).next).getD [] else followers phrases i := by
  unfold followers
  rw [List.getElem?_modify]
  by_cases same : a = i
  · cases found : phrases[i]? <;> simp [same]
  · simp [same]

/-- A link that would close a cycle, to a phrase of this track. -/
structure CyclicPhrase where
  track : TrackId
  deriving DecidableEq, Repr

def CyclicPhrase.message (e : CyclicPhrase) : String :=
  s!"Chaining a sequence of track {Text.quoted e.track} would create a cycle"

namespace Score

def empty : Score τ where
  phrases := []
  acyclic := ⟨fun i => Acc.intro i fun j link => by cases link⟩

def phrase? (s : Score τ) (i : Nat) : Option (Phrase τ) :=
  s.phrases[i]?

def adjust (s : Score τ) (i : Nat) (f : Phrase τ → Phrase τ) (keeps : ∀ p, (f p).next = p.next) :
    Score τ where
  phrases := s.phrases.modify i f
  acyclic := by
    refine well_founded_of_followers s.acyclic fun k j link => ?_
    rw [followers_modify] at link
    split at link
    · simpa only [followers, keeps] using link
    · exact link

def add [Time τ] (s : Score τ) (track : TrackId) (notes : List (Note τ)) : Score τ × Nat :=
  (⟨s.phrases ++ [⟨track, notes, [], Time.zero, .finish⟩], by
    refine well_founded_of_followers s.acyclic fun i j link => ?_
    unfold followers at link ⊢
    by_cases inside : i < s.phrases.length
    · rw [List.getElem?_append_left inside] at link
      exact link
    · rw [List.getElem?_append_right (Nat.le_of_not_lt inside)] at link
      rw [List.getElem?_singleton] at link
      split at link <;> simp at link⟩,
   s.phrases.length)

def setDelay (s : Score τ) (i : Nat) (delay : τ) : Score τ :=
  s.adjust i (fun p => { p with delay }) fun _ => rfl

def setAnchor (s : Score τ) (i : Nat) (anchor : Anchor) : Score τ :=
  s.adjust i (fun p => { p with anchor }) fun _ => rfl

/-- Lets phrase `b` follow phrase `a`, after the followers that `a` has. -/
def link (s : Score τ) (a b : Nat) : Except CyclicPhrase (Score τ) :=
  match s.phrase? b with
  | none => .ok s
  | some follower =>
      if cyclic : reaches s.phrases b a = true then .error ⟨follower.track⟩
      else .ok
        { phrases := s.phrases.modify a fun p => { p with next := p.next ++ [b] }
          acyclic := by
            refine well_founded_of_link s.acyclic
              (fun path => cyclic (reaches_eq_true_iff.2 path)) fun i j linked => ?_
            rw [followers_modify] at linked
            split at linked
            · rename_i same
              cases found : s.phrases[i]? with
              | none => simp [found] at linked
              | some p =>
                  rw [followers_of_some found]
                  simp only [found, Option.map_some, Option.getD_some] at linked
                  rcases List.mem_append.1 linked with old | new
                  · exact Or.inl old
                  · exact Or.inr ⟨same.symm, List.mem_singleton.1 new⟩
            · exact Or.inl linked }

end Score

end Cadenza
