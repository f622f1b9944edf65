import Cadenza.Proofs.Score.Linking
import Cadenza.Proofs.Score.Unfolding

/-!
# What is reached after a change

Setting a delay or an anchor, and adding a phrase, leave the links as they are. A new link adds the
ways that go to its start and on from its end. The unfolding of a phrase lists what it reaches.
-/

namespace Cadenza

set_option autoImplicit false

variable {τ : Type} {before after : List (Phrase τ)}

theorem Reaches.mono {i j : Nat}
    (kept : ∀ k, ∀ next ∈ followers before k, next ∈ followers after k)
    (path : Reaches before i j) : Reaches after i j := by
  induction path with
  | refl i => exact Reaches.refl i
  | step link _ ih => exact Reaches.step (kept _ _ link) ih

theorem reaches_congr (same : ∀ k, followers after k = followers before k) {i j : Nat} :
    Reaches after i j ↔ Reaches before i j := by
  constructor
  · apply Reaches.mono
    intro k next link
    rwa [← same]
  · apply Reaches.mono
    intro k next link
    rwa [same]

/-- A way that takes a new link can leave out all between its first and its last use of the link. -/
theorem reaches_of_link {a b : Nat}
    (linked : ∀ k, followers after k =
      if a = k then followers before k ++ [b] else followers before k) {i j : Nat} :
    Reaches after i j ↔ Reaches before i j ∨ (Reaches before i a ∧ Reaches before b j) := by
  have kept : ∀ k, ∀ next ∈ followers before k, next ∈ followers after k := by
    intro k next link
    rw [linked]
    split
    · exact List.mem_append_left [b] link
    · exact link
  constructor
  · intro path
    induction path with
    | refl i => exact Or.inl (Reaches.refl i)
    | @step i next j link _ ih =>
        have origin : next ∈ followers before i ∨ (a = i ∧ next = b) := by
          rw [linked] at link
          split at link
          · rename_i same
            rcases List.mem_append.1 link with old | new
            · exact Or.inl old
            · exact Or.inr ⟨same, List.mem_singleton.1 new⟩
          · exact Or.inl link
        rcases origin with old | ⟨rfl, rfl⟩
        · rcases ih with direct | ⟨start, rest⟩
          · exact Or.inl (Reaches.step old direct)
          · exact Or.inr ⟨Reaches.step old start, rest⟩
        · rcases ih with direct | ⟨_, rest⟩
          · exact Or.inr ⟨Reaches.refl a, direct⟩
          · exact Or.inr ⟨Reaches.refl a, rest⟩
  · rintro (direct | ⟨start, rest⟩)
    · exact direct.mono kept
    · have new : b ∈ followers after a := by
        rw [linked, if_pos rfl]
        exact List.mem_append_right _ (List.mem_singleton_self b)
      exact (start.mono kept).trans (Reaches.step new (rest.mono kept))

namespace Score

theorem mem_unfolding_iff {s : Score τ} {i j : Nat} :
    j ∈ s.unfolding i ↔ Reaches s.phrases i j ∧ ∃ p, s.phrase? j = some p := by
  induction i using s.acyclic.induction with
  | _ i ih =>
      cases found : s.phrase? i with
      | none =>
          rw [unfolding_of_none found]
          constructor
          · intro member
            cases member
          · rintro ⟨path, p, present⟩
            cases path with
            | refl =>
                rw [found] at present
                cases present
            | step link _ =>
                have none : followers s.phrases i = [] := followers_of_none found
                rw [none] at link
                cases link
      | some p =>
          have next : followers s.phrases i = p.next := followers_of_some found
          rw [unfolding_of_some found, List.mem_cons, List.mem_flatMap]
          constructor
          · rintro (rfl | ⟨k, link, member⟩)
            · exact ⟨Reaches.refl j, p, found⟩
            · have linked : k ∈ followers s.phrases i := next ▸ link
              obtain ⟨path, present⟩ := (ih k linked).1 member
              exact ⟨Reaches.step linked path, present⟩
          · rintro ⟨path, present⟩
            cases path with
            | refl => exact Or.inl rfl
            | @step _ k _ link rest =>
                exact Or.inr ⟨k, next ▸ link, (ih k link).2 ⟨rest, present⟩⟩

theorem followers_adjust (s : Score τ) (i : Nat) (f : Phrase τ → Phrase τ)
    (keeps : ∀ p, (f p).next = p.next) (k : Nat) :
    followers (s.adjust i f keeps).phrases k = followers s.phrases k := by
  change followers (s.phrases.modify i f) k = _
  rw [followers_modify]
  split
  · simp only [keeps]
    rfl
  · rfl

def track? (s : Score τ) (i : Nat) : Option TrackId :=
  (s.phrase? i).map (·.track)

theorem map_track_modify {phrases : List (Phrase τ)} {f : Phrase τ → Phrase τ}
    (same : ∀ p, (f p).track = p.track) (i k : Nat) :
    ((phrases.modify i f)[k]?).map (·.track) = (phrases[k]?).map (·.track) := by
  rw [List.getElem?_modify, Option.map_eq_map, Option.map_map]
  congr 1
  funext p
  change (if i = k then f p else p).track = p.track
  split
  · exact same p
  · rfl

theorem track_adjust (s : Score τ) (i : Nat) (f : Phrase τ → Phrase τ)
    (keeps : ∀ p, (f p).next = p.next) (same : ∀ p, (f p).track = p.track) (k : Nat) :
    (s.adjust i f keeps).track? k = s.track? k :=
  map_track_modify same i k

theorem followers_set_delay (s : Score τ) (i : Nat) (delay : τ) (k : Nat) :
    followers (s.setDelay i delay).phrases k = followers s.phrases k := by
  rw [setDelay, followers_adjust]

theorem followers_set_anchor (s : Score τ) (i : Nat) (anchor : Anchor) (k : Nat) :
    followers (s.setAnchor i anchor).phrases k = followers s.phrases k := by
  rw [setAnchor, followers_adjust]

theorem track_set_delay (s : Score τ) (i : Nat) (delay : τ) (k : Nat) :
    (s.setDelay i delay).track? k = s.track? k := by
  apply track_adjust
  intro p
  rfl

theorem track_set_anchor (s : Score τ) (i : Nat) (anchor : Anchor) (k : Nat) :
    (s.setAnchor i anchor).track? k = s.track? k := by
  apply track_adjust
  intro p
  rfl

theorem followers_add [Time τ] (s : Score τ) (track : TrackId) (notes : List (Note τ)) (k : Nat) :
    followers (s.add track notes).1.phrases k = followers s.phrases k := by
  change followers (s.phrases ++ [⟨track, notes, [], Time.zero, .finish⟩]) k = _
  unfold followers
  by_cases inside : k < s.phrases.length
  · rw [List.getElem?_append_left inside]
  · have outside := Nat.le_of_not_lt inside
    rw [List.getElem?_append_right outside, List.getElem?_eq_none outside,
      List.getElem?_singleton]
    split <;> rfl

theorem track_add [Time τ] {s : Score τ} {k : Nat} (inside : k < s.phrases.length)
    (track : TrackId) (notes : List (Note τ)) : (s.add track notes).1.track? k = s.track? k := by
  change ((s.phrases ++ [_])[k]?).map (·.track) = _
  rw [List.getElem?_append_left inside]
  rfl

/-- A link that is made changes the followers of its start, and no track. -/
theorem link_ok {s linked : Score τ} {a b : Nat} (made : s.link a b = .ok linked)
    (start : a < s.phrases.length) (finish : b < s.phrases.length) :
    (∀ k, followers linked.phrases k =
      if a = k then followers s.phrases k ++ [b] else followers s.phrases k) ∧
    ∀ k, linked.track? k = s.track? k := by
  have found : s.phrase? b = some s.phrases[b] := List.getElem?_eq_getElem finish
  have apart : ¬ Reaches s.phrases b a := by
    intro path
    rw [link_of_reaches found path] at made
    cases made
  obtain ⟨changed, made', phrases⟩ := link_of_not_reaches found apart
  rw [made'] at made
  obtain rfl := Except.ok.inj made
  constructor
  · intro k
    rw [phrases, followers_modify]
    split
    · rename_i same
      subst same
      simp [followers, List.getElem?_eq_getElem start]
    · rfl
  · intro k
    change (changed.phrases[k]?).map (·.track) = (s.phrases[k]?).map (·.track)
    rw [phrases]
    apply map_track_modify
    intro p
    rfl

end Score

end Cadenza
