import Cadenza.Proofs.Studio.Edits

/-!
# Registered tracks

Every phrase that a root leads to is on a registered track when the root is attached, and no later
edit but a link that is made can change that. As long as it holds, the studio compiles.
-/

namespace Cadenza

set_option autoImplicit false

variable {τ : Type}

namespace Arrangement

variable {a changed : Arrangement} {s after : Score τ} {i : Nat}

theorem Covers.mono (covers : a.Covers s i)
    (more : ∀ track ∈ a.tracks.map (·.1), track ∈ changed.tracks.map (·.1)) :
    changed.Covers s i :=
  fun j track path own => more track (covers j track path own)

/-- What a phrase leads to, and on which tracks, is all that matters. -/
theorem Covers.of_followers (covers : a.Covers s i)
    (same : ∀ k, followers after.phrases k = followers s.phrases k)
    (tracks : ∀ j, Reaches s.phrases i j → after.track? j = s.track? j) : a.Covers after i := by
  intro j track path own
  have old : Reaches s.phrases i j := (reaches_congr same).1 path
  exact covers j track old (tracks j old ▸ own)

theorem covers_link_iff {x y : Nat} (made : s.link x y = .ok after)
    (start : x < s.phrases.length) (finish : y < s.phrases.length) :
    a.Covers after i ↔ a.Covers s i ∧ (Reaches s.phrases i x → a.Covers s y) := by
  obtain ⟨linked, tracks⟩ := Score.link_ok made start finish
  simp only [Covers, tracks, reaches_of_link linked]
  constructor
  · intro covers
    constructor
    · exact fun j track path own => covers j track (Or.inl path) own
    · exact fun head j track path own => covers j track (Or.inr ⟨head, path⟩) own
  · rintro ⟨before, beyond⟩ j track (direct | ⟨head, path⟩) own
    · exact before j track direct own
    · exact beyond head j track path own

end Arrangement

namespace Studio

/-- All phrases that a root leads to are on registered tracks. -/
def Covered (s : Studio τ) : Prop :=
  ∀ root ∈ s.arrangement.roots, s.arrangement.Covers s.score root

def Keyed (s : Studio τ) : Prop :=
  ∀ root ∈ s.arrangement.roots, s.score.KeyedFrom root

variable [Time τ]

/-- No edit that is made, other than a link, puts a phrase without a registered track after a
root. -/
theorem covered_of_made {s changed : Studio τ} (covered : s.Covered) (grounded : s.Grounded)
    {e : Edit τ} (noLink : ∀ a b, e ≠ .link a b) (made : Made s e changed) :
    changed.Covered := by
  cases made with
  | add track notes =>
      intro root member
      apply (covered root member).of_followers (Score.followers_add s.score track notes)
      intro j path
      exact Score.track_add (grounded.links.lt_of_reaches (grounded.roots root member) path) _ _
  | setDelay i delay =>
      intro root member
      apply (covered root member).of_followers (Score.followers_set_delay s.score i delay)
      exact fun j _ => Score.track_set_delay s.score i delay j
  | setAnchor i anchor =>
      intro root member
      apply (covered root member).of_followers (Score.followers_set_anchor s.score i anchor)
      exact fun j _ => Score.track_set_anchor s.score i anchor j
  | @link a b => exact absurd rfl (noLink a b)
  | register =>
      intro root member
      apply (covered root member).mono
      intro other old
      rw [List.map_append]
      exact List.mem_append_left _ old
  | attach covers =>
      intro root member
      rcases List.mem_append.1 member with old | new
      · exact covered root old
      · exact List.mem_singleton.1 new ▸ covers

theorem covered_link_iff {s changed : Studio τ} {a b : Nat} (known : s.Knows (.link a b))
    (done : s.edit (.link a b) = .ok changed) :
    changed.Covered ↔ s.Covered ∧
      ((∃ root ∈ s.arrangement.roots, Reaches s.score.phrases root a) →
        s.arrangement.Covers s.score b) := by
  cases made_of_ok done with
  | link linked =>
      obtain ⟨start, finish⟩ := knows_link_iff.1 known
      simp only [Covered, Arrangement.covers_link_iff linked start finish]
      constructor
      · intro both
        constructor
        · exact fun root member => (both root member).1
        · rintro ⟨root, member, head⟩
          exact (both root member).2 head
      · rintro ⟨covered, beyond⟩ root member
        exact ⟨covered root member, fun head => beyond ⟨root, member, head⟩⟩

/-- Nothing but a track that is not registered keeps a studio from compiling, when delays may be
negative. -/
theorem compiles_iff_covered {s : Studio τ} (distinct : s.arrangement.Distinct) (keyed : s.Keyed) :
    (∃ tracks, s.compile .allow = .ok tracks) ↔ s.Covered := by
  have settled := Arrangement.settled_compile distinct keyed .allow
  have allowed : ∀ delays : List (TrackId × τ), refused? .allow delays = none := fun _ => rfl
  refine settled.ok_iff.trans ?_
  simp only [List.findSome?_eq_none_iff, Arrangement.failure?, allowed, Option.map_eq_none_iff,
    Arrangement.unregistered_eq_none_iff]
  rfl

/-- What is refused changes nothing, in every state that edits lead to. A root is attached if all
that it leads to is on registered tracks; if not, the refusal tells the first track that is not.
A track is registered unless it is already. With keys that fit a word, a compilation fails as its
first failing root does: at a negative delay if they are rejected, else at a track that is not
registered. So it succeeds, where delays may be negative, exactly as long as all that the roots lead
to is on registered tracks. No edit ends that but a link that is made, from a phrase that a root
leads to, to one that leads to some other track. -/
theorem only_links_reach_unregistered_tracks {s : Studio τ} (reachable : Reachable s) :
    (∀ e r, s.edit e = .error r → s.after e = s) ∧
      (∀ i, s.arrangement.Covers s.score i →
        s.edit (.attach i) = .ok { s with arrangement :=
          { s.arrangement with roots := s.arrangement.roots ++ [i] } }) ∧
      (∀ i, ¬ s.arrangement.Covers s.score i →
        ∃ track, s.arrangement.unregistered? s.score i = some track ∧
          s.edit (.attach i) = .error (.unknown ⟨track⟩)) ∧
      (∀ track instrument, track ∉ s.arrangement.tracks.map (·.1) →
        s.edit (.register track instrument) = .ok { s with arrangement :=
          { s.arrangement with tracks := s.arrangement.tracks ++ [(track, instrument)] } }) ∧
      (∀ track instrument, track ∈ s.arrangement.tracks.map (·.1) →
        s.edit (.register track instrument) = .error (.duplicate ⟨track⟩)) ∧
      (s.Keyed → ∀ policy e, s.compile policy = .error e ↔
        s.arrangement.roots.findSome? (s.arrangement.failure? s.score policy) = some e) ∧
      (s.Keyed → ((∃ tracks, s.compile .allow = .ok tracks) ↔ s.Covered)) ∧
      (s.Covered → ∀ e, ¬ (s.after e).Covered →
        ∃ a b changed, e = .link a b ∧ s.edit e = .ok changed) ∧
      ∀ a b changed, s.Knows (.link a b) → s.edit (.link a b) = .ok changed →
        (changed.Covered ↔ s.Covered ∧
          ((∃ root ∈ s.arrangement.roots, Reaches s.score.phrases root a) →
            s.arrangement.Covers s.score b)) := by
  have answers := s.answers
  refine ⟨answers.refused, answers.attaches, answers.unknown, answers.registers,
    answers.duplicate, ?_, ?_, ?_, ?_⟩
  · intro keyed policy e
    exact (Arrangement.settled_compile reachable.distinct keyed policy).error_iff
  · exact compiles_iff_covered reachable.distinct
  · intro covered e uncovered
    cases done : s.edit e with
    | error r =>
        rw [after_of_error done] at uncovered
        exact absurd covered uncovered
    | ok changed =>
        rw [after_of_ok done] at uncovered
        by_contra noLink
        apply uncovered
        apply covered_of_made covered reachable.grounded _ (made_of_ok done)
        rintro a b rfl
        exact noLink ⟨a, b, changed, rfl, rfl⟩
  · intro a b changed known done
    exact covered_link_iff known done

def shortNote : Note Float :=
  ⟨⟨Fin.last 11, 4⟩, defaultVelocity, Float.ofNat 1, Time.zero, .finish⟩

def twoPhrases : Score Float :=
  ((Score.empty.add "piano" [shortNote]).1.add "strings" [shortNote]).1

theorem eq_of_reaches_two_phrases {i j : Nat} (path : Reaches twoPhrases.phrases i j) : i = j :=
  path.eq_of_leaf (by rcases i with _ | _ | i <;> rfl)

def oneRegistered : Studio Float :=
  ⟨twoPhrases, ⟨[("piano", 0)], [0]⟩⟩

theorem covered_one_registered : oneRegistered.Covered := by
  intro root member j track path own
  obtain rfl := List.mem_singleton.1 member
  obtain rfl := eq_of_reaches_two_phrases path
  obtain rfl := Option.some.inj own
  decide

theorem keyed_one_registered : oneRegistered.Keyed := by
  intro root member j p path found n noteIn
  obtain rfl := List.mem_singleton.1 member
  obtain rfl := eq_of_reaches_two_phrases path
  obtain rfl := Option.some.inj found
  obtain rfl := List.mem_singleton.1 noteIn
  decide

theorem reachable_one_registered : Reachable oneRegistered := by
  let before : Studio Float := ⟨twoPhrases, ⟨[("piano", 0)], []⟩⟩
  have reachable : Reachable before :=
    ((Reachable.empty.after (e := .register "piano" 0) nofun).after
      (e := .add "piano" [shortNote]) nofun).after (e := .add "strings" [shortNote]) nofun
  have covers : before.arrangement.Covers before.score 0 :=
    covered_one_registered 0 (List.mem_singleton_self 0)
  have attached : before.edit (.attach 0) = .ok oneRegistered := by
    simp only [edit, Arrangement.attach_of_covers covers]
    rfl
  have known : before.Knows (.attach 0) := by decide
  exact after_of_ok attached ▸ reachable.after known

theorem link_to_unregistered_track :
    Reachable oneRegistered ∧ oneRegistered.Keyed ∧
      (∃ tracks, oneRegistered.compile .allow = .ok tracks) ∧
      ∃ changed, oneRegistered.edit (.link 0 1) = .ok changed ∧ ¬ changed.Covered := by
  have apart : ¬ Reaches twoPhrases.phrases 1 0 := by
    intro path
    cases eq_of_reaches_two_phrases path
  obtain ⟨linked, made, _⟩ := Score.link_of_not_reaches rfl apart
  have done : oneRegistered.edit (.link 0 1) = .ok { oneRegistered with score := linked } := by
    have same : oneRegistered.score.link 0 1 = .ok linked := made
    simp only [edit, same]
  obtain ⟨_, _, _, _, _, _, compiles, _, links⟩ :=
    only_links_reach_unregistered_tracks reachable_one_registered
  have compiled := (compiles keyed_one_registered).2 covered_one_registered
  refine ⟨reachable_one_registered, keyed_one_registered, compiled, _, done, ?_⟩
  intro still
  obtain ⟨_, beyond⟩ := (links 0 1 _ (by decide) done).1 still
  have registered : "strings" ∈ ["piano"] :=
    beyond ⟨0, List.mem_singleton_self 0, Reaches.refl 0⟩ 1 "strings" (Reaches.refl 1) rfl
  revert registered
  decide

end Studio

end Cadenza
