import Cadenza.Proofs.Studio.Failing

/-!
# What edits lead to

An edit names phrases that are there, so links and roots lead to phrases of the score. An edit that
is refused changes nothing, and each of the others does one thing.
-/

namespace Cadenza

set_option autoImplicit false

variable {τ : Type}

def Edit.phrases : Edit τ → List Nat
  | .add _ _ => []
  | .setDelay i _ => [i]
  | .setAnchor i _ => [i]
  | .link a b => [a, b]
  | .register _ _ => []
  | .attach i => [i]

namespace Score

def Grounded (s : Score τ) : Prop :=
  ∀ i, ∀ j ∈ followers s.phrases i, j < s.phrases.length

theorem Grounded.lt_of_reaches {s : Score τ} (grounded : s.Grounded) {i j : Nat}
    (inside : i < s.phrases.length) (path : Reaches s.phrases i j) : j < s.phrases.length := by
  induction path with
  | refl => exact inside
  | step link _ ih => exact ih (grounded _ _ link)

theorem Grounded.of_followers {s changed : Score τ} (grounded : s.Grounded)
    (same : ∀ k, followers changed.phrases k = followers s.phrases k)
    (more : s.phrases.length ≤ changed.phrases.length) : changed.Grounded := by
  intro i j link
  rw [same] at link
  exact Nat.lt_of_lt_of_le (grounded i j link) more

theorem Grounded.link {s linked : Score τ} (grounded : s.Grounded) {a b : Nat}
    (start : a < s.phrases.length) (finish : b < s.phrases.length)
    (made : s.link a b = .ok linked) : linked.Grounded := by
  intro i j link
  rw [length_of_link made]
  rw [(link_ok made start finish).1] at link
  split at link
  · rcases List.mem_append.1 link with old | new
    · exact grounded i j old
    · exact List.mem_singleton.1 new ▸ finish
  · exact grounded i j link

end Score

namespace Arrangement

variable {a : Arrangement} {s : Score τ} {i : Nat}

theorem register_of_mem {track : TrackId} (member : track ∈ a.tracks.map (·.1))
    (instrument : UInt8) : a.register track instrument = .error ⟨track⟩ := by
  rw [register, if_pos ((registered_iff a track).2 member)]

theorem register_of_not_mem {track : TrackId} (fresh : track ∉ a.tracks.map (·.1))
    (instrument : UInt8) :
    a.register track instrument = .ok { a with tracks := a.tracks ++ [(track, instrument)] } := by
  rw [register, if_neg fun old => fresh ((registered_iff a track).1 old)]

theorem attach_of_covers (covers : a.Covers s i) :
    a.attach s i = .ok { a with roots := a.roots ++ [i] } := by
  have none : a.firstUnknown s i = none := by
    rw [first_unknown_eq, unregistered_eq_none_iff]
    exact covers
  simp only [attach, none]

theorem attach_of_not_covers (missing : ¬ a.Covers s i) :
    ∃ track, a.unregistered? s i = some track ∧ a.attach s i = .error ⟨track⟩ := by
  cases first : a.unregistered? s i with
  | none => exact absurd (unregistered_eq_none_iff.1 first) missing
  | some track =>
      have unknown : a.firstUnknown s i = some track := by rw [first_unknown_eq, first]
      exact ⟨track, rfl, by simp only [attach, unknown]⟩

end Arrangement

namespace Studio

/-- All phrases that an edit names are there. -/
def Knows (s : Studio τ) (e : Edit τ) : Prop :=
  ∀ i ∈ e.phrases, i < s.score.phrases.length

instance (s : Studio τ) (e : Edit τ) : Decidable (s.Knows e) :=
  inferInstanceAs (Decidable (∀ i ∈ e.phrases, i < s.score.phrases.length))

theorem knows_link_iff {s : Studio τ} {a b : Nat} :
    s.Knows (.link a b) ↔ a < s.score.phrases.length ∧ b < s.score.phrases.length := by
  simp [Knows, Edit.phrases]

structure Grounded (s : Studio τ) : Prop where
  links : s.score.Grounded
  roots : ∀ root ∈ s.arrangement.roots, root < s.score.phrases.length

variable [Time τ]

/-- What edits of phrases that are there lead to, refused edits included. -/
inductive Reachable : Studio τ → Prop where
  | empty : Reachable Studio.empty
  | after {s : Studio τ} {e : Edit τ} (earlier : Reachable s) (known : s.Knows e) :
      Reachable (s.after e)

theorem after_of_error {s : Studio τ} {e : Edit τ} {r : Refusal} (refused : s.edit e = .error r) :
    s.after e = s := by
  rw [after, refused]

theorem after_of_ok {s changed : Studio τ} {e : Edit τ} (done : s.edit e = .ok changed) :
    s.after e = changed := by
  rw [after, done]

/-- How the edits that register, attach and link are answered, and that a refusal changes
nothing. -/
structure Answers (s : Studio τ) : Prop where
  registers : ∀ track instrument, track ∉ s.arrangement.tracks.map (·.1) →
    s.edit (.register track instrument) = .ok { s with arrangement :=
      { s.arrangement with tracks := s.arrangement.tracks ++ [(track, instrument)] } }
  duplicate : ∀ track instrument, track ∈ s.arrangement.tracks.map (·.1) →
    s.edit (.register track instrument) = .error (.duplicate ⟨track⟩)
  attaches : ∀ i, s.arrangement.Covers s.score i →
    s.edit (.attach i) = .ok { s with arrangement :=
      { s.arrangement with roots := s.arrangement.roots ++ [i] } }
  unknown : ∀ i, ¬ s.arrangement.Covers s.score i →
    ∃ track, s.arrangement.unregistered? s.score i = some track ∧
      s.edit (.attach i) = .error (.unknown ⟨track⟩)
  links : ∀ a b p q, s.score.phrase? a = some p → s.score.phrase? b = some q →
    ¬ Reaches s.score.phrases b a →
    ∃ score, s.edit (.link a b) = .ok { s with score } ∧
      score.phrases = s.score.phrases.set a { p with next := p.next ++ [b] }
  cyclic : ∀ a b q, s.score.phrase? b = some q → Reaches s.score.phrases b a →
    s.edit (.link a b) = .error (.cyclic ⟨q.track⟩)
  refused : ∀ e r, s.edit e = .error r → s.after e = s
  accepted : ∀ e changed, s.edit e = .ok changed → s.after e = changed

theorem answers (s : Studio τ) : s.Answers where
  registers track instrument fresh := by
    simp only [edit, Arrangement.register_of_not_mem fresh]
  duplicate track instrument member := by
    simp only [edit, Arrangement.register_of_mem member]
  attaches i covers := by
    simp only [edit, Arrangement.attach_of_covers covers]
  unknown i missing := by
    obtain ⟨track, first, refused⟩ := Arrangement.attach_of_not_covers missing
    exact ⟨track, first, by simp only [edit, refused]⟩
  links a b p q head found apart := by
    obtain ⟨score, made, phrases⟩ := Score.link_of_not_reaches found apart
    refine ⟨score, ?_, phrases.trans (Score.modify_of_phrase head _)⟩
    simp only [edit, made]
  cyclic a b q found path := by
    simp only [edit, Score.link_of_reaches found path]
  refused _ _ := after_of_error
  accepted _ _ := after_of_ok

/-- What an edit does to a studio when it is not refused. -/
inductive Made (s : Studio τ) : Edit τ → Studio τ → Prop where
  | add (track : TrackId) (notes : List (Note τ)) :
      Made s (.add track notes) { s with score := (s.score.add track notes).1 }
  | setDelay (i : Nat) (delay : τ) :
      Made s (.setDelay i delay) { s with score := s.score.setDelay i delay }
  | setAnchor (i : Nat) (anchor : Anchor) :
      Made s (.setAnchor i anchor) { s with score := s.score.setAnchor i anchor }
  | link {a b : Nat} {score : Score τ} (linked : s.score.link a b = .ok score) :
      Made s (.link a b) { s with score }
  | register {track : TrackId} (fresh : track ∉ s.arrangement.tracks.map (·.1))
      (instrument : UInt8) :
      Made s (.register track instrument) { s with arrangement :=
        { s.arrangement with tracks := s.arrangement.tracks ++ [(track, instrument)] } }
  | attach {i : Nat} (covers : s.arrangement.Covers s.score i) :
      Made s (.attach i) { s with arrangement :=
        { s.arrangement with roots := s.arrangement.roots ++ [i] } }

theorem made_of_ok {s changed : Studio τ} {e : Edit τ} (done : s.edit e = .ok changed) :
    Made s e changed := by
  cases e with
  | add track notes => exact Except.ok.inj done ▸ Made.add track notes
  | setDelay i delay => exact Except.ok.inj done ▸ Made.setDelay i delay
  | setAnchor i anchor => exact Except.ok.inj done ▸ Made.setAnchor i anchor
  | link a b =>
      cases linked : s.score.link a b with
      | error e => simp [edit, linked] at done
      | ok score =>
          simp only [edit, linked] at done
          exact Except.ok.inj done ▸ Made.link linked
  | register track instrument =>
      by_cases member : track ∈ s.arrangement.tracks.map (·.1)
      · rw [s.answers.duplicate track instrument member] at done
        cases done
      · rw [s.answers.registers track instrument member] at done
        exact Except.ok.inj done ▸ Made.register member instrument
  | attach i =>
      by_cases covers : s.arrangement.Covers s.score i
      · rw [s.answers.attaches i covers] at done
        exact Except.ok.inj done ▸ Made.attach covers
      · obtain ⟨track, _, refused⟩ := s.answers.unknown i covers
        rw [refused] at done
        cases done

theorem grounded_of_made {s changed : Studio τ} (grounded : s.Grounded) {e : Edit τ}
    (known : s.Knows e) (made : Made s e changed) : changed.Grounded := by
  obtain ⟨links, roots⟩ := grounded
  cases made with
  | add track notes =>
      have longer := Score.length_add s.score track notes
      have more : s.score.phrases.length ≤ (s.score.add track notes).1.phrases.length := by omega
      constructor
      · exact links.of_followers (Score.followers_add s.score track notes) more
      · exact fun root member => Nat.lt_of_lt_of_le (roots root member) more
  | setDelay i delay =>
      have same := Score.length_set_delay s.score i delay
      constructor
      · apply links.of_followers (Score.followers_set_delay s.score i delay)
        exact Nat.le_of_eq same.symm
      · exact fun root member => same ▸ roots root member
  | setAnchor i anchor =>
      have same := Score.length_set_anchor s.score i anchor
      constructor
      · apply links.of_followers (Score.followers_set_anchor s.score i anchor)
        exact Nat.le_of_eq same.symm
      · exact fun root member => same ▸ roots root member
  | @link a b _ linked =>
      obtain ⟨start, finish⟩ := knows_link_iff.1 known
      constructor
      · exact links.link start finish linked
      · exact fun root member => Score.length_of_link linked ▸ roots root member
  | register => exact ⟨links, roots⟩
  | @attach i _ =>
      constructor
      · exact links
      · intro root member
        rcases List.mem_append.1 member with old | new
        · exact roots root old
        · exact List.mem_singleton.1 new ▸ known i (List.mem_singleton_self i)

theorem Reachable.grounded {s : Studio τ} (reachable : Reachable s) : s.Grounded := by
  induction reachable with
  | empty =>
      constructor
      · intro i j link
        cases link
      · intro root member
        cases member
  | @after s e _ known ih =>
      unfold Studio.after
      split
      · exact ih
      · rename_i changed done
        exact grounded_of_made ih known (made_of_ok done)

theorem Reachable.distinct {s : Studio τ} (reachable : Reachable s) : s.arrangement.Distinct := by
  induction reachable with
  | empty => exact List.nodup_nil
  | after _ _ ih => exact distinct_after ih _

end Studio

end Cadenza
