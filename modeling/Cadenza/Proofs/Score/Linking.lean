import Cadenza.Score.Draft

/-!
# Linking

What a link does to a score, and what a run of calls on a draft leaves behind. A link is refused
exactly when the phrase that is to follow leads back already; a link that is made changes nothing
but the followers of one phrase. So no phrase ever follows itself by any way round.
-/

namespace Cadenza

set_option autoImplicit false

variable {τ : Type}

theorem Reaches.trans {phrases : List (Phrase τ)} {i j k : Nat} (first : Reaches phrases i j)
    (second : Reaches phrases j k) : Reaches phrases i k := by
  induction first with
  | refl => exact second
  | step link _ ih => exact Reaches.step link (ih second)

theorem Reaches.eq_of_leaf {phrases : List (Phrase τ)} {i j : Nat} (path : Reaches phrases i j)
    (leaf : followers phrases i = []) : i = j := by
  cases path with
  | refl => rfl
  | step link _ =>
      rw [leaf] at link
      cases link

/-- No phrase can be reached from one of its own followers. -/
def Acyclic (phrases : List (Phrase τ)) : Prop :=
  ∀ i j, j ∈ followers phrases i → ¬ Reaches phrases j i

namespace Score

/-- The least phrase on a cycle would be followed by another one on the same cycle. -/
theorem acyclic_phrases (s : Score τ) : Acyclic s.phrases := by
  intro i
  induction i using s.acyclic.induction with
  | _ i ih =>
      intro j link path
      cases path with
      | refl => exact ih i link i link (Reaches.refl i)
      | step next rest => exact ih j link _ next (rest.trans (Reaches.step link (Reaches.refl j)))

theorem modify_of_phrase {s : Score τ} {i : Nat} {p : Phrase τ} (found : s.phrase? i = some p)
    (f : Phrase τ → Phrase τ) : s.phrases.modify i f = s.phrases.set i (f p) := by
  have : Inhabited (Phrase τ) := ⟨p⟩
  have present : s.phrases[i]? = some p := found
  rw [List.modify_eq_set, present, Option.getD_some]

theorem length_add [Time τ] (s : Score τ) (track : TrackId) (notes : List (Note τ)) :
    (s.add track notes).1.phrases.length = s.phrases.length + 1 := by
  simp [add]

theorem length_set_delay (s : Score τ) (i : Nat) (delay : τ) :
    (s.setDelay i delay).phrases.length = s.phrases.length := by
  simp [setDelay, adjust]

theorem length_set_anchor (s : Score τ) (i : Nat) (anchor : Anchor) :
    (s.setAnchor i anchor).phrases.length = s.phrases.length := by
  simp [setAnchor, adjust]

theorem link_of_reaches {s : Score τ} {a b : Nat} {next : Phrase τ}
    (found : s.phrase? b = some next) (path : Reaches s.phrases b a) :
    s.link a b = .error ⟨next.track⟩ := by
  have cyclic : reaches s.phrases b a = true := reaches_eq_true_iff.2 path
  unfold link
  simp [found, cyclic]

theorem link_of_not_reaches {s : Score τ} {a b : Nat} {next : Phrase τ}
    (found : s.phrase? b = some next) (apart : ¬ Reaches s.phrases b a) :
    ∃ linked, s.link a b = .ok linked ∧
      linked.phrases = s.phrases.modify a fun p => { p with next := p.next ++ [b] } := by
  have safe : ¬ reaches s.phrases b a = true := fun cyclic => apart (reaches_eq_true_iff.1 cyclic)
  unfold link
  simp [found, safe]

/-- A phrase without followers can follow any other one. -/
theorem link_of_leaf {s : Score τ} {a b : Nat} {next : Phrase τ} (found : s.phrase? b = some next)
    (leaf : next.next = []) (other : a ≠ b) :
    ∃ linked, s.link a b = .ok linked ∧
      linked.phrases = s.phrases.modify a fun p => { p with next := p.next ++ [b] } := by
  refine link_of_not_reaches found fun path => other (path.eq_of_leaf ?_).symm
  rw [followers_of_some found, leaf]

theorem length_of_link {s linked : Score τ} {a b : Nat} (made : s.link a b = .ok linked) :
    linked.phrases.length = s.phrases.length := by
  cases found : s.phrase? b with
  | none =>
      unfold link at made
      simp only [found] at made
      rw [← Except.ok.inj made]
  | some next =>
      by_cases path : Reaches s.phrases b a
      · rw [link_of_reaches found path] at made
        cases made
      · obtain ⟨changed, made', phrases⟩ := link_of_not_reaches found path
        rw [made'] at made
        rw [← Except.ok.inj made, phrases, List.length_modify]

end Score

namespace Draft

/-- Every handle stands for a phrase of the score. -/
def Grounded (d : Draft τ) : Prop :=
  ∀ position ∈ d.handles, position < d.score.phrases.length

theorem grounded_give {d : Draft τ} {position : Nat} (grounded : d.Grounded)
    (inside : position < d.score.phrases.length) : (d.give position).Grounded := by
  intro k member
  rcases List.mem_append.1 member with old | new
  · exact grounded k old
  · exact List.mem_singleton.1 new ▸ inside

theorem grounded_of_length {d : Draft τ} {score : Score τ} (grounded : d.Grounded)
    (more : d.score.phrases.length ≤ score.phrases.length) :
    Grounded { d with score } :=
  fun k member => Nat.lt_of_lt_of_le (grounded k member) more

theorem grounded_chain {d linked : Draft τ} {first next : Nat} (grounded : d.Grounded)
    (made : d.chain first next = .ok linked) : linked.Grounded := by
  unfold chain at made
  split at made
  · rename_i i j _ second
    split at made
    · cases made
    · rename_i score link
      have same := Score.length_of_link link
      rw [← Except.ok.inj made]
      have inside := grounded j (List.mem_of_getElem? second)
      exact grounded_give (grounded_of_length grounded (Nat.le_of_eq same.symm))
        (by simpa only [same] using inside)
  · exact Except.ok.inj made ▸ grounded

variable [Time τ]

theorem grounded_answer {d changed : Draft τ} {c : Call τ} (grounded : d.Grounded)
    (answered : d.answer c = .ok changed) : changed.Grounded := by
  cases c with
  | create track notes =>
      have longer := Score.length_add d.score track notes
      have still : Grounded { d with score := (d.score.add track notes).1 } :=
        grounded_of_length grounded (by omega)
      have inside : d.score.phrases.length < (d.score.add track notes).1.phrases.length := by
        omega
      exact Except.ok.inj answered ▸ grounded_give still inside
  | copy h =>
      rw [← Except.ok.inj answered]
      cases found : d.handles[h]? with
      | none => exact grounded
      | some i => exact grounded_give grounded (grounded i (List.mem_of_getElem? found))
  | setDelay h delay =>
      rw [← Except.ok.inj answered]
      cases found : d.handles[h]? with
      | none => exact grounded
      | some i =>
          exact grounded_of_length grounded (Nat.le_of_eq (Score.length_set_delay _ i delay).symm)
  | setAnchor h anchor =>
      rw [← Except.ok.inj answered]
      cases found : d.handles[h]? with
      | none => exact grounded
      | some i =>
          exact grounded_of_length grounded
            (Nat.le_of_eq (Score.length_set_anchor _ i anchor).symm)
  | chain first next => exact grounded_chain grounded answered

theorem grounded_after {d : Draft τ} (grounded : d.Grounded) (c : Call τ) :
    (d.after c).Grounded := by
  unfold after
  split
  · exact grounded
  · rename_i changed answered
    exact grounded_answer grounded answered

theorem grounded_run (calls : List (Call τ)) : (run calls).Grounded := by
  have kept : ∀ (d : Draft τ), d.Grounded → (calls.foldl after d).Grounded := by
    induction calls with
    | nil => exact fun _ grounded => grounded
    | cons c rest ih => exact fun d grounded => ih (d.after c) (grounded_after grounded c)
  exact kept empty fun k member => by cases member

theorem run_snoc (calls : List (Call τ)) (c : Call τ) :
    run (calls ++ [c]) = (run calls).after c := by
  simp only [run, List.foldl_append, List.foldl_cons, List.foldl_nil]

theorem after_of_ok {d changed : Draft τ} {c : Call τ} (answered : d.answer c = .ok changed) :
    d.after c = changed := by
  rw [after, answered]

theorem after_of_error {d : Draft τ} {c : Call τ} {e : CyclicPhrase}
    (refused : d.answer c = .error e) : d.after c = d := by
  rw [after, refused]

section Handles

variable {d : Draft τ} {h i : Nat} (held : d.handles[h]? = some i)

include held

theorem copy_of_handle : d.answer (.copy h) = .ok { d with handles := d.handles ++ [i] } := by
  simp only [answer, held, Option.map_some, Option.getD_some, give]

theorem set_delay_of_handle {p : Phrase τ} (found : d.score.phrase? i = some p) (delay : τ) :
    ∃ changed, d.answer (.setDelay h delay) = .ok changed ∧ changed.handles = d.handles ∧
      changed.score.phrases = d.score.phrases.set i { p with delay } := by
  refine ⟨{ d with score := d.score.setDelay i delay }, ?_, rfl, ?_⟩
  · simp only [answer, held, Option.map_some, Option.getD_some]
  · exact Score.modify_of_phrase found _

theorem set_anchor_of_handle {p : Phrase τ} (found : d.score.phrase? i = some p)
    (anchor : Anchor) :
    ∃ changed, d.answer (.setAnchor h anchor) = .ok changed ∧ changed.handles = d.handles ∧
      changed.score.phrases = d.score.phrases.set i { p with anchor } := by
  refine ⟨{ d with score := d.score.setAnchor i anchor }, ?_, rfl, ?_⟩
  · simp only [answer, held, Option.map_some, Option.getD_some]
  · exact Score.modify_of_phrase found _

end Handles

theorem chain_of_reaches {d : Draft τ} {first next i j : Nat} {follower : Phrase τ}
    (one : d.handles[first]? = some i) (two : d.handles[next]? = some j)
    (found : d.score.phrase? j = some follower) (path : Reaches d.score.phrases j i) :
    d.answer (.chain first next) = .error ⟨follower.track⟩ := by
  simp only [answer, chain, one, two, Score.link_of_reaches found path]

theorem chain_of_not_reaches {d : Draft τ} {first next i j : Nat} {leader follower : Phrase τ}
    (one : d.handles[first]? = some i) (two : d.handles[next]? = some j)
    (head : d.score.phrase? i = some leader) (found : d.score.phrase? j = some follower)
    (apart : ¬ Reaches d.score.phrases j i) :
    ∃ linked, d.answer (.chain first next) = .ok linked ∧
      linked.handles = d.handles ++ [j] ∧
      linked.score.phrases = d.score.phrases.set i { leader with next := leader.next ++ [j] } := by
  obtain ⟨score, made, phrases⟩ := Score.link_of_not_reaches found apart
  refine ⟨{ d with score }.give j, ?_, rfl, ?_⟩
  · simp only [answer, chain, one, two, made]
  · exact phrases.trans (Score.modify_of_phrase head _)

/-- What calls lead to, one call after the other. In every such state the links close no cycle. A
new phrase stands behind all others and follows none, and a handle of it is given out; a copy is one
more handle of the same phrase; a delay or an anchor is set in the phrase of the handle alone. Every
pair of handles, of one phrase or of two, is linked or refused by whether the second phrase leads to
the first. A refusal tells the track of the second phrase and changes nothing. A link adds one
follower to one phrase and gives out a handle of the second. -/
theorem chain_refused_iff_leads_back (calls : List (Call τ)) :
    let d := run calls
    Acyclic d.score.phrases ∧
      (∀ c changed, d.answer c = .ok changed → run (calls ++ [c]) = changed) ∧
      (∀ c e, d.answer c = .error e → run (calls ++ [c]) = d) ∧
      (∀ track notes, ∃ created, d.answer (.create track notes) = .ok created ∧
        created.handles = d.handles ++ [d.score.phrases.length] ∧
        created.score.phrases = d.score.phrases ++ [⟨track, notes, [], Time.zero, .finish⟩]) ∧
      (∀ h i, d.handles[h]? = some i →
        d.answer (.copy h) = .ok { d with handles := d.handles ++ [i] } ∧
        ∃ p, d.score.phrase? i = some p ∧
          (∀ delay, ∃ changed, d.answer (.setDelay h delay) = .ok changed ∧
            changed.handles = d.handles ∧
            changed.score.phrases = d.score.phrases.set i { p with delay }) ∧
          ∀ anchor, ∃ changed, d.answer (.setAnchor h anchor) = .ok changed ∧
            changed.handles = d.handles ∧
            changed.score.phrases = d.score.phrases.set i { p with anchor }) ∧
      ∀ first next i j, d.handles[first]? = some i → d.handles[next]? = some j →
        ∃ leader follower, d.score.phrase? i = some leader ∧ d.score.phrase? j = some follower ∧
          (Reaches d.score.phrases j i →
            d.answer (.chain first next) = .error ⟨follower.track⟩ ∧
              d.after (.chain first next) = d) ∧
          (¬ Reaches d.score.phrases j i →
            ∃ linked, d.answer (.chain first next) = .ok linked ∧
              linked.handles = d.handles ++ [j] ∧
              linked.score.phrases =
                d.score.phrases.set i { leader with next := leader.next ++ [j] }) := by
  intro d
  have held (h i : Nat) (handle : d.handles[h]? = some i) : ∃ p, d.score.phrase? i = some p :=
    ⟨_, List.getElem?_eq_getElem (grounded_run calls i (List.mem_of_getElem? handle))⟩
  refine ⟨d.score.acyclic_phrases, ?_, ?_, ?_, ?_, ?_⟩
  · intro c changed answered
    rw [run_snoc, after_of_ok answered]
  · intro c e refused
    rw [run_snoc, after_of_error refused]
  · exact fun track notes => ⟨_, rfl, rfl, rfl⟩
  · intro h i handle
    obtain ⟨p, found⟩ := held h i handle
    exact ⟨copy_of_handle handle, p, found, set_delay_of_handle handle found,
      set_anchor_of_handle handle found⟩
  · intro first next i j one two
    obtain ⟨leader, head⟩ := held first i one
    obtain ⟨follower, found⟩ := held next j two
    refine ⟨leader, follower, head, found, ?_, ?_⟩
    · intro path
      have refused := chain_of_reaches one two found path
      exact ⟨refused, after_of_error refused⟩
    · exact chain_of_not_reaches one two head found

def twoOfThree : List (Call Rat) :=
  [.create "lead" [], .create "bass" [], .copy 0]

/-- A link through the second handle of a phrase, and the way back refused. -/
theorem chain_there_and_not_back :
    let lead : Phrase Rat := ⟨"lead", [], [], Time.zero, .finish⟩
    let bass : Phrase Rat := ⟨"bass", [], [], Time.zero, .finish⟩
    let there := twoOfThree ++ [.chain 2 1]
    (run twoOfThree).handles = [0, 1, 0] ∧ (run there).handles = [0, 1, 0, 1] ∧
      (run there).score.phrases = [{ lead with next := [1] }, bass] ∧
      (run there).answer (.chain 3 0) = .error ⟨"lead"⟩ ∧
      run (there ++ [.chain 3 0]) = run there := by
  intro lead bass there
  have handles : (run twoOfThree).handles = [0, 1, 0] := rfl
  have phrases : (run twoOfThree).score.phrases = [lead, bass] := rfl
  have apart : ¬ Reaches (run twoOfThree).score.phrases 1 0 := by
    intro path
    cases path.eq_of_leaf rfl
  obtain ⟨_, runs, _, _, _, links⟩ := chain_refused_iff_leads_back twoOfThree
  obtain ⟨_, _, head, _, _, made⟩ := links 2 1 0 1 rfl rfl
  obtain ⟨linked, answered, more, set⟩ := made apart
  rw [← runs _ _ answered] at more set
  rw [handles] at more
  obtain rfl := Option.some.inj head
  have led : (run there).score.phrases = [{ lead with next := [1] }, bass] := set
  obtain ⟨_, _, stays, _, _, refusals⟩ := chain_refused_iff_leads_back there
  obtain ⟨_, leader, _, found, refused, _⟩ := refusals 3 0 1 0 (by rw [more]; rfl) (by rw [more]; rfl)
  have path : Reaches (run there).score.phrases 0 1 := by
    apply Reaches.step _ (Reaches.refl 1)
    rw [led]
    exact List.mem_singleton_self 1
  rw [Score.phrase?, led] at found
  obtain rfl := Option.some.inj found
  obtain ⟨back, _⟩ := refused path
  exact ⟨handles, more, led, back, stays _ _ back⟩

end Draft

end Cadenza
