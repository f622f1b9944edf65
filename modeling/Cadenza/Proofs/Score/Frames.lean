import Cadenza.Proofs.Score.Reaching

/-!
# What a change leaves as it was

The walk and the layout of a phrase read the phrases that it reaches and no others. So a change
elsewhere leaves both as they were, and a new follower comes behind all that was laid out before
it: nothing that stands before it reaches the phrase that was linked.
-/

namespace Cadenza.Score

set_option autoImplicit false

variable {τ : Type} {s t linked changed : Score τ} {i a b : Nat} {p : Phrase τ}

/-- Two scores have the same phrases wherever the first one leads from a phrase. -/
def Agrees (s t : Score τ) (i : Nat) : Prop :=
  ∀ k, Reaches s.phrases i k → t.phrase? k = s.phrase? k

theorem Agrees.phrase (agrees : Agrees s t i) : t.phrase? i = s.phrase? i :=
  agrees i (Reaches.refl i)

theorem Agrees.follower (agrees : Agrees s t i) {j : Nat} (link : j ∈ followers s.phrases i) :
    Agrees s t j :=
  fun k path => agrees k (Reaches.step link path)

theorem unfolding_of_agrees (agrees : Agrees s t i) : t.unfolding i = s.unfolding i := by
  induction i using s.acyclic.induction with
  | _ i ih =>
      have here := agrees.phrase
      cases found : s.phrase? i with
      | none => rw [unfolding_of_none found, unfolding_of_none (here.trans found)]
      | some p =>
          rw [unfolding_of_some found, unfolding_of_some (here.trans found)]
          congr 1
          apply List.flatMap_congr
          intro j linked
          have link : j ∈ followers s.phrases i := by rwa [followers_of_some found]
          exact ih j link (agrees.follower link)

inductive ChangedAt (s : Score τ) (x : Nat) : Score τ → Prop where
  | link {y : Nat} {linked : Score τ} (made : s.link x y = .ok linked) : ChangedAt s x linked
  | delay (delay : τ) : ChangedAt s x (s.setDelay x delay)
  | anchor (anchor : Anchor) : ChangedAt s x (s.setAnchor x anchor)

theorem phrase_modify_ne {phrases : List (Phrase τ)} {f : Phrase τ → Phrase τ} {x k : Nat}
    (other : x ≠ k) : (phrases.modify x f)[k]? = phrases[k]? := by
  rw [List.getElem?_modify_ne _ _ other]

/-- A link that is made leads to no phrase that is there, or not back to its start. -/
theorem link_made (made : s.link a b = .ok linked) :
    (s.phrase? b = none ∧ linked = s) ∨ (¬ Reaches s.phrases b a ∧
      linked.phrases = s.phrases.modify a fun p => { p with next := p.next ++ [b] }) := by
  cases found : s.phrase? b with
  | none =>
      simp only [Score.link, found] at made
      exact Or.inl ⟨rfl, (Except.ok.inj made).symm⟩
  | some q =>
      by_cases path : Reaches s.phrases b a
      · rw [link_of_reaches found path] at made
        cases made
      · obtain ⟨added, made', phrases⟩ := link_of_not_reaches found path
        obtain rfl := Except.ok.inj (made'.symm.trans made)
        exact Or.inr ⟨path, phrases⟩

theorem ChangedAt.phrase_ne {x k : Nat} (change : ChangedAt s x changed) (other : x ≠ k) :
    changed.phrase? k = s.phrase? k := by
  cases change with
  | link made =>
      rcases link_made made with ⟨_, rfl⟩ | ⟨_, phrases⟩
      · rfl
      · rw [phrase?, phrases]
        exact phrase_modify_ne other
  | delay => exact phrase_modify_ne other
  | anchor => exact phrase_modify_ne other

theorem ChangedAt.agrees {x : Nat} (change : ChangedAt s x changed)
    (apart : ¬ Reaches s.phrases i x) : Agrees s changed i := by
  intro k path
  apply change.phrase_ne
  rintro rfl
  exact apart path

section Linked

/-- What stands behind a phrase does not lead back to it, so linking there changes none of it. -/
theorem follower_agrees_of_link (found : s.phrase? a = some p) (made : s.link a b = .ok linked)
    {j : Nat} (listed : j ∈ p.next) : Agrees s linked j := by
  have link : j ∈ followers s.phrases a := by rwa [followers_of_some found]
  exact (ChangedAt.link made).agrees (s.acyclic_phrases a j link)

variable {q : Phrase τ} (found : s.phrase? a = some p) (present : s.phrase? b = some q)
  (made : s.link a b = .ok linked)

include present made in
theorem apart_of_link : ¬ Reaches s.phrases b a ∧
    linked.phrases = s.phrases.modify a fun p => { p with next := p.next ++ [b] } := by
  rcases link_made made with ⟨missing, _⟩ | added
  · rw [missing] at present
    cases present
  · exact added

include present made in
theorem linked_agrees_behind : Agrees s linked b :=
  (ChangedAt.link made).agrees (apart_of_link present made).1

include found present made in
theorem phrase_of_link : linked.phrase? a = some { p with next := p.next ++ [b] } := by
  have listed : s.phrases[a]? = some p := found
  rw [phrase?, (apart_of_link present made).2, List.getElem?_modify_eq, listed]
  rfl

include found present made in
theorem unfolding_of_link : linked.unfolding a = s.unfolding a ++ s.unfolding b := by
  have before : p.next.flatMap linked.unfolding = p.next.flatMap s.unfolding :=
    List.flatMap_congr fun j listed =>
      unfolding_of_agrees (follower_agrees_of_link found made listed)
  have behind := unfolding_of_agrees (linked_agrees_behind present made)
  rw [unfolding_of_some (phrase_of_link found present made), unfolding_of_some found,
    List.flatMap_append, before, List.flatMap_singleton, behind, List.cons_append]

end Linked

variable [Time τ]

theorem meaning_of_agrees (agrees : Agrees s t i) (policy : DelayPolicy) (lastStart lastEnd : τ) :
    t.meaning policy i lastStart lastEnd = s.meaning policy i lastStart lastEnd := by
  induction i using s.acyclic.induction generalizing lastStart lastEnd with
  | _ i ih =>
      have here := agrees.phrase
      cases found : s.phrase? i with
      | none => rw [meaning_of_none found, meaning_of_none (here.trans found)]
      | some p =>
          rw [meaning_of_some found, meaning_of_some (here.trans found)]
          have later : ∀ start finish, p.next.map (fun j => t.meaning policy j start finish) =
              p.next.map fun j => s.meaning policy j start finish := by
            intro start finish
            apply List.map_congr_left
            intro j linked
            have link : j ∈ followers s.phrases i := by rwa [followers_of_some found]
            exact ih j link (agrees.follower link) start finish
          simp only [later]

theorem lay_out_of_agrees (agrees : Agrees s t i) (policy : DelayPolicy) (lastStart lastEnd : τ) :
    t.layOut policy i lastStart lastEnd = s.layOut policy i lastStart lastEnd := by
  rw [lay_out_eq_meaning, lay_out_eq_meaning, meaning_of_agrees agrees]

/-- What is laid out after a phrase `p` that is itself placed after one that lasted from `lastStart`
to `lastEnd`. -/
def layOutBehind (s : Score τ) (policy : DelayPolicy) (p : Phrase τ) (lastStart lastEnd : τ)
    (b : Nat) : Except (LayoutError τ) (List (Entry τ)) :=
  match p.place policy lastStart lastEnd with
  | .error e => .error e
  | .ok placed => s.layOut policy b placed.start placed.finish

/-- The layout of a phrase and of all that followed it before comes first, and then the new
follower, which is placed after the phrase itself. -/
theorem lay_out_of_link {q : Phrase τ} (found : s.phrase? a = some p)
    (present : s.phrase? b = some q) (made : s.link a b = .ok linked) (policy : DelayPolicy)
    (lastStart lastEnd : τ) :
    linked.layOut policy a lastStart lastEnd = followedBy (s.layOut policy a lastStart lastEnd)
      (s.layOutBehind policy p lastStart lastEnd b) := by
  have same : Phrase.place { p with next := p.next ++ [b] } policy lastStart lastEnd =
      p.place policy lastStart lastEnd := rfl
  rw [lay_out_eq_meaning, lay_out_eq_meaning, meaning_of_some found, layOutBehind,
    meaning_of_some (phrase_of_link found present made), same]
  cases p.place policy lastStart lastEnd with
  | error e => rfl
  | ok placed =>
      have before : p.next.map (fun j => linked.meaning policy j placed.start placed.finish) =
          p.next.map fun j => s.meaning policy j placed.start placed.finish := by
        apply List.map_congr_left
        intro j listed
        exact meaning_of_agrees (follower_agrees_of_link found made listed) ..
      have behind := meaning_of_agrees (linked_agrees_behind present made) policy placed.start
        placed.finish
      have last : concatLayouts [s.meaning policy b placed.start placed.finish] =
          s.layOut policy b placed.start placed.finish := by
        rw [lay_out_eq_meaning]
        exact followed_by_ok_nil _
      simp only [List.map_append, List.map_cons, List.map_nil, before, behind,
        concat_layouts_append, last, followed_by_assoc]

/-- Linking lays out nothing anew. Where a phrase `b` is let follow a phrase `a`, the walk and the
layout of `a` are what they were, and then those of `b`, placed after `a` itself; a failure of the
first part comes first. A change at a phrase that is not reached, be it a link, a delay or an
anchor, leaves the walk and the layout as they were. So it is for the new follower, which does not
lead back to `a`. -/
theorem links_lay_out_behind (s : Score τ) :
    (∀ a b p q linked, s.phrase? a = some p → s.phrase? b = some q → s.link a b = .ok linked →
      linked.walk a = s.walk a ++ s.walk b ∧
        (∀ policy lastStart lastEnd, linked.layOut policy a lastStart lastEnd =
          followedBy (s.layOut policy a lastStart lastEnd)
            (s.layOutBehind policy p lastStart lastEnd b)) ∧
        linked.walk b = s.walk b ∧
        ∀ policy lastStart lastEnd,
          linked.layOut policy b lastStart lastEnd = s.layOut policy b lastStart lastEnd) ∧
    ∀ i x changed, ¬ Reaches s.phrases i x → s.ChangedAt x changed →
      changed.walk i = s.walk i ∧
        ∀ policy lastStart lastEnd,
          changed.layOut policy i lastStart lastEnd = s.layOut policy i lastStart lastEnd := by
  constructor
  · intro a b p q linked found present made
    have behind := linked_agrees_behind present made
    simp only [walk_eq_unfolding]
    exact ⟨unfolding_of_link found present made, lay_out_of_link found present made,
      unfolding_of_agrees behind, lay_out_of_agrees behind⟩
  · intro i x changed apart change
    have agrees := change.agrees apart
    simp only [walk_eq_unfolding]
    exact ⟨unfolding_of_agrees agrees, lay_out_of_agrees agrees⟩

def leadPhrase : Phrase Float :=
  ⟨"lead", [⟨⟨Fin.last 11, 5⟩, defaultVelocity, 1, 0, .finish⟩], [], Time.zero, .finish⟩

def leadAndBass : Score Float :=
  ((empty.add leadPhrase.track leadPhrase.notes).1.add "bass"
    [⟨⟨Fin.last 11, 2⟩, defaultVelocity, 2, 0, .finish⟩]).1

/-- A link puts the second phrase behind the first, and before it a delay of the second phrase
changes nothing in the layout of the first. -/
theorem bass_laid_out_behind_lead :
    let lead : Entry Float := ⟨"lead", [⟨.noteOn, 0, 83, 64, none⟩, ⟨.noteOff, 1, 83, 64, none⟩]⟩
    let bass : Entry Float := ⟨"bass", [⟨.noteOn, 1, 47, 64, none⟩, ⟨.noteOff, 3, 47, 64, none⟩]⟩
    ∃ linked, leadAndBass.link 0 1 = .ok linked ∧ linked.walk 0 = [0, 1] ∧
      linked.layOut .allow 0 0 0 = .ok [lead, bass] ∧
      (leadAndBass.setDelay 1 4).layOut .allow 0 0 0 = .ok [lead] := by
  intro lead bass
  have apart : ¬ Reaches leadAndBass.phrases 0 1 := by
    intro path
    cases path.eq_of_leaf rfl
  have before : leadAndBass.layOut .allow 0 0 0 = .ok [lead] := by
    rw [lay_out_eq_meaning, meaning_of_some rfl]
    decide +kernel
  have behind : leadAndBass.layOut .allow 1 0 1 = .ok [bass] := by
    rw [lay_out_eq_meaning, meaning_of_some rfl]
    decide +kernel
  obtain ⟨linked, made, _⟩ := link_of_leaf (s := leadAndBass) (a := 0) (b := 1) rfl rfl nofun
  obtain ⟨links, changes⟩ := links_lay_out_behind leadAndBass
  obtain ⟨walk, layOut, _⟩ := links 0 1 leadPhrase _ linked rfl rfl made
  obtain ⟨_, still⟩ := changes 0 1 _ apart (.delay 4)
  refine ⟨linked, made, ?_, ?_, ?_⟩
  · rw [walk, walk_eq_unfolding, walk_eq_unfolding, unfolding_of_some rfl, unfolding_of_some rfl]
    rfl
  · have placed : leadPhrase.place .allow 0 0 = .ok ⟨lead, 0, 1⟩ := by decide +kernel
    rw [layOut, before]
    simp only [layOutBehind, placed, behind]
    rfl
  · rw [still, before]

end Cadenza.Score
