import Cadenza.Proofs.Score.Alongside
import Cadenza.Proofs.Score.Linking
import Cadenza.Proofs.Score.Refusing
import Mathlib.Algebra.Order.Ring.Rat
import Mathlib.Tactic.Linarith

/-!
# Delaying makes nothing earlier

Two scores of the same shape, that differ in their delays and in no other way, are laid out event
by event. If no delay of the first is greater than the one that matches it, then no event of the
first is later, whether notes and phrases are anchored to a start or to an end, and for negative
durations too. Clamping is a delay of this kind.
-/

namespace Cadenza

set_option autoImplicit false

structure Note.Delayed (n n' : Note Rat) : Prop where
  same : n' = { n with delay := n'.delay }
  delay : n.delay ≤ n'.delay

/-- A phrase of the same shape on the same track, no note of which comes earlier, nor itself. Its
followers match. -/
structure Phrase.Delayed (M : Nat → Nat → Prop) (p q : Phrase Rat) : Prop where
  track : q.track = p.track
  anchor : q.anchor = p.anchor
  notes : List.Forall₂ Note.Delayed p.notes q.notes
  delay : p.delay ≤ q.delay
  next : List.Forall₂ M p.next q.next

/-- Wherever positions match there are phrases that match, or none. -/
def Score.Delayed (M : Nat → Nat → Prop) (s t : Score Rat) : Prop :=
  ∀ i j, M i j → s.phrase? i = none ∧ t.phrase? j = none ∨
    ∃ p q, s.phrase? i = some p ∧ t.phrase? j = some q ∧ Phrase.Delayed M p q

structure Event.Delayed (e e' : Event Rat) : Prop where
  same : e' = { e with time := e'.time }
  time : e.time ≤ e'.time

structure Entry.Delayed (e e' : Entry Rat) : Prop where
  track : e'.track = e.track
  events : List.Forall₂ Event.Delayed e.events e'.events

theorem Note.Delayed.refl (n : Note Rat) : n.Delayed n :=
  ⟨rfl, le_rfl⟩

theorem Phrase.Delayed.refl (p : Phrase Rat) : p.Delayed Eq p :=
  ⟨rfl, rfl, List.forall₂_same.2 fun n _ => .refl n, le_rfl, List.forall₂_same.2 fun _ _ => rfl⟩

theorem Score.Delayed.refl (s : Score Rat) : s.Delayed Eq s := by
  rintro i _ rfl
  cases found : s.phrase? i with
  | none => exact .inl ⟨rfl, rfl⟩
  | some p => exact .inr ⟨p, p, rfl, rfl, .refl p⟩

theorem Event.Delayed.map_time {e e' : Event Rat} (delayed : e.Delayed e') {f g : Rat → Rat}
    (later : ∀ t t', t ≤ t' → f t ≤ g t') : (e.mapTime f).Delayed (e'.mapTime g) := by
  refine ⟨?_, later _ _ delayed.time⟩
  rw [delayed.same]
  rfl

def never (_ : LayoutError Rat) : Prop :=
  False

/-- One policy uses no delay later than another one does that is no smaller. -/
def DelayPolicy.NoLater (policy other : DelayPolicy) : Prop :=
  ∀ track delay delay', delay ≤ delay' →
    Alongside never (· ≤ ·) (policy.apply track delay) (other.apply track delay')

theorem allow_no_later_allow : DelayPolicy.allow.NoLater .allow :=
  fun _ _ _ less => .ok less

theorem apply_clamp (track : TrackId) (delay : Rat) :
    DelayPolicy.clamp.apply track delay = .ok (max delay Time.zero) := by
  refine congrArg Except.ok ?_
  split_ifs with positive
  · exact (max_eq_left positive.le).symm
  · exact (max_eq_right (not_lt.1 positive)).symm

theorem clamp_no_later_clamp : DelayPolicy.clamp.NoLater .clamp := by
  intro track delay delay' less
  rw [apply_clamp, apply_clamp]
  exact .ok (max_le_max_right _ less)

theorem allow_no_later_clamp : DelayPolicy.allow.NoLater .clamp := by
  intro track delay delay' less
  rw [apply_clamp]
  exact .ok (le_max_of_le_left less)

section Layouts

variable {policy other : DelayPolicy}

theorem start_after_delayed {n n' : Note Rat} (delayed : n.Delayed n') (previous : Option Rat)
    {time time' delay delay' : Rat} (times : time ≤ time') (delays : delay ≤ delay') :
    n.startAfter previous time delay ≤ n'.startAfter previous time' delay' := by
  have anchored : n'.anchor = n.anchor := by rw [delayed.same]
  cases previous with
  | none => exact delays
  | some duration =>
      simp only [Note.startAfter, anchored]
      split_ifs <;> linarith

theorem place_notes_delayed (noLater : policy.NoLater other) (track : TrackId)
    {notes notes' : List (Note Rat)} (delayed : List.Forall₂ Note.Delayed notes notes')
    (previous : Option Rat) {time time' : Rat} (times : time ≤ time') :
    Alongside never (fun x y => List.Forall₂ Event.Delayed x.1 y.1 ∧ x.2 ≤ y.2)
      (placeNotes policy track previous time notes)
      (placeNotes other track previous time' notes') := by
  -- Both loops look back at the same duration: taken off two ends it leaves their order as it is.
  induction delayed generalizing previous time time' with
  | nil => exact .ok ⟨.nil, times⟩
  | @cons n n' rest rest' here others ih =>
      have keys : n'.keyOrOverflow (τ := Rat) = n.keyOrOverflow := by rw [here.same]; rfl
      have durations : n'.duration = n.duration := by rw [here.same]
      have loudness : n'.velocity = n.velocity := by rw [here.same]
      rw [place_notes_cons, place_notes_cons, keys, durations, loudness]
      refine (noLater track n.delay n'.delay here.delay).next fun delay delay' delays => ?_
      refine (Alongside.same _).next ?_
      rintro key _ rfl
      have starts := start_after_delayed here previous times delays
      refine (ih (some n.duration) (add_le_add_left starts n.duration)).next ?_
      rintro ⟨later, last⟩ ⟨later', last'⟩ ⟨events, ends⟩
      exact .ok ⟨.cons ⟨rfl, starts⟩ (.cons ⟨rfl, add_le_add_left starts n.duration⟩ events), ends⟩

theorem place_delayed (noLater : policy.NoLater other) {M : Nat → Nat → Prop} {p q : Phrase Rat}
    (delayed : p.Delayed M q) {lastStart lastEnd lastStart' lastEnd' : Rat}
    (starts : lastStart ≤ lastStart') (ends : lastEnd ≤ lastEnd') :
    Alongside never (Placed.Related Entry.Delayed (· ≤ ·))
      (p.place policy lastStart lastEnd) (q.place other lastStart' lastEnd') := by
  rw [place_eq, place_eq, delayed.track, delayed.anchor]
  refine (place_notes_delayed noLater p.track delayed.notes none le_rfl).next ?_
  rintro ⟨events, duration⟩ ⟨events', duration'⟩ ⟨later, durations⟩
  refine (noLater p.track p.delay q.delay delayed.delay).next fun delay delay' delays => ?_
  have begun : (if p.anchor.isStart then lastStart else lastEnd) + delay ≤
      (if p.anchor.isStart then lastStart' else lastEnd') + delay' := by
    split_ifs <;> linarith
  refine .ok ⟨⟨rfl, ?_⟩, begun, add_le_add begun durations⟩
  refine List.forall₂_map_left_iff.2 (List.forall₂_map_right_iff.2 ?_)
  exact later.imp fun _ _ one => one.map_time fun _ _ less => add_le_add less begun

namespace Score

variable {M : Nat → Nat → Prop} {s t : Score Rat}

/-- Two layouts fail alike, or give the same entries and events, none of them earlier in the second
one. -/
def NoEarlier (first second : Except (LayoutError Rat) (List (Entry Rat))) : Prop :=
  (∃ e, first = .error e ∧ second = .error e) ∨
    ∃ entries entries', first = .ok entries ∧ second = .ok entries' ∧
      List.Forall₂ Entry.Delayed entries entries'

theorem lay_out_delayed (noLater : policy.NoLater other) (delayed : s.Delayed M t) {i j : Nat}
    (matched : M i j) {lastStart lastEnd lastStart' lastEnd' : Rat}
    (starts : lastStart ≤ lastStart') (ends : lastEnd ≤ lastEnd') :
    NoEarlier (s.layOut policy i lastStart lastEnd) (t.layOut other j lastStart' lastEnd') := by
  have outcomes : Alongside never (List.Forall₂ Entry.Delayed)
      (s.layOut policy i lastStart lastEnd) (t.layOut other j lastStart' lastEnd') := by
    refine lay_out_from_alongside (M := M) (T := (· ≤ ·)) ?_ (.cons ⟨matched, starts, ends⟩ .nil)
    intro i j link
    refine (delayed i j link).imp_right fun ⟨p, q, found, found', later⟩ =>
      ⟨p, q, found, found', later.next, ?_⟩
    exact fun _ _ _ _ starts ends => place_delayed noLater later starts ends
  exact outcomes.settled (fun _ _ => not_false) (fun _ _ => not_false)

theorem no_earlier_of_clamp (s : Score Rat) (i : Nat) (lastStart lastEnd : Rat) :
    NoEarlier (s.layOut .allow i lastStart lastEnd) (s.layOut .clamp i lastStart lastEnd) :=
  lay_out_delayed allow_no_later_clamp (.refl s) rfl le_rfl le_rfl

/-- Take two scores that match position by position, in the way `M` says: the same tracks, anchors,
followers and notes, but for the delays, each of which is at most the one that it matches. Laid out
from positions that match, after times of which the same is true, they give the same entries and
events in the same order, and no event of the second is earlier, where delays are allowed and where
they are clamped. No event of a score is earlier where its delays are clamped than where they are
allowed. Nothing fails as long as the keys fit a word. -/
theorem layout_monotone_in_delays (delayed : s.Delayed M t) {i j : Nat} (matched : M i j)
    {lastStart lastEnd lastStart' lastEnd' : Rat} (starts : lastStart ≤ lastStart')
    (ends : lastEnd ≤ lastEnd') :
    (∀ policy, policy ≠ .reject →
      NoEarlier (s.layOut policy i lastStart lastEnd) (t.layOut policy j lastStart' lastEnd')) ∧
    NoEarlier (s.layOut .allow i lastStart lastEnd) (t.layOut .clamp j lastStart' lastEnd') ∧
    (∀ k start finish,
      NoEarlier (s.layOut .allow k start finish) (s.layOut .clamp k start finish)) ∧
    (s.KeyedFrom i → ∀ policy, policy ≠ .reject →
      ∃ entries, s.layOut policy i lastStart lastEnd = .ok entries) := by
  refine ⟨?_, lay_out_delayed allow_no_later_clamp delayed matched starts ends,
    s.no_earlier_of_clamp, ?_⟩
  · intro policy taken
    cases policy with
    | allow => exact lay_out_delayed allow_no_later_allow delayed matched starts ends
    | clamp => exact lay_out_delayed clamp_no_later_clamp delayed matched starts ends
    | reject => exact absurd rfl taken
  · intro keyed policy taken
    refine (settled_lay_out keyed policy lastStart lastEnd).ok_iff.2 ?_
    rw [refused?, if_neg taken]

def hasty : Score Rat :=
  let lead : List (Note Rat) := [⟨⟨Fin.last 11, 4⟩, defaultVelocity, 1 / 2, 0, .finish⟩,
    ⟨⟨Fin.last 11, 3⟩, defaultVelocity, -1 / 4, -1 / 3, .start⟩]
  let answer : List (Note Rat) := [⟨⟨Fin.last 11, 2⟩, defaultVelocity, 1, -1, .finish⟩]
  ((empty.add "lead" lead).1.add "answer" answer).1.setDelay 1 (-1 / 2)

def calmer : Score Rat :=
  let answer : List (Note Rat) := [⟨⟨Fin.last 11, 2⟩, defaultVelocity, 1, -1 / 2, .finish⟩]
  let lead : List (Note Rat) := [⟨⟨Fin.last 11, 4⟩, defaultVelocity, 1 / 2, 0, .finish⟩,
    ⟨⟨Fin.last 11, 3⟩, defaultVelocity, -1 / 4, 1 / 5, .start⟩]
  ((empty.add "answer" answer).1.add "lead" lead).1

theorem calmer_is_no_earlier :
    ∃ s t : Score Rat, hasty.link 0 1 = .ok s ∧ calmer.link 1 0 = .ok t ∧
      s.Delayed (fun i j => i + j = 1) t ∧
      ∃ entries entries', s.layOut .allow 0 0 1 = .ok entries ∧
        t.layOut .allow 1 0 (3 / 2) = .ok entries' ∧
        List.Forall₂ Entry.Delayed entries entries' := by
  obtain ⟨s, made, phrases⟩ := link_of_leaf (s := hasty) (a := 0) (b := 1) rfl rfl nofun
  obtain ⟨t, made', phrases'⟩ := link_of_leaf (s := calmer) (a := 1) (b := 0) rfl rfl nofun
  have delayed : s.Delayed (fun i j => i + j = 1) t := by
    intro i j sum
    unfold phrase?
    rw [phrases, phrases']
    obtain ⟨rfl, rfl⟩ | ⟨rfl, rfl⟩ : i = 0 ∧ j = 1 ∨ i = 1 ∧ j = 0 := by omega
    · refine .inr ⟨_, _, rfl, rfl, rfl, rfl, ?_, ?_, ?_⟩
      · exact .cons ⟨rfl, by decide +kernel⟩ (.cons ⟨rfl, by decide +kernel⟩ .nil)
      · decide +kernel
      · exact .cons rfl .nil
    · refine .inr ⟨_, _, rfl, rfl, rfl, rfl, ?_, ?_, ?_⟩
      · exact .cons ⟨rfl, by decide +kernel⟩ .nil
      · decide +kernel
      · exact .nil
  have keyed : s.KeyedFrom 0 := by
    refine keyed_from_of_keyed ?_ 0
    rw [phrases]
    unfold Phrase.Keyed
    decide
  obtain ⟨same, _, _, fits⟩ :=
    layout_monotone_in_delays delayed (i := 0) (j := 1) rfl (le_refl (0 : Rat))
      (show (1 : Rat) ≤ 3 / 2 by decide +kernel)
  obtain ⟨entries, done⟩ := fits keyed .allow nofun
  obtain ⟨e, failed, _⟩ | plain := same .allow nofun
  · cases done.symm.trans failed
  · exact ⟨s, t, made, made', delayed, plain⟩

end Score

end Layouts

end Cadenza
