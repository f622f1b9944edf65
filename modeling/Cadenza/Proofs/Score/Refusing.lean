import Cadenza.Proofs.Outcome
import Cadenza.Proofs.Phrase.Placing
import Cadenza.Proofs.Score.Reaching

/-!
# Where a layout fails

If all keys fit a word, a layout can fail in one way only: negative delays are rejected, and there
is one. The failure then tells the first of them, in the order of the unfolding, where the notes of
a phrase come before the phrase itself. When nothing fails every phrase of the unfolding gives one
entry.
-/

namespace Cadenza

set_option autoImplicit false

variable {τ : Type}

def Phrase.Keyed (p : Phrase τ) : Prop :=
  ∀ n ∈ p.notes, n.key? ≠ none

/-- The delays of a phrase in the order in which they are used, each with the track of the
phrase. -/
def Phrase.delays (p : Phrase τ) : List (TrackId × τ) :=
  p.notes.map (fun n => (p.track, n.delay)) ++ [(p.track, p.delay)]

namespace Score

section Told

variable {α : Type} {tells : Phrase τ → List α}

/-- What a phrase and all that follow it tell, depth first. -/
def toldFrom (tells : Phrase τ → List α) (s : Score τ) (i : Nat) : List α :=
  (s.unfolding i).flatMap fun j => (s.phrase? j).elim [] tells

theorem told_from_of_none {s : Score τ} {i : Nat} (missing : s.phrase? i = none) :
    s.toldFrom tells i = [] := by
  simp only [toldFrom, unfolding_of_none missing, List.flatMap_nil]

theorem told_from_of_some {s : Score τ} {i : Nat} {p : Phrase τ} (found : s.phrase? i = some p) :
    s.toldFrom tells i = tells p ++ p.next.flatMap (s.toldFrom tells) := by
  rw [toldFrom, unfolding_of_some found, List.flatMap_cons, List.flatMap_assoc, found]
  rfl

theorem mem_told_from_iff {s : Score τ} {i : Nat} {a : α} :
    a ∈ s.toldFrom tells i ↔
      ∃ j p, Reaches s.phrases i j ∧ s.phrase? j = some p ∧ a ∈ tells p := by
  rw [toldFrom, List.mem_flatMap]
  constructor
  · rintro ⟨j, inside, own⟩
    obtain ⟨path, p, found⟩ := mem_unfolding_iff.1 inside
    rw [found] at own
    exact ⟨j, p, path, found, own⟩
  · rintro ⟨j, p, path, found, own⟩
    refine ⟨j, mem_unfolding_iff.2 ⟨path, p, found⟩, ?_⟩
    rw [found]
    exact own

/-- The followers of the phrase that is taken next go before all that was pending. -/
theorem told_of_pending {s : Score τ} {first : Pending τ} {p : Phrase τ}
    (found : s.phrase? first.phrase = some p) (start finish : τ) (rest : List (Pending τ)) :
    (first :: rest).flatMap (fun q => s.toldFrom tells q.phrase) =
      tells p ++ (p.next.map (fun j => Pending.mk j start finish) ++ rest).flatMap
        (fun q => s.toldFrom tells q.phrase) := by
  rw [List.flatMap_cons, told_from_of_some found, List.flatMap_append, List.flatMap_map,
    List.append_assoc]

end Told

def tracksFrom (s : Score τ) (i : Nat) : List TrackId :=
  (s.unfolding i).filterMap s.track?

def delaysFrom (s : Score τ) (i : Nat) : List (TrackId × τ) :=
  (s.unfolding i).flatMap fun j => (s.phrase? j).elim [] Phrase.delays

theorem tracks_from_eq_told (s : Score τ) (i : Nat) :
    s.tracksFrom i = s.toldFrom (fun p => [p.track]) i := by
  rw [tracksFrom, toldFrom, List.filterMap_eq_flatMap_toList]
  refine List.flatMap_congr fun j _ => ?_
  cases found : s.phrase? j with
  | none => simp [track?, found]
  | some p => simp [track?, found]

theorem delays_from_of_none {s : Score τ} {i : Nat} (missing : s.phrase? i = none) :
    s.delaysFrom i = [] :=
  told_from_of_none missing

theorem delays_from_of_some {s : Score τ} {i : Nat} {p : Phrase τ} (found : s.phrase? i = some p) :
    s.delaysFrom i = p.delays ++ p.next.flatMap s.delaysFrom :=
  told_from_of_some found

theorem mem_tracks_from_iff {s : Score τ} {i : Nat} {track : TrackId} :
    track ∈ s.tracksFrom i ↔ ∃ j, Reaches s.phrases i j ∧ s.track? j = some track := by
  rw [tracksFrom, List.mem_filterMap]
  constructor
  · rintro ⟨j, member, own⟩
    exact ⟨j, (mem_unfolding_iff.1 member).1, own⟩
  · rintro ⟨j, path, own⟩
    obtain ⟨p, present, _⟩ := Option.map_eq_some_iff.1 own
    exact ⟨j, mem_unfolding_iff.2 ⟨path, p, present⟩, own⟩

theorem mem_delays_from_iff {s : Score τ} {i : Nat} {d : TrackId × τ} :
    d ∈ s.delaysFrom i ↔
      ∃ j p, Reaches s.phrases i j ∧ s.phrase? j = some p ∧ d ∈ p.delays :=
  mem_told_from_iff

/-- All phrases that a phrase leads to have keys that fit a word. -/
def KeyedFrom (s : Score τ) (i : Nat) : Prop :=
  ∀ j p, Reaches s.phrases i j → s.phrase? j = some p → p.Keyed

theorem keyed_from_of_keyed {s : Score τ} (keyed : ∀ p ∈ s.phrases, p.Keyed) (i : Nat) :
    s.KeyedFrom i :=
  fun _ p _ found => keyed p (List.mem_of_getElem? found)

theorem delays_of_pending {s : Score τ} {first : Pending τ} {p : Phrase τ}
    (found : s.phrase? first.phrase = some p) (start finish : τ) (rest : List (Pending τ)) :
    (first :: rest).flatMap (fun q => s.delaysFrom q.phrase) =
      p.delays ++ (p.next.map (fun j => Pending.mk j start finish) ++ rest).flatMap
        (fun q => s.delaysFrom q.phrase) :=
  told_of_pending found start finish rest

theorem keyed_of_pending {s : Score τ} {first : Pending τ} {p : Phrase τ}
    (found : s.phrase? first.phrase = some p) {rest : List (Pending τ)}
    (keyed : ∀ q ∈ first :: rest, s.KeyedFrom q.phrase) (start finish : τ) :
    p.Keyed ∧ ∀ q ∈ p.next.map (fun j => Pending.mk j start finish) ++ rest,
      s.KeyedFrom q.phrase := by
  have here := keyed first List.mem_cons_self
  refine ⟨here _ p (Reaches.refl _) found, ?_⟩
  intro q member
  rcases List.mem_append.1 member with follower | later
  · obtain ⟨j, linked, rfl⟩ := List.mem_map.1 follower
    have link : j ∈ followers s.phrases first.phrase := by
      rwa [followers_of_some found]
    exact fun k r path present => here k r (Reaches.step link path) present
  · exact keyed q (List.mem_cons_of_mem first later)

end Score

variable [Time τ]

/-- The failure at the first delay that a policy refuses. -/
def refused? (policy : DelayPolicy) (delays : List (TrackId × τ)) : Option (LayoutError τ) :=
  if policy = .reject then
    (delays.find? fun d => decide (d.2 < Time.zero)).map fun d => .negativeDelay d.1 d.2
  else none

theorem refused_append (policy : DelayPolicy) (first later : List (TrackId × τ)) :
    refused? policy (first ++ later) = (refused? policy first).or (refused? policy later) := by
  unfold refused?
  split
  · rw [List.find?_append, Option.map_or]
  · rfl

theorem refused_nil (policy : DelayPolicy) : refused? policy ([] : List (TrackId × τ)) = none := by
  unfold refused?
  split <;> rfl

theorem settled_apply (policy : DelayPolicy) (track : TrackId) (delay : τ) :
    Settled (refused? policy [(track, delay)]) (policy.apply track delay) := by
  cases policy with
  | allow => exact ⟨delay, rfl⟩
  | clamp => exact ⟨_, rfl⟩
  | reject =>
      by_cases negative : delay < Time.zero
      · simp [Settled, refused?, DelayPolicy.apply, negative]
      · simp [Settled, refused?, DelayPolicy.apply, negative]

theorem settled_place_notes {policy : DelayPolicy} {track : TrackId} {previous : Option τ}
    {time : τ} {notes : List (Note τ)} (keyed : ∀ n ∈ notes, n.key? ≠ none) :
    Settled (refused? policy (notes.map fun n => (track, n.delay)))
      (placeNotes policy track previous time notes) := by
  induction notes generalizing previous time with
  | nil =>
      rw [List.map_nil, refused_nil]
      exact ⟨_, rfl⟩
  | cons n rest ih =>
      obtain ⟨key, fits⟩ := Option.ne_none_iff_exists'.1 (keyed n List.mem_cons_self)
      have others : ∀ m ∈ rest, m.key? ≠ none := fun m member =>
        keyed m (List.mem_cons_of_mem n member)
      rw [List.map_cons, ← List.singleton_append, refused_append]
      apply (settled_apply policy track n.delay).next
      · intro e failed
        simp only [placeNotes, failed]
      · intro delay applied
        have later : Settled (refused? policy (rest.map fun n => (track, n.delay)))
            (placeNotes policy track (some n.duration)
              (n.startAfter previous time delay + n.duration) rest) := ih others
        apply later.last
        · intro e failed
          simp only [placeNotes, applied, Event.ofNote?, fits, Option.map_some, failed]
        · rintro ⟨events, last⟩ made
          exact ⟨_, place_notes_cons_of_ok applied fits made⟩

theorem settled_place {p : Phrase τ} (keyed : p.Keyed) (policy : DelayPolicy)
    (lastStart lastEnd : τ) :
    Settled (refused? policy p.delays) (p.place policy lastStart lastEnd) := by
  have notes : Settled (refused? policy (p.notes.map fun n => (p.track, n.delay)))
      (layOut policy p.track p.notes) := settled_place_notes keyed
  rw [Phrase.delays, refused_append]
  apply notes.next
  · intro e failed
    simp only [Phrase.place, failed]
  · intro laidOut made
    apply (settled_apply policy p.track p.delay).last
    · intro e failed
      simp only [Phrase.place, made, failed]
    · intro delay applied
      simp [Phrase.place, made, applied]

namespace Score

theorem settled_lay_out_from {s : Score τ} {policy : DelayPolicy} {pending : List (Pending τ)}
    (keyed : ∀ q ∈ pending, s.KeyedFrom q.phrase) :
    Settled (refused? policy (pending.flatMap fun q => s.delaysFrom q.phrase))
      (s.layOutFrom policy pending) := by
  -- Along the loop: the phrase that is taken is placed first, then its followers and all the rest.
  fun_induction layOutFrom s policy pending with
  | case1 =>
      rw [List.flatMap_nil, refused_nil]
      exact ⟨[], rfl⟩
  | case2 first rest missing ih =>
      rw [List.flatMap_cons, delays_from_of_none missing, List.nil_append]
      exact ih fun q member => keyed q (List.mem_cons_of_mem first member)
  | case3 first rest p found e failed =>
      obtain ⟨here, _⟩ := keyed_of_pending found keyed first.lastStart first.lastEnd
      rw [delays_of_pending found first.lastStart first.lastEnd, refused_append]
      exact (settled_place here policy _ _).next_of_error failed
  | case4 first rest p found placed made e failed ih =>
      obtain ⟨here, others⟩ := keyed_of_pending found keyed placed.start placed.finish
      rw [delays_of_pending found placed.start placed.finish, refused_append]
      apply (settled_place here policy _ _).next_of_ok made
      exact failed ▸ ih others
  | case5 first rest p found placed made entries finished ih =>
      obtain ⟨here, others⟩ := keyed_of_pending found keyed placed.start placed.finish
      rw [delays_of_pending found placed.start placed.finish, refused_append]
      apply (settled_place here policy _ _).next_of_ok made
      rw [(ih others).ok_iff.1 ⟨entries, finished⟩]
      exact ⟨placed.entry :: entries, rfl⟩

/-- What the entries of a layout give, if every phrase that is placed gives what it tells. -/
theorem told_of_lay_out_from {α : Type} {tells : Phrase τ → List α} {gives : Entry τ → List α}
    {s : Score τ} {policy : DelayPolicy} {pending : List (Pending τ)} {entries : List (Entry τ)}
    (given : ∀ p lastStart lastEnd placed, Phrase.place p policy lastStart lastEnd = .ok placed →
      gives placed.entry = tells p)
    (done : s.layOutFrom policy pending = .ok entries) :
    entries.flatMap gives = pending.flatMap fun q => s.toldFrom tells q.phrase := by
  fun_induction layOutFrom s policy pending generalizing entries with
  | case1 =>
      obtain rfl := Except.ok.inj done
      rfl
  | case2 first rest missing ih =>
      rw [ih done, List.flatMap_cons, told_from_of_none missing, List.nil_append]
  | case3 => cases done
  | case4 => cases done
  | case5 first rest p found placed made later finished ih =>
      obtain rfl := Except.ok.inj done
      rw [told_of_pending found placed.start placed.finish, List.flatMap_cons, ih finished,
        given p _ _ placed made]

theorem told_of_lay_out {α : Type} {tells : Phrase τ → List α} {gives : Entry τ → List α}
    {s : Score τ} {policy : DelayPolicy} {i : Nat} {lastStart lastEnd : τ}
    {entries : List (Entry τ)}
    (given : ∀ p lastStart lastEnd placed, Phrase.place p policy lastStart lastEnd = .ok placed →
      gives placed.entry = tells p)
    (done : s.layOut policy i lastStart lastEnd = .ok entries) :
    entries.flatMap gives = s.toldFrom tells i := by
  rw [told_of_lay_out_from given done, List.flatMap_singleton]

/-- A phrase is laid out with all that follow it, or the first refused delay among them is told. -/
theorem settled_lay_out {s : Score τ} {i : Nat} (keyed : s.KeyedFrom i) (policy : DelayPolicy)
    (lastStart lastEnd : τ) :
    Settled (refused? policy (s.delaysFrom i)) (s.layOut policy i lastStart lastEnd) := by
  have only : ∀ q ∈ [Pending.mk i lastStart lastEnd], s.KeyedFrom q.phrase := by
    intro q member
    rwa [List.mem_singleton.1 member]
  have settled : Settled _ (s.layOut policy i lastStart lastEnd) := settled_lay_out_from only
  rwa [List.flatMap_singleton] at settled

theorem tracks_of_lay_out {s : Score τ} {policy : DelayPolicy} {i : Nat} {lastStart lastEnd : τ}
    {entries : List (Entry τ)} (done : s.layOut policy i lastStart lastEnd = .ok entries) :
    entries.map (·.track) = s.tracksFrom i := by
  rw [tracks_from_eq_told, List.map_eq_flatMap]
  refine told_of_lay_out (fun p _ _ placed made => ?_) done
  rw [track_of_place made]

end Score

end Cadenza
