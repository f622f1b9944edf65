import Cadenza.Proofs.Number.Doubles
import Cadenza.Proofs.Score.Refusing

/-!
# What the delay policies have in common

All three policies lay out the same phrases in the same order. A policy that takes a delay as it is
and another one that takes it changed give the same layout once the delays of the score are changed
in that way. So clamping is allowing in a score without negative delays, and what is not rejected
is allowed.
-/

namespace Cadenza

set_option autoImplicit false

variable {τ : Type}

def Note.mapDelay (f : τ → τ) (n : Note τ) : Note τ :=
  n.withDelay (f n.delay)

def Phrase.mapDelays (f : τ → τ) (p : Phrase τ) : Phrase τ :=
  { p with notes := p.notes.map (·.mapDelay f), delay := f p.delay }

theorem Phrase.map_delays_id (p : Phrase τ) : p.mapDelays id = p := by
  have notes : p.notes.map (·.mapDelay id) = p.notes := List.map_id p.notes
  rw [Phrase.mapDelays, notes]
  rfl

theorem phrase_map_delays (f : τ → τ) (phrases : List (Phrase τ)) (i : Nat) :
    (phrases.map (·.mapDelays f))[i]? = (phrases[i]?).map (·.mapDelays f) :=
  List.getElem?_map

theorem followers_map_delays (f : τ → τ) (phrases : List (Phrase τ)) (i : Nat) :
    followers (phrases.map (·.mapDelays f)) i = followers phrases i := by
  rw [followers, followers, phrase_map_delays, Option.map_map]
  rfl

namespace Score

def mapDelays (s : Score τ) (f : τ → τ) : Score τ where
  phrases := s.phrases.map (·.mapDelays f)
  acyclic := by
    apply well_founded_of_followers s.acyclic
    intro i j link
    rwa [followers_map_delays] at link

theorem map_delays_id (s : Score τ) : s.mapDelays id = s := by
  have phrases : s.phrases.map (·.mapDelays id) = s.phrases := by
    rw [funext Phrase.map_delays_id]
    exact List.map_id s.phrases
  cases s
  simpa only [mapDelays, mk.injEq] using phrases

theorem phrase_of_map_delays {s : Score τ} {i : Nat} {p : Phrase τ} (found : s.phrase? i = some p)
    (f : τ → τ) : (s.mapDelays f).phrase? i = some (p.mapDelays f) := by
  have listed : s.phrases[i]? = some p := found
  change (s.phrases.map (·.mapDelays f))[i]? = _
  rw [phrase_map_delays, listed, Option.map_some]

theorem phrase_of_map_delays_none {s : Score τ} {i : Nat} (missing : s.phrase? i = none)
    (f : τ → τ) : (s.mapDelays f).phrase? i = none := by
  have listed : s.phrases[i]? = none := missing
  change (s.phrases.map (·.mapDelays f))[i]? = _
  rw [phrase_map_delays, listed, Option.map_none]

end Score

variable [Time τ]

/-- A delay that `policy` takes as another one is taken as that one by `other` after the change. -/
def DelayPolicy.Follows (other policy : DelayPolicy) (f : τ → τ) : Prop :=
  ∀ track delay used, policy.apply track delay = .ok used → other.apply track (f delay) = .ok used

section Followed

variable {policy other : DelayPolicy} {f : τ → τ}

theorem place_notes_of_follows (follows : other.Follows policy f) {track : TrackId}
    {previous : Option τ} {time last : τ} {notes : List (Note τ)} {events : List (Event τ)}
    (made : placeNotes policy track previous time notes = .ok (events, last)) :
    placeNotes other track previous time (notes.map (·.mapDelay f)) = .ok (events, last) := by
  induction notes generalizing previous time events with
  | nil =>
      obtain ⟨rfl, rfl⟩ := place_notes_nil_ok made
      rfl
  | cons n rest ih =>
      obtain ⟨delay, start, key, later, applied, rfl, fits, placed, rfl⟩ :=
        place_notes_cons_ok made
      have delayed : other.apply track (n.mapDelay f).delay = .ok delay :=
        follows track n.delay delay applied
      have keyed : (n.mapDelay f).key? = some key := fits
      exact place_notes_cons_of_ok delayed keyed (ih placed)

theorem place_of_follows (follows : other.Follows policy f) {p : Phrase τ}
    {lastStart lastEnd : τ} {placed : Placed τ}
    (made : p.place policy lastStart lastEnd = .ok placed) :
    (p.mapDelays f).place other lastStart lastEnd = .ok placed := by
  obtain ⟨events, duration, delay, laidOut, applied, begun, ended, entry⟩ := place_ok made
  have notes : layOut other (p.mapDelays f).track (p.mapDelays f).notes = .ok (events, duration) :=
    place_notes_of_follows follows laidOut
  have delayed : other.apply (p.mapDelays f).track (p.mapDelays f).delay = .ok delay :=
    follows p.track p.delay delay applied
  rw [place_of_ok notes delayed begun]
  change Except.ok (Placed.mk ⟨p.track, _⟩ _ _) = _
  rw [← entry, ← ended]

theorem Score.lay_out_from_of_follows (follows : other.Follows policy f) {s : Score τ}
    {pending : List (Pending τ)} {entries : List (Entry τ)}
    (done : s.layOutFrom policy pending = .ok entries) :
    (s.mapDelays f).layOutFrom other pending = .ok entries := by
  -- Along the loop of the first layout; the second one takes the same phrase at every turn.
  fun_induction layOutFrom s policy pending generalizing entries with
  | case1 =>
      rw [layOutFrom]
      exact done
  | case2 first rest missing ih =>
      rw [lay_out_from_of_none (phrase_of_map_delays_none missing f)]
      exact ih done
  | case3 => cases done
  | case4 => cases done
  | case5 first rest p found placed made others finished ih =>
      rw [← done]
      exact lay_out_from_of_ok (phrase_of_map_delays found f) (place_of_follows follows made)
        (ih finished)

theorem Score.lay_out_of_follows (follows : other.Follows policy f) {s : Score τ} {i : Nat}
    {lastStart lastEnd : τ} {entries : List (Entry τ)}
    (done : s.layOut policy i lastStart lastEnd = .ok entries) :
    (s.mapDelays f).layOut other i lastStart lastEnd = .ok entries :=
  lay_out_from_of_follows follows done

end Followed

theorem allow_follows_reject : DelayPolicy.allow.Follows .reject (id : τ → τ) := by
  intro track delay used applied
  by_cases negative : delay < Time.zero
  · simp [DelayPolicy.apply, negative] at applied
  · simpa [DelayPolicy.apply, negative] using applied

namespace Score

/-- A layout is rejected for a negative delay and for nothing else. -/
theorem rejected_iff_negative {s : Score τ} {i : Nat} (keyed : s.KeyedFrom i)
    (lastStart lastEnd : τ) :
    (∃ e, s.layOut .reject i lastStart lastEnd = .error e) ↔
      ∃ j p, Reaches s.phrases i j ∧ s.phrase? j = some p ∧
        ((∃ n ∈ p.notes, n.delay < Time.zero) ∨ p.delay < Time.zero) := by
  have settled := settled_lay_out keyed .reject lastStart lastEnd
  have own : ∀ p : Phrase τ, (∃ d ∈ p.delays, d.2 < Time.zero) ↔
      (∃ n ∈ p.notes, n.delay < Time.zero) ∨ p.delay < Time.zero := by
    intro p
    simp [Phrase.delays, or_and_right, exists_or]
  simp only [settled.error_iff, refused?, if_pos, Option.map_eq_some_iff]
  constructor
  · rintro ⟨e, d, first, _⟩
    obtain ⟨j, p, path, found, listed⟩ := mem_delays_from_iff.1 (List.mem_of_find?_eq_some first)
    have negative := List.find?_some first
    exact ⟨j, p, path, found, (own p).1 ⟨d, listed, of_decide_eq_true negative⟩⟩
  · rintro ⟨j, p, path, found, negative⟩
    obtain ⟨d, listed, below⟩ := (own p).2 negative
    have inside : d ∈ s.delaysFrom i := mem_delays_from_iff.2 ⟨j, p, path, found, listed⟩
    have any : ((s.delaysFrom i).find? fun d => decide (d.2 < Time.zero)).isSome :=
      List.find?_isSome.2 ⟨d, inside, decide_eq_true below⟩
    obtain ⟨first, told⟩ := Option.isSome_iff_exists.1 any
    exact ⟨_, first, told, rfl⟩

end Score

/-- The greater of two doubles. One that is no number gives way to the other one, and of two zeros
the second is taken. -/
def greater (x y : Float) : Float :=
  if y < x ∨ y.isNaN = true then x else y

theorem allow_follows_clamp :
    DelayPolicy.allow.Follows .clamp fun delay => greater delay Time.zero := by
  intro track delay used applied
  have number : (Time.zero : Float).isNaN = false := by decide
  have same : greater delay Time.zero = if Time.zero < delay then delay else Time.zero := by
    rw [greater, number]
    simp only [Bool.false_eq_true, or_false]
  rw [← applied]
  exact congrArg Except.ok same

namespace Score

/-- For every score, with keys that fit a word, every phrase of it and every time it is placed
after. Where delays are allowed or clamped nothing fails, neither the notes of a phrase alone.
Rejecting fails exactly if a delay of a note or a phrase that is reached is less than zero, and
tells the first of them, depth first, the notes of a phrase in turn before the phrase. What is not
rejected is laid out as it is where delays are allowed. Clamped, a score is laid out as it is where
delays are allowed after each one was replaced by the greater of it and zero. What is no number is
not less than zero, and neither is the zero with a sign. -/
theorem policies_differ_in_delays_only (s : Score Float) {i : Nat} (keyed : s.KeyedFrom i)
    (lastStart lastEnd : Float) :
    (∃ entries, s.layOut .allow i lastStart lastEnd = .ok entries) ∧
      (∃ entries, s.layOut .clamp i lastStart lastEnd = .ok entries) ∧
      (∀ j p, Reaches s.phrases i j → s.phrase? j = some p →
        ∃ laidOut, Cadenza.layOut .allow p.track p.notes = .ok laidOut) ∧
      ((∃ e, s.layOut .reject i lastStart lastEnd = .error e) ↔
        ∃ j p, Reaches s.phrases i j ∧ s.phrase? j = some p ∧
          ((∃ n ∈ p.notes, n.delay < Time.zero) ∨ p.delay < Time.zero)) ∧
      (∀ e, s.layOut .reject i lastStart lastEnd = .error e ↔
        ∃ track delay, e = .negativeDelay track delay ∧
          (s.delaysFrom i).find? (fun d => decide (d.2 < Time.zero)) = some (track, delay)) ∧
      (∀ entries, s.layOut .reject i lastStart lastEnd = .ok entries →
        s.layOut .allow i lastStart lastEnd = .ok entries) ∧
      s.layOut .clamp i lastStart lastEnd =
        (s.mapDelays fun delay => greater delay Time.zero).layOut .allow i lastStart lastEnd ∧
      (∀ delay : Float, delay.isNaN = true → ¬ delay < Time.zero) ∧
      ¬ (-Time.zero : Float) < Time.zero := by
  have clamped := (settled_lay_out keyed .clamp lastStart lastEnd).ok_iff.2 rfl
  refine ⟨(settled_lay_out keyed .allow lastStart lastEnd).ok_iff.2 rfl, clamped, ?_,
    rejected_iff_negative keyed lastStart lastEnd, ?_, ?_, ?_, ?_, by decide⟩
  · intro j p path found
    have notes : Settled (refused? .allow (p.notes.map fun n => (p.track, n.delay)))
        (Cadenza.layOut .allow p.track p.notes) := settled_place_notes (keyed j p path found)
    exact notes.ok_iff.2 rfl
  · intro e
    rw [(settled_lay_out keyed .reject lastStart lastEnd).error_iff, refused?, if_pos rfl,
      Option.map_eq_some_iff]
    constructor
    · rintro ⟨d, first, rfl⟩
      exact ⟨d.1, d.2, rfl, first⟩
    · rintro ⟨track, delay, rfl, first⟩
      exact ⟨(track, delay), first, rfl⟩
  · intro entries done
    have allowed := lay_out_of_follows allow_follows_reject done
    rwa [map_delays_id] at allowed
  · obtain ⟨entries, done⟩ := clamped
    rw [done, lay_out_of_follows allow_follows_clamp done]
  · intro delay none less
    rw [(float_lt_iff.1 less).1] at none
    cases none

def uneasyLead : List (Note Float) :=
  [⟨⟨Fin.last 11, 4⟩, defaultVelocity, 1, 0 / 0, .finish⟩,
    ⟨⟨Fin.last 11, 4⟩, defaultVelocity, 1, -0, .start⟩]

def uneasyBass : List (Note Float) :=
  [⟨⟨Fin.last 11, 2⟩, defaultVelocity, 1, -2, .finish⟩]

def uneasy : Score Float :=
  ((Score.empty.add "lead" uneasyLead).1.add "bass" uneasyBass).1.setDelay 1 (-1)

theorem rejected_behind_uneasy_delays :
    ∃ s : Score Float, uneasy.link 0 1 = .ok s ∧ s.KeyedFrom 0 ∧
      s.layOut .reject 0 0 0 = .error (.negativeDelay "bass" (-2)) ∧
      (∃ entries, s.layOut .allow 0 0 0 = .ok entries) ∧
      s.layOut .clamp 0 0 0 =
        (s.mapDelays fun delay => greater delay Time.zero).layOut .allow 0 0 0 := by
  obtain ⟨s, made, phrases⟩ := link_of_leaf (s := uneasy) (a := 0) (b := 1) rfl rfl nofun
  have keyed : s.KeyedFrom 0 := by
    intro j p _ found
    have listed : ∀ q ∈ s.phrases, ∀ n ∈ q.notes, n.key? ≠ none := by
      rw [phrases]
      decide
    exact listed p (List.mem_of_getElem? found)
  have lead : s.phrase? 0 = some ⟨"lead", uneasyLead, [1], 0, .finish⟩ := by
    change s.phrases[0]? = _
    rw [phrases]
    rfl
  have bass : s.phrase? 1 = some ⟨"bass", uneasyBass, [], -1, .finish⟩ := by
    change s.phrases[1]? = _
    rw [phrases]
    rfl
  have delays : s.delaysFrom 0 =
      [("lead", 0 / 0), ("lead", -0), ("lead", 0), ("bass", -2), ("bass", -1)] := by
    rw [delays_from_of_some lead]
    simp only [List.flatMap_cons, List.flatMap_nil, delays_from_of_some bass]
    rfl
  obtain ⟨allowed, _, _, _, rejected, _, clamped, _⟩ := s.policies_differ_in_delays_only keyed 0 0
  refine ⟨s, made, keyed, (rejected _).2 ⟨"bass", -2, rfl, ?_⟩, allowed, clamped⟩
  rw [delays]
  decide

end Score

end Cadenza
