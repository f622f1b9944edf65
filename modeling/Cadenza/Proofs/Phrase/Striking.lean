import Cadenza.Proofs.Chord.Playing
import Cadenza.Proofs.Number.Drift
import Cadenza.Proofs.Score.Refusing
import Mathlib.Data.List.Iterate

/-!
# Struck chords

The notes of a struck chord are all anchored to a start, without a delay and with one duration. Each
of them should start with the one before it, but that start is found by taking the duration off an
end, and in doubles that may be another time. From the second note on the times stay as they are, so
a struck chord is heard at one time or at two.
-/

namespace Cadenza

set_option autoImplicit false

section Notes

variable {τ : Type} [Time τ]

structure Note.Struck (span : τ) (n : Note τ) : Prop where
  anchor : n.anchor = .start
  delay : n.delay = Time.zero
  duration : n.duration = span

theorem Voicing.struck_of_notes_from {v : Voicing τ} {span : τ} (anchored : v.anchor = .all .start)
    (undelayed : v.delay = .all Time.zero) (lasting : v.duration = .all span)
    {pitches : List Pitch} {order : List Nat} {position : Nat} {notes : List (Note τ)}
    (played : v.notesFrom pitches position order = .ok notes) :
    ∀ n ∈ notes, n.Struck span := by
  induction order generalizing position notes with
  | nil =>
      rw [← Except.ok.inj played]
      nofun
  | cons index rest ih =>
      obtain ⟨n, others, made, later, rfl⟩ := notes_from_cons_ok played
      have plays := plays_of_note made
      have duration := plays.duration
      have delay := plays.delay
      have anchor := plays.anchor
      rw [lasting] at duration
      rw [undelayed] at delay
      rw [anchored] at anchor
      intro m member
      rcases List.mem_cons.1 member with rfl | other
      · exact ⟨anchor, delay, duration⟩
      · exact ih later m other

theorem place_notes_append {policy : DelayPolicy} {track : TrackId} {previous : Option τ}
    {time last : τ} {first later : List (Note τ)} {events : List (Event τ)}
    (made : placeNotes policy track previous time (first ++ later) = .ok (events, last)) :
    ∃ before own between,
      placeNotes policy track previous time first = .ok (before, between) ∧
      placeNotes policy track ((first.getLast?.map (·.duration)).or previous) between later =
        .ok (own, last) ∧
      events = before ++ own := by
  induction first generalizing previous time events with
  | nil => exact ⟨[], events, time, rfl, made, rfl⟩
  | cons n rest ih =>
      obtain ⟨delay, start, key, others, delayed, rfl, keyed, placed, rfl⟩ :=
        place_notes_cons_ok made
      obtain ⟨before, own, between, first, second, rfl⟩ := ih placed
      refine ⟨_, own, between, place_notes_cons_of_ok delayed keyed first, ?_, rfl⟩
      rw [← second, List.getLast?_cons]
      cases rest.getLast? <;> rfl

def onsets (events : List (Event τ)) : List τ :=
  (events.filter fun e => e.kind = .noteOn).map (·.time)

end Notes

section Chords

variable {track : TrackId} {span : Float} {notes : List (Note Float)} {events : List (Event Float)}

/-- Each note of a struck chord is restarted from the one before it. -/
theorem onsets_of_struck (struck : ∀ n ∈ notes, n.Struck span) {start last : Float}
    (made : placeNotes .allow track (some span) (start + span) notes = .ok (events, last)) :
    onsets events = List.iterate (restart span) (restart span start) notes.length := by
  induction notes generalizing start events with
  | nil =>
      rw [(place_notes_nil_ok made).1]
      rfl
  | cons n rest ih =>
      obtain ⟨delay, begun, key, later, delayed, same, _, placed, rfl⟩ := place_notes_cons_ok made
      obtain ⟨anchored, undelayed, lasting⟩ := struck n List.mem_cons_self
      have restarted : begun = restart span start := by
        rw [same, ← Except.ok.inj delayed, undelayed]
        simp only [Note.startAfter, anchored, Anchor.isStart, if_true]
        rfl
      rw [lasting, restarted] at placed
      have others := ih (fun m member => struck m (List.mem_cons_of_mem n member)) placed
      rw [List.length_cons, List.iterate, ← others, ← restarted]
      rfl

theorem onsets_of_chord {previous : Option Float} {time last : Float}
    (struck : ∀ n ∈ notes, n.Struck span)
    (made : placeNotes .allow track previous time notes = .ok (events, last)) :
    ∃ first, onsets events = List.iterate (restart span) first notes.length ∧
      (previous = none → first = Time.zero) := by
  cases notes with
  | nil =>
      rw [(place_notes_nil_ok made).1]
      exact ⟨Time.zero, rfl, fun _ => rfl⟩
  | cons n rest =>
      obtain ⟨delay, begun, key, later, delayed, same, _, placed, rfl⟩ := place_notes_cons_ok made
      obtain ⟨_, undelayed, lasting⟩ := struck n List.mem_cons_self
      rw [lasting] at placed
      have others :=
        onsets_of_struck (fun m member => struck m (List.mem_cons_of_mem n member)) placed
      refine ⟨begun, ?_, ?_⟩
      · rw [List.length_cons, List.iterate, ← others]
        rfl
      · rintro rfl
        rw [same, ← Except.ok.inj delayed, undelayed]
        rfl

theorem all_restarted_iff {first : Float} {count : Nat} :
    (∀ t ∈ first :: List.replicate count (restart span first), t = first) ↔
      count = 0 ∨ restart span first = first := by
  simp only [List.forall_mem_cons, List.mem_replicate, true_and, and_imp]
  rw [or_iff_not_imp_left]
  exact ⟨fun same more => same _ more rfl, fun same t more is => is ▸ same more⟩

theorem restarted_from_zero {count : Nat}
    (finite : ∀ t ∈ List.iterate (restart span) Time.zero count, t.isFinite = true) :
    List.iterate (restart span) Time.zero count = List.replicate count Time.zero := by
  match count with
  | 0 => rfl
  | 1 => rfl
  | count + 2 =>
      have second : (restart span Time.zero).isFinite = true :=
        finite _ (by simp [List.iterate])
      exact iterate_of_fixed (restart_zero second) _

/-- Take any notes, and after them the notes of a voicing that is anchored to starts, without delays
and with one duration, as chords are struck by default. Where delays are allowed they are laid out,
if their keys fit, and as long as all times are finite doubles the chord is heard at one time or at
two: if its second note comes when its first one does, then all do, and otherwise all but the first
come together, when the second one does. Without notes before it the chord is heard at once. -/
theorem struck_chord_onsets {v : Voicing Float} (anchored : v.anchor = .all .start)
    (undelayed : v.delay = .all Time.zero) (lasting : v.duration = .all span)
    {pitches : List Pitch} {chord : List (Note Float)} (played : v.play pitches = .ok chord)
    (track : TrackId) {prior : List (Note Float)} (keyed : ∀ n ∈ prior ++ chord, n.key? ≠ none) :
    ∃ events last own, layOut .allow track (prior ++ chord) = .ok (events, last) ∧
      own = onsets (events.drop (2 * prior.length)) ∧ own.length = chord.length ∧
      ((∀ e ∈ events, e.time.isFinite = true) →
        (prior = [] → own = List.replicate chord.length Time.zero) ∧
        ∀ first ∈ own.head?,
          own = first :: List.replicate (chord.length - 1) (restart span first) ∧
          ((∀ t ∈ own, t = first) ↔ chord.length = 1 ∨ restart span first = first)) := by
  have settled : Settled _ (layOut .allow track (prior ++ chord)) := settled_place_notes keyed
  obtain ⟨⟨events, last⟩, made⟩ := settled.ok_iff.2 rfl
  obtain ⟨before, own, between, placed, placed', rfl⟩ := place_notes_append made
  have struck := Voicing.struck_of_notes_from anchored undelayed lasting played
  obtain ⟨first, iterated, alone⟩ := onsets_of_chord struck placed'
  have split : (before ++ own).drop (2 * prior.length) = own := by
    rw [← length_place_notes placed, List.drop_left]
  refine ⟨_, last, onsets own, made, by rw [split], ?_, fun finite => ?_⟩
  · rw [iterated, List.length_iterate]
  have ownFinite : ∀ t ∈ onsets own, t.isFinite = true := by
    intro t member
    obtain ⟨e, inside, rfl⟩ := List.mem_map.1 member
    exact finite e (List.mem_append_right before (List.mem_filter.1 inside).1)
  rw [iterated] at ownFinite ⊢
  constructor
  · rintro rfl
    obtain rfl := alone rfl
    exact restarted_from_zero ownFinite
  · cases chord with
    | nil => nofun
    | cons n rest =>
        rw [List.length_cons] at ownFinite ⊢
        rw [iterate_restart ownFinite]
        rintro _ ⟨⟩
        refine ⟨rfl, all_restarted_iff.trans ?_⟩
        rw [Nat.add_eq_right]

def lateNote : Note Float :=
  ⟨⟨Fin.last 11, 2⟩, defaultVelocity, 1 / 4, 1 / 4, .finish⟩

def octaves : List Pitch :=
  [⟨Fin.last 11, 3⟩, ⟨Fin.last 11, 4⟩, ⟨Fin.last 11, 5⟩]

theorem octaves_of_halves_sound_at_once :
    ∃ chord events last,
      ({ Voicing.struck with duration := .all (1 / 2) } : Voicing Float).play octaves = .ok chord ∧
      layOut .allow "piano" ([lateNote] ++ chord) = .ok (events, last) ∧
      (∀ e ∈ events, e.time.isFinite = true) ∧
      onsets (events.drop 2) = [1 / 4, 1 / 4, 1 / 4] := by
  have played : ({ Voicing.struck with duration := .all (1 / 2) } : Voicing Float).play octaves =
      .ok (octaves.map fun pitch => ⟨pitch, defaultVelocity, 1 / 2, Time.zero, .start⟩) := rfl
  obtain ⟨events, last, own, made, rfl, _, heard⟩ :=
    struck_chord_onsets rfl rfl rfl played "piano"
      (show ∀ n ∈ [lateNote] ++ _, n.key? ≠ none by decide)
  refine ⟨_, events, last, played, made, ?_⟩
  obtain ⟨rfl, rfl⟩ := Prod.mk.inj (Except.ok.inj made)
  refine ⟨by decide +kernel, ?_⟩
  obtain ⟨onsets, _⟩ := (heard (by decide +kernel)).2 (1 / 4) (by decide +kernel)
  refine onsets.trans ?_
  decide +kernel

/-- Behind that note octaves of tenths are not heard at once: all but the first come one unit in the
last place too early. -/
theorem octaves_of_tenths_fall_apart :
    ∃ chord events last,
      ({ Voicing.struck with duration := .all 0.1 } : Voicing Float).play octaves = .ok chord ∧
      layOut .allow "piano" ([lateNote] ++ chord) = .ok (events, last) ∧
      (∀ e ∈ events, e.time.isFinite = true) ∧
      onsets (events.drop 2) = [0.25, 0.24999999999999997, 0.24999999999999997] ∧
      (0.24999999999999997 : Float) ≠ 0.25 :=
  ⟨_, _, _, rfl, rfl, by decide +kernel, by decide +kernel, by decide +kernel⟩

end Chords

end Cadenza
