import Cadenza.Proofs.Playback.Driving
import Cadenza.Proofs.Playback.Range
import Cadenza.Proofs.Studio.Sounds

/-!
# Playbacks that are refused

A playback is refused, before anything is done, exactly if some event of some track does not fit in
MIDI. This takes that the events can be sorted: times that are no numbers can contradict the others,
and then there is no timeline to be checked. What is told is the first of the sorted events that
does not fit, which is the first in time and, of those at the same time, in the tracks.
-/

namespace Cadenza

set_option autoImplicit false

variable {τ : Type}

section Merged

theorem exists_mem_merge {tracks : List (CompiledTrack τ)} {holds : Event τ → Prop}
    (untagged : ∀ e track, holds (e.onTrack track) ↔ holds e) :
    (∃ e ∈ mergeTracks tracks, holds e) ↔ ∃ t ∈ tracks, ∃ e ∈ t.events, holds e := by
  constructor
  · rintro ⟨e, member, known⟩
    obtain ⟨t, tIn, inside⟩ := List.mem_flatMap.1 member
    obtain ⟨own, ownIn, rfl⟩ := List.mem_map.1 inside
    exact ⟨t, tIn, own, ownIn, (untagged own t.index).1 known⟩
  · rintro ⟨t, tIn, e, inside, known⟩
    have merged : e.onTrack t.index ∈ mergeTracks tracks :=
      List.mem_flatMap.2 ⟨t, tIn, List.mem_map_of_mem inside⟩
    exact ⟨e.onTrack t.index, merged, (untagged e t.index).2 known⟩

theorem find_misfit_eq_none_iff (events : List (Event τ)) :
    events.findSome? Event.misfit? = none ↔ ¬ ∃ e ∈ events, ¬ e.Fits := by
  rw [List.findSome?_eq_none_iff]
  simp only [Event.misfit_eq_none_iff, not_exists, not_and, not_not]

/-- The misfit that is found is the first of all misfits. -/
theorem filter_of_find_misfit {events : List (Event τ)} {m : Midi.OutOfRange}
    (found : events.findSome? Event.misfit? = some m) :
    ∃ e rest, (events.filter fun e => !decide e.Fits) = e :: rest ∧ e.misfit? = some m := by
  obtain ⟨front, e, back, rfl, here, before⟩ := List.findSome?_eq_some_iff.1 found
  have misfit : ¬ e.Fits := by
    intro fits
    rw [Event.misfit_eq_none_iff.2 fits] at here
    cases here
  have passed : (front.filter fun e => !decide e.Fits) = [] := by
    apply List.filter_eq_nil_iff.2
    intro y member
    simpa using Event.misfit_eq_none_iff.1 (before y member)
  refine ⟨e, back.filter fun e => !decide e.Fits, ?_, here⟩
  rw [List.filter_append, passed, List.nil_append, List.filter_cons_of_pos (by simpa using misfit)]

variable [Time τ] [OrderedTime τ]

/-- The first misfit of the sorted events, found in the list as it was. -/
theorem first_misfit {events : List (Event τ)} {m : Midi.OutOfRange}
    (compare : ∀ e ∈ events, Time.compares e.time = true)
    (found : (sortStable Event.after events).findSome? Event.misfit? = some m) :
    ∃ front e back, events = front ++ e :: back ∧ e.misfit? = some m ∧
      (∀ y ∈ front, ¬ y.Fits → e.time < y.time) ∧ ∀ y ∈ back, ¬ y.Fits → ¬ y.time < e.time := by
  obtain ⟨e, rest, sorted, here⟩ := filter_of_find_misfit found
  rw [filter_sort_stable weak_order_after _ compare] at sorted
  obtain ⟨first, last, misfits, before, behind⟩ := head_sort_stable weak_order_after
    (fun y member => compare y (List.mem_filter.1 member).1) sorted
  obtain ⟨front, others, rfl, rfl, split⟩ := List.filter_eq_append_iff.1 misfits
  obtain ⟨skipped, back, rfl, fit, _, rfl⟩ := List.filter_eq_cons_iff.1 split
  refine ⟨front ++ skipped, e, back, (List.append_assoc _ _ _).symm, here, ?_, ?_⟩
  · intro y member misfit
    have kept : (!decide y.Fits) = true := by simpa using misfit
    rcases List.mem_append.1 member with early | late
    · exact of_decide_eq_true (before y (List.mem_filter.2 ⟨early, kept⟩))
    · exact absurd kept (fit y late)
  · intro y member misfit
    have kept : (!decide y.Fits) = true := by simpa using misfit
    exact of_decide_eq_false (behind y (List.mem_filter.2 ⟨member, kept⟩))

end Merged

namespace Player

variable [Time τ] {p : Player τ} {tracks : List (CompiledTrack τ)}

theorem timeline_disorder_iff :
    p.timeline tracks = .error .disorder ↔ sortEvents? (mergeTracks tracks) = none := by
  rw [(settled_timeline p tracks).error_iff]
  cases sortEvents? (mergeTracks tracks) with
  | none => simp
  | some sorted =>
      dsimp only
      generalize sorted.findSome? Event.misfit? = found
      simp

theorem timeline_misfit_iff {m : Midi.OutOfRange} :
    p.timeline tracks = .error (.outOfRange m) ↔
      ∃ sorted, sortEvents? (mergeTracks tracks) = some sorted ∧
        sorted.findSome? Event.misfit? = some m := by
  rw [(settled_timeline p tracks).error_iff]
  cases sortEvents? (mergeTracks tracks) with
  | none => simp
  | some sorted =>
      simp only [Option.some.injEq, exists_eq_left']
      generalize sorted.findSome? Event.misfit? = found
      simp

/-- Tracks are refused for a misfit exactly if there is one and the events can be sorted. -/
theorem timeline_refused_iff (p : Player τ) (tracks : List (CompiledTrack τ)) :
    (∃ m, p.timeline tracks = .error (.outOfRange m)) ↔
      sortEvents? (mergeTracks tracks) ≠ none ∧ ∃ t ∈ tracks, ∃ e ∈ t.events, ¬ e.Fits := by
  have merged : (∃ e ∈ mergeTracks tracks, ¬ e.Fits) ↔ ∃ t ∈ tracks, ∃ e ∈ t.events, ¬ e.Fits :=
    exists_mem_merge fun _ _ => not_congr Event.fits_on_track
  simp only [timeline_misfit_iff, ← merged]
  cases sorts : sortEvents? (mergeTracks tracks) with
  | none => simp
  | some sorted =>
      have same : (∃ e ∈ sorted, ¬ e.Fits) ↔ ∃ e ∈ mergeTracks tracks, ¬ e.Fits := by
        simp only [(perm_sort_events sorts).mem_iff]
      have found := (find_misfit_eq_none_iff sorted).not_left
      simp only [Option.some.injEq, exists_eq_left', ne_eq, reduceCtorEq, not_false_eq_true,
        true_and, ← same]
      rw [← Option.ne_none_iff_exists']
      exact found

/-- What is refused is refused for want of a timeline, unless the passes outgrow their counter. -/
theorem play_error_iff {stops : Nat → Bool} {e : PlayError} (early : e ≠ .passOverflow) :
    p.play tracks stops = .error e ↔ p.timeline tracks = .error e := by
  unfold Player.play
  cases made : p.timeline tracks with
  | error other => simp
  | ok timeline =>
      dsimp only
      cases playPasses timeline p.looping stops 0 maxPasses with
      | none => simp [early.symm]
      | some run => simp

section Driven

variable {σ ρ : Type} {take : σ → SynthCall → σ} {sleep : ρ → ClockTime → Bool × ρ} {synth : σ}
  {sleeper : ρ} {e : PlayError}

theorem drive_of_refused (refused : p.timeline tracks = .error e) :
    p.drive take sleep tracks synth sleeper = ⟨.error e, synth, sleeper⟩ := by
  simp only [Player.drive, refused]

theorem drive_error_iff (early : e ≠ .passOverflow) :
    (p.drive take sleep tracks synth sleeper).result = .error e ↔ p.timeline tracks = .error e := by
  rw [(p.drive_told take sleep tracks synth sleeper).1, ← play_error_iff early]
  cases p.play tracks (p.answers sleep tracks sleeper) with
  | error other => simp [Except.map]
  | ok done => simp [Except.map]

end Driven

theorem play_refused_iff {stops : Nat → Bool} :
    (∃ m, p.play tracks stops = .error (.outOfRange m)) ↔
      sortEvents? (mergeTracks tracks) ≠ none ∧ ∃ t ∈ tracks, ∃ e ∈ t.events, ¬ e.Fits := by
  rw [← p.timeline_refused_iff tracks]
  exact exists_congr fun m => play_error_iff (by simp)

end Player

theorem sorts_of_few_or_compare [Time τ] {events : List (Event τ)}
    (few : events.length ≤ insertLength ∨ ∀ e ∈ events, Time.compares e.time = true) :
    sortEvents? events ≠ none := by
  rcases few with short | compare
  · simp [sortEvents?, short]
  · simp [sort_events_of_compares compare]

/-- A compiled piece has an event that does not fit exactly if a note that a root leads to does
not. -/
theorem Studio.misfit_of_compile_iff [Time τ] {history : List (Edit τ)} {policy : DelayPolicy}
    {tracks : List (CompiledTrack τ)} (compiled : (run history).compile policy = .ok tracks) :
    (∃ t ∈ tracks, ∃ e ∈ t.events, ¬ e.Fits) ↔
      ∃ root ∈ (run history).arrangement.roots, ∃ i p,
        Reaches (run history).score.phrases root i ∧ (run history).score.phrase? i = some p ∧
          ∃ n ∈ p.notes, ∃ key, n.key? = some key ∧
            ¬ (Midi.SevenBits key.toInt ∧ Midi.SevenBits n.velocity.toNat) := by
  have told := mem_sounds_of_compile compiled
  constructor
  · rintro ⟨t, tIn, e, inside, misfit⟩
    obtain ⟨root, rootIn, i, p, path, found, n, nIn, own⟩ :=
      (told e.sound).1 ⟨t, tIn, e, inside, rfl⟩
    obtain ⟨keyed, velocity⟩ := mem_note_sounds_iff.1 own
    refine ⟨root, rootIn, i, p, path, found, n, nIn, e.key, keyed, ?_⟩
    rwa [velocity]
  · rintro ⟨root, rootIn, i, p, path, found, n, nIn, key, keyed, misfit⟩
    have own : (.noteOn, key, n.velocity) ∈ n.sounds := mem_note_sounds_iff.2 ⟨keyed, rfl⟩
    obtain ⟨t, tIn, e, inside, same⟩ :=
      (told (.noteOn, key, n.velocity)).2 ⟨root, rootIn, i, p, path, found, n, nIn, own⟩
    obtain ⟨_, sameKey, sameVelocity⟩ :
        e.kind = .noteOn ∧ e.key = key ∧ e.velocity = n.velocity := by
      simpa [Event.sound] using same
    refine ⟨t, tIn, e, inside, ?_⟩
    rw [Event.Fits, sameKey, sameVelocity]
    exact misfit

namespace Player

/-- Take any tracks and any player. If the events of all tracks can be sorted, the playback is
refused exactly if one of them does not fit in MIDI, and if they cannot be sorted it breaks off.
Either way the synth got no call and the sleeper, which looks for a stop, was not asked. Events can
be sorted if there are no more than twenty of them, or if no time is not a number. In the latter
case the event that is told is the first in time of those that do not fit, and among those of its
time the first in the tracks; its key is told before its velocity. For tracks that were compiled
this means the keys and the velocities of all notes that a root leads to. -/
theorem misfits_refused_before_playing (p : Player Float) (tracks : List (CompiledTrack Float)) :
    (∀ stops, (p.play tracks stops = .error .disorder ↔ sortEvents? (mergeTracks tracks) = none) ∧
      ((∃ m, p.play tracks stops = .error (.outOfRange m)) ↔
        sortEvents? (mergeTracks tracks) ≠ none ∧ ∃ t ∈ tracks, ∃ e ∈ t.events, ¬ e.Fits)) ∧
    ((mergeTracks tracks).length ≤ insertLength ∨
        (∀ t ∈ tracks, ∀ e ∈ t.events, e.time.isNaN = false) →
      sortEvents? (mergeTracks tracks) ≠ none) ∧
    (∀ {σ ρ : Type} (take : σ → SynthCall → σ) (sleep : ρ → ClockTime → Bool × ρ) (synth : σ)
        (sleeper : ρ) (stops : Nat → Bool) (e : PlayError), e ≠ .passOverflow →
      ((p.drive take sleep tracks synth sleeper).result = .error e ↔
        p.play tracks stops = .error e) ∧
      (p.play tracks stops = .error e →
        p.drive take sleep tracks synth sleeper = ⟨.error e, synth, sleeper⟩)) ∧
    ((∀ t ∈ tracks, ∀ e ∈ t.events, e.time.isNaN = false) →
      ∀ stops m, p.play tracks stops = .error (.outOfRange m) →
        ∃ front e back, mergeTracks tracks = front ++ e :: back ∧ e.misfit? = some m ∧
          (∀ y ∈ front, ¬ y.Fits → e.time < y.time) ∧
          ∀ y ∈ back, ¬ y.Fits → ¬ y.time < e.time) ∧
    ∀ (history : List (Edit Float)) (policy : DelayPolicy),
      (Studio.run history).compile policy = .ok tracks →
      ∀ stops, (∃ m, p.play tracks stops = .error (.outOfRange m)) ↔
        sortEvents? (mergeTracks tracks) ≠ none ∧
        ∃ root ∈ (Studio.run history).arrangement.roots, ∃ i phrase,
          Reaches (Studio.run history).score.phrases root i ∧
          (Studio.run history).score.phrase? i = some phrase ∧
          ∃ n ∈ phrase.notes, ∃ key, n.key? = some key ∧
            ¬ (Midi.SevenBits key.toInt ∧ Midi.SevenBits n.velocity.toNat) := by
  have compare : (∀ t ∈ tracks, ∀ e ∈ t.events, e.time.isNaN = false) →
      ∀ e ∈ mergeTracks tracks, Time.compares e.time = true := fun numbers =>
    compares_of_mem_merge fun t tIn e inside => compares_iff_number.2 (numbers t tIn e inside)
  refine ⟨?_, ?_, ?_, ?_, ?_⟩
  · intro stops
    exact ⟨(play_error_iff (by simp)).trans timeline_disorder_iff, play_refused_iff⟩
  · intro sortable
    exact sorts_of_few_or_compare (sortable.imp_right compare)
  · intro σ ρ take sleep synth sleeper stops e early
    rw [drive_error_iff early, play_error_iff early]
    exact ⟨Iff.rfl, drive_of_refused⟩
  · intro numbers stops m refused
    obtain ⟨sorted, sorts, found⟩ := timeline_misfit_iff.1 ((play_error_iff (by simp)).1 refused)
    rw [sort_events_of_compares (compare numbers)] at sorts
    rw [← Option.some.inj sorts] at found
    exact first_misfit (compare numbers) found
  · intro history policy compiled stops
    rw [play_refused_iff, Studio.misfit_of_compile_iff compiled]

/-- Times that are no order: what is not a number lies between times that go up and down. -/
def restlessTimes : List Float :=
  [0, 7, 4, 1, 8, 5, 2, 9, 6, 3].map Float.ofNat ++ [0 / 0] ++
    [7, 4, 1, 8, 5, 2, 9, 6, 3, 0].map Float.ofNat

def restless (key : Int32) : List (CompiledTrack Float) :=
  [⟨"piano", 0, 0, restlessTimes.map fun time => ⟨.noteOn, time, key, defaultVelocity, none⟩⟩]

end Player

theorem Player.restless_tracks_break_off :
    let p : Player Float := ⟨⟨Float.ofNat 600⟩, false⟩
    ((∃ t ∈ restless 200, ∃ e ∈ t.events, ¬ e.Fits) ∧
      p.play (restless 200) (fun _ => false) = .error .disorder) ∧
      (¬ ∃ t ∈ restless 60, ∃ e ∈ t.events, ¬ e.Fits) ∧
        p.play (restless 60) (fun _ => false) = .error .disorder := by
  intro p
  have breaks : ∀ {tracks : List (CompiledTrack Float)}, sortEvents? (mergeTracks tracks) = none →
      p.play tracks (fun _ => false) = .error .disorder := fun unsorted =>
    (play_error_iff (by simp)).2 (timeline_disorder_iff.2 unsorted)
  have high : sortEvents? (mergeTracks (restless 200)) = none := by decide +kernel
  have fitting : sortEvents? (mergeTracks (restless 60)) = none := by decide +kernel
  exact ⟨⟨by decide +kernel, breaks high⟩, by decide +kernel, breaks fitting⟩

end Cadenza
