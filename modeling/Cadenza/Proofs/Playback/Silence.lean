import Cadenza.Proofs.Arrangement
import Cadenza.Proofs.Playback.Merging
import Cadenza.Proofs.Playback.Sounding
import Cadenza.Proofs.Score.Unfolding
import Cadenza.Proofs.Timeline.Closing

/-!
# Every playback ends in silence

The events of compiled tracks are notes in pairs, and so they are when all tracks are merged.
Sorting closes every note, so a whole pass ends in silence if it begins in silence. A stop may come
inside a note, but then every track is silenced.
-/

namespace Cadenza

set_option autoImplicit false

section Voices

variable {τ β : Type} [DecidableEq β]

/-- Where an event sounds: its key on the channel of its track. -/
def Event.voice (channel : Nat → β) (e : Event τ) : β × Int32 :=
  (channel (e.track.getD 0), e.key)

theorem sounding_after_on {channel : Nat → β} {s : Finset (β × Int32)} {e : Event τ}
    (begins : e.kind = .noteOn) : soundingAfter channel s e.call = insert (e.voice channel) s := by
  simp only [Event.call, begins, soundingAfter, Event.voice]

theorem sounding_after_off {channel : Nat → β} {s : Finset (β × Int32)} {e : Event τ}
    (ends : e.kind = .noteOff) : soundingAfter channel s e.call = s.erase (e.voice channel) := by
  simp only [Event.call, ends, soundingAfter, Event.voice]

/-- What still sounds is ended by what comes later. -/
theorem ended_of_closed {channel : Nat → β} {ended : β × Int32 → Prop} {backwards : List (Event τ)}
    (closed : Closed (Event.voice channel) ended backwards) {voice : β × Int32}
    (sounds : voice ∈ sounding channel (backwards.reverse.map Event.call)) : ended voice := by
  induction backwards generalizing ended with
  | nil => cases sounds
  | cons e earlier ih =>
      unfold sounding at ih sounds
      rw [List.reverse_cons, List.map_append, List.foldl_append] at sounds
      simp only [List.map_cons, List.map_nil, List.foldl_cons, List.foldl_nil] at sounds
      cases kind : e.kind with
      | noteOn =>
          rw [closed_cons_on kind] at closed
          rw [sounding_after_on kind] at sounds
          rcases Finset.mem_insert.1 sounds with now | before
          · exact now ▸ closed.1
          · exact ih closed.2 before
      | noteOff =>
          rw [closed_cons_off kind] at closed
          rw [sounding_after_off kind] at sounds
          obtain ⟨other, before⟩ := Finset.mem_erase.1 sounds
          rcases ih closed before with same | old
          · exact absurd same other
          · exact old

end Voices

section Timelines

variable {τ : Type} [Time τ]

theorem map_call_normalize {tempo : Tempo τ} {events timeline : List (Event τ)}
    (done : normalize? tempo events = some timeline) :
    ∃ sorted, sortEvents? events = some sorted ∧
      timeline.map Event.call = sorted.map Event.call := by
  obtain ⟨sorted, sorts, same⟩ := untimed_normalize done
  exact ⟨sorted, sorts, map_eq_of_untimed Event.call (fun _ => rfl) same⟩

/-- A whole timeline of notes in pairs ends in silence. -/
theorem sounding_timeline {β : Type} [DecidableEq β] (channel : Nat → β) {tempo : Tempo τ}
    {events timeline : List (Event τ)} (paired : Paired events)
    (compare : ∀ e ∈ events, Time.compares e.time = true)
    (done : normalize? tempo events = some timeline) :
    sounding channel (timeline.map Event.call) = ∅ := by
  obtain ⟨sorted, sorts, calls⟩ := map_call_normalize done
  rw [sort_events_of_compares compare] at sorts
  have closed :
      Closed (Event.voice channel) (fun _ => False) (insertAll Event.after [] events) := by
    refine closed_insert_all ?_ paired trivial
    intro x y key track
    rw [Event.voice, Event.voice, key, track]
  rw [calls, ← Option.some.inj sorts, sortStable, Finset.eq_empty_iff_forall_notMem]
  intro voice sounds
  exact ended_of_closed closed sounds

/-- Every note of the timeline is on a track that a stop silences. -/
theorem track_of_call {tempo : Tempo τ} {tracks : List (CompiledTrack τ)}
    {timeline : List (Event τ)} (done : normalize? tempo (mergeTracks tracks) = some timeline)
    {track : Nat} {key : Int32} {velocity : UInt8}
    (member : .noteOn track key velocity ∈ timeline.map Event.call) :
    ∃ t ∈ tracks, track = t.index := by
  obtain ⟨sorted, sorts, calls⟩ := map_call_normalize done
  rw [calls] at member
  obtain ⟨e, inside, same⟩ := List.mem_map.1 member
  obtain ⟨t, tIn, owner⟩ := track_of_mem_merge ((perm_sort_events sorts).mem_iff.1 inside)
  refine ⟨t, tIn, ?_⟩
  unfold Event.call at same
  split at same
  · obtain ⟨rfl, _, _⟩ := SynthCall.noteOn.inj same
    rw [owner]
    rfl
  · cases same

theorem timeline_ok {player : Player τ} {tracks : List (CompiledTrack τ)}
    {timeline : List (Event τ)} (done : player.timeline tracks = .ok timeline) :
    normalize? player.tempo (mergeTracks tracks) = some timeline := by
  unfold Player.timeline at done
  split at done
  · cases done
  · rename_i found normalized
    split at done
    · cases done
    · rw [← Except.ok.inj done]
      exact normalized

/-- A playback of notes in pairs ends in silence, however it ends. -/
theorem sounding_play {β : Type} [DecidableEq β] (channel : Nat → β) (player : Player τ)
    {tracks : List (CompiledTrack τ)} (stops : Nat → Bool) (paired : Paired (mergeTracks tracks))
    (compare : ∀ e ∈ mergeTracks tracks, Time.compares e.time = true) {calls : List SynthCall}
    (returns : callsOnReturn? (player.play tracks stops) = some calls) :
    sounding channel calls = ∅ := by
  unfold Player.play at returns
  split at returns
  · rename_i e failed
    cases e with
    | passOverflow => cases returns
    | _ => rw [← Option.some.inj returns]; rfl
  · rename_i timeline made
    have normalized := timeline_ok made
    split at returns
    · cases returns
    · rename_i run played
      obtain ⟨inside, kept⟩ := calls_of_passes (β := β) played
      rw [← Option.some.inj returns, calls_eq]
      unfold sounding
      rw [List.foldl_append, List.foldl_append, foldl_programs]
      by_cases stopped : run.stopped = true
      · rw [if_pos stopped]
        refine foldl_silences_eq_empty ?_
        intro voice sounds
        rcases mem_foldl_sounding sounds with before | ⟨track, key, velocity, member, same⟩
        · cases before
        · obtain ⟨t, tIn, owner⟩ := track_of_call normalized (inside _ member)
          exact ⟨t, tIn, by rw [same, owner]⟩
      · rw [if_neg stopped]
        have whole := sounding_timeline channel paired compare normalized
        exact kept channel ∅ whole (Bool.not_eq_true _ ▸ stopped)

end Timelines

namespace Studio

/-- No phrase that a root leads to has a note of negative duration. -/
def Lasting (s : Studio Float) : Prop :=
  ∀ root ∈ s.arrangement.roots, ∀ i p, Reaches s.score.phrases root i →
    s.score.phrase? i = some p → ∀ n ∈ p.notes, Time.zero ≤ n.duration

/-- Compiled tracks hold notes in pairs, and so do all of them together. -/
theorem paired_merge_of_compile {history : List (Edit Float)} {policy : DelayPolicy}
    {tracks : List (CompiledTrack Float)} (lasting : (run history).Lasting)
    (compiled : (run history).compile policy = .ok tracks) : Paired (mergeTracks tracks) := by
  obtain ⟨layouts, rooted, _, same⟩ := Arrangement.compile_ok (distinct_run history) compiled
  have paired : ∀ layout ∈ layouts, ∀ e ∈ layout, Paired e.events := by
    intro layout layoutIn e member
    have listed : (.ok layout : Except (LayoutError Float) _) ∈ layouts.map .ok :=
      List.mem_map_of_mem layoutIn
    rw [← rooted] at listed
    obtain ⟨root, rootIn, laidOut⟩ := List.mem_map.1 listed
    obtain ⟨q, only, i, p, _, _, placed, path, found, made, rfl⟩ :=
      Score.placed_of_lay_out_from laidOut member
    rw [List.mem_singleton.1 only] at path
    exact paired_place made (lasting root rootIn i p path found)
  have tracked : ∀ t ∈ tracks, Paired t.events := by
    intro t member
    rw [same] at member
    obtain ⟨registered, _, rfl⟩ := List.mem_map.1 member
    refine Paired.on_track (Paired.flat_map fun layout layoutIn => ?_) _
    refine Paired.flat_map fun e member => ?_
    exact paired layout layoutIn e (List.mem_filter.1 member).1
  exact Paired.flat_map fun t member => (tracked t member).on_track t.index

/-- Take any history of edits, any delay policy under which it compiles to finite times, notes that
last no negative time, any tempo and any way in which the waits are stopped. When a playback
returns, after its last pass, by a stop inside a pass or between two, or by a failure, nothing is
sounding: neither with a channel for each track, nor with the sixteen that tracks share in MIDI. -/
theorem playback_ends_in_silence (history : List (Edit Float)) (policy : DelayPolicy)
    (player : Player Float) (stops : Nat → Bool) {tracks : List (CompiledTrack Float)}
    {calls : List SynthCall} (lasting : (run history).Lasting)
    (compiled : (run history).compile policy = .ok tracks)
    (finite : ∀ t ∈ tracks, ∀ e ∈ t.events, e.time.isFinite = true)
    (returns : callsOnReturn? (player.play tracks stops) = some calls) :
    sounding id calls = ∅ ∧ sounding Synth.midiChannel calls = ∅ := by
  have paired := paired_merge_of_compile lasting compiled
  have compare : ∀ e ∈ mergeTracks tracks, Time.compares e.time = true := by
    intro e member
    obtain ⟨t, tIn, inside⟩ := List.mem_flatMap.1 member
    obtain ⟨own, ownIn, rfl⟩ := List.mem_map.1 inside
    exact compares_of_finite (finite t tIn own ownIn)
  exact ⟨sounding_play id player stops paired compare returns,
    sounding_play Synth.midiChannel player stops paired compare returns⟩

def onePhrase : Phrase Float :=
  ⟨"piano", [⟨⟨Fin.last 11, 4⟩, defaultVelocity, Float.ofNat 1, Time.zero, .finish⟩], [], Time.zero,
    .finish⟩

def oneScore : Score Float :=
  (Score.empty.add onePhrase.track onePhrase.notes).1

def oneNote : List (Edit Float) :=
  [.register "piano" 0, .add onePhrase.track onePhrase.notes, .attach 0]

theorem run_one_note : run oneNote = ⟨oneScore, ⟨[("piano", 0)], [0]⟩⟩ := by
  have before : run (oneNote.take 2) = ⟨oneScore, ⟨[("piano", 0)], []⟩⟩ := rfl
  have found : oneScore.phrase? 0 = some onePhrase := rfl
  have walk : oneScore.walk 0 = [0] := by
    rw [Score.walk_eq_unfolding, Score.unfolding_of_some found]
    rfl
  have attached : (run (oneNote.take 2)).edit (.attach 0) =
      .ok ⟨oneScore, ⟨[("piano", 0)], [0]⟩⟩ := by
    rw [before]
    simp [edit, Arrangement.attach, Arrangement.firstUnknown, walk, found, Arrangement.registered,
      onePhrase]
  change (run (oneNote.take 2)).after (.attach 0) = _
  rw [after, attached]

def oneTrack : CompiledTrack Float :=
  ⟨"piano", 0, 0, [⟨.noteOn, Time.zero, 71, defaultVelocity, some 0⟩,
    ⟨.noteOff, Float.ofNat 1, 71, defaultVelocity, some 0⟩]⟩

theorem compile_one_note : (run oneNote).compile .allow = .ok [oneTrack] := by
  let layout : List (Entry Float) :=
    [⟨"piano", oneTrack.events.map fun e => { e with track := none }⟩]
  have laidOut : oneScore.layOut .allow 0 Time.zero Time.zero = .ok layout := by
    have found : oneScore.phrase? 0 = some onePhrase := rfl
    rw [Score.lay_out_eq_meaning, Score.meaning_of_some found]
    rfl
  have distinct := distinct_run oneNote
  rw [run_one_note] at distinct ⊢
  have rooted : [0].map (fun root => oneScore.layOut .allow root Time.zero Time.zero) =
      [layout].map .ok := congrArg (fun made => [made]) laidOut
  exact (Arrangement.compile_eq_ok_iff distinct).2 ⟨[layout], rooted, by decide, rfl⟩

theorem silence_after_stop_inside_note :
    let calls := [.programSelect 0 0, .noteOn 0 71 64, .noteOff 0 71, .noteOn 0 71 64,
      .allNotesOff 0]
    (run oneNote).compile .allow = .ok [oneTrack] ∧
      callsOnReturn? (Player.play ⟨Tempo.default, true⟩ [oneTrack] (· == 3)) = some calls ∧
      sounding id calls = ∅ ∧ sounding Synth.midiChannel calls = ∅ := by
  intro calls
  have lasting : (run oneNote).Lasting := by
    rw [run_one_note]
    intro root _ i p _ found n member
    cases i with
    | zero =>
        obtain rfl := Option.some.inj found
        obtain rfl := List.mem_singleton.1 member
        decide +kernel
    | succ i => cases found
  have finite : ∀ t ∈ [oneTrack], ∀ e ∈ t.events, e.time.isFinite = true := by decide +kernel
  have returns : callsOnReturn? (Player.play ⟨Tempo.default, true⟩ [oneTrack] (· == 3)) =
      some calls := by decide +kernel
  exact ⟨compile_one_note, returns, playback_ends_in_silence oneNote .allow _ _ lasting
    compile_one_note finite returns⟩

end Studio

end Cadenza
