import Cadenza.Playback.Player
import Mathlib.Data.Finset.Filter
import Mathlib.Data.Finset.Insert
import Mathlib.Data.Finset.Erase

/-!
# What is sounding

The calls of a playback begin and end notes. What sounds is a set of keys, each on the channel that
its track plays on; tracks may share a channel. A stop ends all notes of every track, so whatever
was begun before it, nothing is left.
-/

namespace Cadenza

set_option autoImplicit false

variable {τ β : Type} [DecidableEq β]

/-- What sounds after a call, `channel` telling on which channel a track plays. -/
def soundingAfter (channel : Nat → β) (s : Finset (β × Int32)) : SynthCall → Finset (β × Int32)
  | .programSelect _ _ => s
  | .noteOn track key _ => insert (channel track, key) s
  | .noteOff track key => s.erase (channel track, key)
  | .allNotesOff track => s.filter fun voice => voice.1 ≠ channel track

def sounding (channel : Nat → β) (calls : List SynthCall) : Finset (β × Int32) :=
  calls.foldl (soundingAfter channel) ∅

/-- The calls that a playback has made when it returns. A playback that fails has made none, and one
whose passes outgrow their counter never returns. -/
def callsOnReturn? : Except PlayError (Performance τ) → Option (List SynthCall)
  | .ok p => some p.calls
  | .error .disorder => some []
  | .error (.outOfRange _) => some []
  | .error .passOverflow => none

/-- Only a call that begins a note makes it sound. -/
theorem mem_sounding_after {channel : Nat → β} {s : Finset (β × Int32)} {c : SynthCall}
    {voice : β × Int32} (sounds : voice ∈ soundingAfter channel s c) :
    voice ∈ s ∨ ∃ track key velocity, c = .noteOn track key velocity ∧
      voice = (channel track, key) := by
  cases c with
  | programSelect track instrument => exact Or.inl sounds
  | noteOn track key velocity =>
      rcases Finset.mem_insert.1 sounds with begun | old
      · exact Or.inr ⟨track, key, velocity, rfl, begun⟩
      · exact Or.inl old
  | noteOff track key => exact Or.inl (Finset.mem_erase.1 sounds).2
  | allNotesOff track => exact Or.inl (Finset.mem_filter.1 sounds).1

theorem mem_foldl_sounding {channel : Nat → β} {calls : List SynthCall} {s : Finset (β × Int32)}
    {voice : β × Int32} (sounds : voice ∈ calls.foldl (soundingAfter channel) s) :
    voice ∈ s ∨ ∃ track key velocity, .noteOn track key velocity ∈ calls ∧
      voice = (channel track, key) := by
  induction calls generalizing s with
  | nil => exact Or.inl sounds
  | cons c rest ih =>
      rcases ih sounds with before | ⟨track, key, velocity, member, same⟩
      · rcases mem_sounding_after before with old | ⟨track, key, velocity, now, same⟩
        · exact Or.inl old
        · exact Or.inr ⟨track, key, velocity, now ▸ List.mem_cons_self, same⟩
      · exact Or.inr ⟨track, key, velocity, List.mem_cons_of_mem c member, same⟩

/-- Selecting programs ends and begins no note. -/
theorem foldl_programs {channel : Nat → β} (tracks : List (CompiledTrack τ))
    (s : Finset (β × Int32)) :
    (tracks.map fun t => SynthCall.programSelect t.index t.instrument).foldl
      (soundingAfter channel) s = s := by
  induction tracks with
  | nil => rfl
  | cons t rest ih => exact ih

theorem mem_foldl_silences {channel : Nat → β} {tracks : List (CompiledTrack τ)}
    {s : Finset (β × Int32)} {voice : β × Int32} :
    voice ∈ (tracks.map fun t => SynthCall.allNotesOff t.index).foldl (soundingAfter channel) s ↔
      voice ∈ s ∧ ∀ t ∈ tracks, voice.1 ≠ channel t.index := by
  induction tracks generalizing s with
  | nil => simp
  | cons t rest ih =>
      simp only [List.map_cons, List.foldl_cons, ih, soundingAfter, Finset.mem_filter,
        List.forall_mem_cons, and_assoc]

/-- Silencing every track leaves nothing of what tracks have begun. -/
theorem foldl_silences_eq_empty {channel : Nat → β} {tracks : List (CompiledTrack τ)}
    {s : Finset (β × Int32)} (owned : ∀ voice ∈ s, ∃ t ∈ tracks, voice.1 = channel t.index) :
    (tracks.map fun t => SynthCall.allNotesOff t.index).foldl (soundingAfter channel) s = ∅ := by
  rw [Finset.eq_empty_iff_forall_notMem]
  intro voice sounds
  obtain ⟨before, others⟩ := mem_foldl_silences.1 sounds
  obtain ⟨t, member, same⟩ := owned voice before
  exact others t member same

def Act.call? : Act → Option SynthCall
  | .wait _ => none
  | .call c => some c

theorem filter_map_calls (calls : List SynthCall) :
    (calls.map Act.call).filterMap Act.call? = calls := by
  rw [List.filterMap_map]
  exact List.filterMap_some

theorem calls_eq (p : Performance τ) :
    p.calls = p.programs ++ p.body.filterMap Act.call? ++ p.silences := by
  have unfolded : p.calls = p.acts.filterMap Act.call? := by
    unfold Performance.calls
    congr 1
  rw [unfolded, Performance.acts, List.filterMap_append, List.filterMap_append, filter_map_calls,
    filter_map_calls]

variable [Time τ]

/-- A pass makes the calls of its events in turn, all of them unless it is stopped. -/
theorem calls_of_pass (stops : Nat → Bool) (waits : Nat) (events : List (Event τ)) :
    (playPass stops waits events).acts.filterMap Act.call? <+: events.map Event.call ∧
      ((playPass stops waits events).stopped = false →
        (playPass stops waits events).acts.filterMap Act.call? = events.map Event.call) := by
  induction events generalizing waits with
  | nil => exact ⟨List.nil_prefix, fun _ => rfl⟩
  | cons e rest ih =>
      obtain ⟨begun, whole⟩ := ih (waits + 1)
      unfold playPass
      by_cases now : stops waits = true
      · rw [if_pos now]
        refine ⟨List.nil_prefix, ?_⟩
        intro notStopped
        cases notStopped
      · rw [if_neg now]
        refine ⟨(List.cons_prefix_cons).2 ⟨rfl, begun⟩, ?_⟩
        intro notStopped
        exact congrArg (Event.call e :: ·) (whole notStopped)

/-- Everything that playing passes has done, if their counter did not overflow. -/
theorem play_passes_some {timeline : List (Event τ)} {looping : Bool} {stops : Nat → Bool}
    {waits room : Nat} {run : Run}
    (played : playPasses timeline looping stops waits room = some run) :
    (run = playPass stops waits timeline ∧
        (run.stopped = true ∨ (0 < room ∧ (looping = false ∨ timeline = [])))) ∨
      ∃ fewer later, room = fewer + 1 ∧ looping = true ∧ timeline ≠ [] ∧
        (playPass stops waits timeline).stopped = false ∧
        playPasses timeline looping stops (waits + timeline.length) fewer = some later ∧
        run = ⟨(playPass stops waits timeline).acts ++ later.acts, later.stopped,
          (playPass stops waits timeline).passes + later.passes,
          (playPass stops waits timeline).notes + later.notes⟩ := by
  cases room with
  | zero =>
      unfold playPasses at played
      dsimp only at played
      split at played
      · rename_i stopped
        obtain rfl := Option.some.inj played
        exact Or.inl ⟨rfl, Or.inl stopped⟩
      · cases played
  | succ fewer =>
      unfold playPasses at played
      dsimp only at played
      split at played
      · rename_i last
        obtain rfl := Option.some.inj played
        refine Or.inl ⟨rfl, ?_⟩
        simp only [Bool.or_eq_true, Bool.not_eq_true', List.isEmpty_iff] at last
        rcases last with (stopped | once) | empty
        · exact Or.inl stopped
        · exact Or.inr ⟨Nat.succ_pos fewer, Or.inl once⟩
        · exact Or.inr ⟨Nat.succ_pos fewer, Or.inr empty⟩
      · rename_i goesOn
        simp only [Bool.or_eq_true, Bool.not_eq_true', List.isEmpty_iff, not_or,
          Bool.not_eq_true, Bool.not_eq_false] at goesOn
        obtain ⟨⟨notStopped, again⟩, events⟩ := goesOn
        split at played
        · cases played
        · rename_i later laterPlayed
          obtain rfl := Option.some.inj played
          exact Or.inr ⟨fewer, later, rfl, again, events, notStopped, laterPlayed, rfl⟩

/-- Passes make no other calls than those of the timeline, and none stays unfinished if they are not
stopped: what a whole pass leaves as it was, all of them leave. -/
theorem calls_of_passes {timeline : List (Event τ)} {looping : Bool} {stops : Nat → Bool}
    {waits room : Nat} {run : Run}
    (played : playPasses timeline looping stops waits room = some run) :
    (∀ c ∈ run.acts.filterMap Act.call?, c ∈ timeline.map Event.call) ∧
      ∀ (channel : Nat → β) (s : Finset (β × Int32)),
        (timeline.map Event.call).foldl (soundingAfter channel) s = s → run.stopped = false →
          (run.acts.filterMap Act.call?).foldl (soundingAfter channel) s = s := by
  induction room using Nat.strongRecOn generalizing waits run with
  | ind room ih =>
      obtain ⟨begun, whole⟩ := calls_of_pass stops waits timeline
      obtain ⟨rfl, _⟩ | ⟨fewer, later, rfl, _, _, notStopped, laterPlayed, rfl⟩ :=
        play_passes_some played
      · refine ⟨fun c member => begun.subset member, ?_⟩
        intro channel s kept notStopped
        rw [whole notStopped]
        exact kept
      · obtain ⟨inside, kept⟩ := ih fewer (Nat.lt_succ_self fewer) laterPlayed
        simp only [List.filterMap_append, List.foldl_append, whole notStopped]
        refine ⟨?_, ?_⟩
        · intro c member
          rcases List.mem_append.1 member with first | second
          · exact first
          · exact inside c second
        · intro channel s same laterNotStopped
          rw [same]
          exact kept channel s same laterNotStopped

end Cadenza
