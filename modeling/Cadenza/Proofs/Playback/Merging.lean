import Cadenza.Playback.Player
import Cadenza.Proofs.Timeline.Normal
import Cadenza.Proofs.Timeline.Order

/-!
# A track among all tracks

The timeline of all tracks together is sorted as a whole, and its times are relative to events of
any track. Still, the events of one track come in the order they have in a timeline of their own,
and at the same instants.
-/

namespace Cadenza

set_option autoImplicit false

variable {τ : Type}

def Event.isOn (track : Nat) (e : Event τ) : Bool :=
  e.track == some track

def Event.sound (e : Event τ) : EventKind × Int32 × UInt8 :=
  (e.kind, e.key, e.velocity)

theorem track_of_mem_merge {tracks : List (CompiledTrack τ)} {e : Event τ}
    (member : e ∈ mergeTracks tracks) : ∃ t ∈ tracks, e.track = some t.index := by
  obtain ⟨t, tIn, inside⟩ := List.mem_flatMap.1 member
  obtain ⟨own, _, rfl⟩ := List.mem_map.1 inside
  exact ⟨t, tIn, rfl⟩

theorem filter_merge_of_absent {tracks : List (CompiledTrack τ)} {track : Nat}
    (absent : track ∉ tracks.map (·.index)) : (mergeTracks tracks).filter (·.isOn track) = [] := by
  apply List.filter_eq_nil_iff.2
  intro e member on
  obtain ⟨t, tIn, owner⟩ := track_of_mem_merge member
  have same : some t.index = some track := owner ▸ beq_iff_eq.1 on
  exact absent (List.mem_map.2 ⟨t, tIn, Option.some.inj same⟩)

theorem filter_on_track (events : List (Event τ)) (track : Nat) :
    (events.map (·.onTrack track)).filter (·.isOn track) = events.map (·.onTrack track) := by
  apply List.filter_eq_self.2
  intro e member
  obtain ⟨own, _, rfl⟩ := List.mem_map.1 member
  exact beq_self_eq_true _

theorem filter_on_other {track other : Nat} (apart : track ≠ other) (events : List (Event τ)) :
    (events.map (·.onTrack track)).filter (·.isOn other) = [] := by
  apply List.filter_eq_nil_iff.2
  intro e member on
  obtain ⟨own, _, rfl⟩ := List.mem_map.1 member
  exact apart (Option.some.inj (beq_iff_eq.1 on))

/-- Tracks of different positions give back their own events. -/
theorem filter_merge {tracks : List (CompiledTrack τ)} (distinct : (tracks.map (·.index)).Nodup)
    {t : CompiledTrack τ} (member : t ∈ tracks) :
    (mergeTracks tracks).filter (·.isOn t.index) = t.events.map (·.onTrack t.index) := by
  induction tracks with
  | nil => cases member
  | cons first rest ih =>
      obtain ⟨fresh, others⟩ := List.nodup_cons.1 distinct
      have parts : mergeTracks (first :: rest) =
          first.events.map (·.onTrack first.index) ++ mergeTracks rest := List.flatMap_cons
      rw [parts, List.filter_append]
      rcases List.mem_cons.1 member with rfl | later
      · rw [filter_merge_of_absent fresh, filter_on_track, List.append_nil]
      · have apart : first.index ≠ t.index := by
          intro same
          exact fresh (List.mem_map.2 ⟨t, later, same.symm⟩)
        rw [filter_on_other apart, ih others later, List.nil_append]

theorem sounds_of_untimed {events others : List (Event τ)}
    (same : events.map Event.untimed = others.map Event.untimed) :
    events.map Event.sound = others.map Event.sound :=
  map_eq_of_untimed Event.sound (fun _ => rfl) same

theorem filter_of_untimed {events others : List (Event τ)}
    (same : events.map Event.untimed = others.map Event.untimed) (track : Nat) :
    (events.filter (·.isOn track)).map Event.untimed =
      (others.filter (·.isOn track)).map Event.untimed := by
  have through : ∀ xs : List (Event τ), (xs.filter (·.isOn track)).map Event.untimed =
      (xs.map Event.untimed).filter (·.isOn track) := by
    intro xs
    rw [List.filter_map]
    rfl
  rw [through, through, same]

variable [Time τ]

theorem track_of_mem_timeline {tempo : Tempo τ} {tracks : List (CompiledTrack τ)}
    {timeline : List (Event τ)} (normal : normalize? tempo (mergeTracks tracks) = some timeline)
    {e : Event τ} (member : e ∈ timeline) : ∃ t ∈ tracks, e.track = some t.index := by
  obtain ⟨sorted, sorts, same⟩ := untimed_normalize normal
  have listed : e.untimed ∈ sorted.map Event.untimed := same ▸ List.mem_map_of_mem member
  obtain ⟨original, inside, alike⟩ := List.mem_map.1 listed
  obtain ⟨t, tIn, owner⟩ := track_of_mem_merge ((perm_sort_events sorts).mem_iff.1 inside)
  exact ⟨t, tIn, (congrArg Event.track alike).symm.trans owner⟩

theorem compares_of_mem_merge {tracks : List (CompiledTrack τ)}
    (compare : ∀ t ∈ tracks, ∀ e ∈ t.events, Time.compares e.time = true) :
    ∀ e ∈ mergeTracks tracks, Time.compares e.time = true := by
  intro e member
  obtain ⟨t, tIn, inside⟩ := List.mem_flatMap.1 member
  obtain ⟨own, ownIn, rfl⟩ := List.mem_map.1 inside
  exact compare t tIn own ownIn

section Ordered

variable [OrderedTime τ]

theorem filter_sorted_merge {tracks : List (CompiledTrack τ)}
    (distinct : (tracks.map (·.index)).Nodup)
    (compare : ∀ t ∈ tracks, ∀ e ∈ t.events, Time.compares e.time = true)
    {t : CompiledTrack τ} (member : t ∈ tracks) :
    (sortStable Event.after (mergeTracks tracks)).filter (·.isOn t.index) =
      (sortStable Event.after t.events).map (·.onTrack t.index) := by
  rw [filter_sort_stable weak_order_after _ (compares_of_mem_merge compare),
    filter_merge distinct member]
  exact (map_sort_stable (fun _ _ => rfl) t.events).symm

end Ordered

/-- Every event at the sum of all times up to its own. -/
def elapsed (start : τ) : List (Event τ) → List (Event τ)
  | [] => []
  | e :: rest => e.withTime (start + e.time) :: elapsed (start + e.time) rest

theorem to_seconds_add (tempo : Tempo Rat) (first later : Rat) :
    tempo.toSeconds (first + later) = tempo.toSeconds first + tempo.toSeconds later := by
  change (first + later) * 4 * tempo.secondsPerBeat =
    first * 4 * tempo.secondsPerBeat + later * 4 * tempo.secondsPerBeat
  rw [Rat.add_mul, Rat.add_mul]

/-- Relative times add up to the absolute ones. -/
theorem elapsed_relative_from (tempo : Tempo Rat) (last : Rat) (events : List (Event Rat)) :
    elapsed (tempo.toSeconds last) (eventsToSeconds tempo (relativeFrom last events)) =
      eventsToSeconds tempo events := by
  induction events generalizing last with
  | nil => rfl
  | cons e rest ih =>
      have here : tempo.toSeconds last + tempo.toSeconds (e.time - last) =
          tempo.toSeconds e.time := by
        have whole : last + (e.time - last) = e.time := by
          rw [Rat.add_comm]
          exact Rat.sub_add_cancel
        rw [← to_seconds_add, whole]
      change e.withTime (tempo.toSeconds last + tempo.toSeconds (e.time - last)) ::
        elapsed (tempo.toSeconds last + tempo.toSeconds (e.time - last))
          (eventsToSeconds tempo (relativeFrom e.time rest)) = _
      rw [here, ih]
      rfl

theorem elapsed_seconds (tempo : Tempo Rat) (sorted : List (Event Rat)) :
    elapsed Time.zero (eventsToSeconds tempo (toRelative sorted)) =
      eventsToSeconds tempo sorted := by
  have start : tempo.toSeconds Time.zero = Time.zero := by
    change (0 : Rat) * 4 * tempo.secondsPerBeat = 0
    rw [Rat.zero_mul, Rat.zero_mul]
  have sums := elapsed_relative_from tempo Time.zero sorted
  rwa [start] at sums

theorem filter_seconds (tempo : Tempo τ) (events : List (Event τ)) (track : Nat) :
    (eventsToSeconds tempo events).filter (·.isOn track) =
      eventsToSeconds tempo (events.filter (·.isOn track)) :=
  List.filter_map

/-- Tracks at different positions are played as each of them is when it is alone: with finite times
an event of a track is heard as the same key going on or off, in the same order, and counted over
the rationals it comes at the same instant. -/
theorem track_plays_as_alone :
    (∀ (tempo : Tempo Float) (tracks : List (CompiledTrack Float)),
      (tracks.map (·.index)).Nodup →
      (∀ t ∈ tracks, ∀ e ∈ t.events, e.time.isFinite = true) →
      ∃ merged, normalize? tempo (mergeTracks tracks) = some merged ∧
        ∀ t ∈ tracks, ∃ alone, normalize? tempo t.events = some alone ∧
          (merged.filter (·.isOn t.index)).map Event.sound = alone.map Event.sound) ∧
    (∀ (tempo : Tempo Rat) (tracks : List (CompiledTrack Rat)),
      (tracks.map (·.index)).Nodup →
      ∃ merged, normalize? tempo (mergeTracks tracks) = some merged ∧
        ∀ t ∈ tracks, ∃ alone, normalize? tempo t.events = some alone ∧
          ((elapsed Time.zero merged).filter (·.isOn t.index)).map
              (fun e => (e.sound, e.time)) =
            (elapsed Time.zero alone).map fun e => (e.sound, e.time)) := by
  constructor
  · intro tempo tracks distinct finite
    have compare : ∀ t ∈ tracks, ∀ e ∈ t.events, Time.compares e.time = true :=
      fun t tIn e inside => compares_of_finite (finite t tIn e inside)
    refine ⟨_, normalize_of_compares tempo (compares_of_mem_merge compare), ?_⟩
    intro t member
    refine ⟨_, normalize_of_compares tempo (compare t member), ?_⟩
    rw [sounds_of_untimed (filter_of_untimed (untimed_seconds tempo _) t.index),
      sounds_of_untimed (untimed_seconds tempo _), filter_sorted_merge distinct compare member,
      List.map_map]
    rfl
  · intro tempo tracks distinct
    have compare : ∀ t ∈ tracks, ∀ e ∈ t.events, Time.compares e.time = true :=
      fun _ _ e _ => compares_rat e.time
    refine ⟨_, normalize_of_compares tempo (compares_of_mem_merge compare), ?_⟩
    intro t member
    refine ⟨_, normalize_of_compares tempo (compare t member), ?_⟩
    rw [elapsed_seconds, elapsed_seconds, filter_seconds,
      filter_sorted_merge distinct compare member, eventsToSeconds, eventsToSeconds, List.map_map,
      List.map_map, List.map_map]
    rfl

def duet (τ : Type) [Time τ] : List (CompiledTrack τ) :=
  [⟨"lead", 0, 0, [⟨.noteOn, ((0 : Nat) : τ), 60, defaultVelocity, some 0⟩,
      ⟨.noteOff, ((2 : Nat) : τ), 60, defaultVelocity, some 0⟩]⟩,
    ⟨"bass", 1, 33, [⟨.noteOn, ((1 : Nat) : τ), 36, defaultVelocity, some 1⟩,
      ⟨.noteOff, ((3 : Nat) : τ), 36, defaultVelocity, some 1⟩]⟩]

theorem duet_plays_as_alone :
    ((duet Float).map (·.index)).Nodup ∧
      (∀ t ∈ duet Float, ∀ e ∈ t.events, e.time.isFinite = true) ∧
      (∃ merged, normalize? Tempo.default (mergeTracks (duet Float)) = some merged ∧
        ∀ t ∈ duet Float, ∃ alone, normalize? Tempo.default t.events = some alone ∧
          (merged.filter (·.isOn t.index)).map Event.sound = alone.map Event.sound) ∧
      ((duet Rat).map (·.index)).Nodup ∧
      ∃ merged, normalize? Tempo.default (mergeTracks (duet Rat)) = some merged ∧
        ∀ t ∈ duet Rat, ∃ alone, normalize? Tempo.default t.events = some alone ∧
          ((elapsed Time.zero merged).filter (·.isOn t.index)).map (fun e => (e.sound, e.time)) =
            (elapsed Time.zero alone).map fun e => (e.sound, e.time) := by
  have distinct : ((duet Float).map (·.index)).Nodup := by decide
  have finite : ∀ t ∈ duet Float, ∀ e ∈ t.events, e.time.isFinite = true := by decide +kernel
  have distinct' : ((duet Rat).map (·.index)).Nodup := by decide
  obtain ⟨sounds, instants⟩ := track_plays_as_alone
  exact ⟨distinct, finite, sounds Tempo.default (duet Float) distinct finite, distinct',
    instants Tempo.default (duet Rat) distinct'⟩

end Cadenza
