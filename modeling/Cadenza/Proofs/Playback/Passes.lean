import Cadenza.Proofs.Playback.Sounding
import Cadenza.Proofs.Playback.Merging

/-!
# What a playback does, from the first program to the last silence

A pass goes through the timeline until a wait is stopped, and a loop goes through it again. Counting
the waits from the start of the playback, the events played are those of the timeline taken
cyclically, as many as there are waits before the first one that is stopped.
-/

namespace Cadenza

set_option autoImplicit false

variable {τ : Type} [Time τ]

def Event.acts (e : Event τ) : List Act :=
  [.wait (ClockTime.ofSeconds e.time), .call e.call]

/-- What is done for the event that comes after `count` others in a timeline that starts over at its
end. -/
def turn (timeline : List (Event τ)) (count : Nat) : List Act :=
  match timeline[count % timeline.length]? with
  | none => []
  | some e => e.acts

def turns (timeline : List (Event τ)) (count : Nat) : List Act :=
  (List.range count).flatMap (turn timeline)

theorem turns_succ (timeline : List (Event τ)) (count : Nat) :
    turns timeline (count + 1) = turns timeline count ++ turn timeline count := by
  simp only [turns, List.range_succ, List.flatMap_append, List.flatMap_singleton]

theorem turns_add_length (timeline : List (Event τ)) (count : Nat) :
    turns timeline (timeline.length + count) =
      turns timeline timeline.length ++ turns timeline count := by
  have again : ∀ k, turn timeline (timeline.length + k) = turn timeline k := by
    intro k
    simp only [turn, Nat.add_mod_left]
  simp only [turns, List.range_add, List.flatMap_append, List.flatMap_map, again]

theorem turns_of_le {timeline : List (Event τ)} {count : Nat} (inside : count ≤ timeline.length) :
    turns timeline count = (timeline.take count).flatMap Event.acts := by
  induction count with
  | zero => rfl
  | succ count ih =>
      have below : count < timeline.length := inside
      have last : turn timeline count = timeline[count].acts := by
        simp only [turn, Nat.mod_eq_of_lt below, List.getElem?_eq_getElem below]
      rw [List.take_succ_eq_append_getElem below, List.flatMap_append, ← ih (Nat.le_of_lt below),
        List.flatMap_singleton, ← last, turns_succ]

theorem turns_length (timeline : List (Event τ)) :
    turns timeline timeline.length = timeline.flatMap Event.acts := by
  rw [turns_of_le (Nat.le_refl _), List.take_length]

/-- Waits are answered `false` before place `count`, and there `true`. -/
def StopsFirst (stops : Nat → Bool) (count : Nat) : Prop :=
  stops count = true ∧ ∀ k < count, stops k = false

theorem play_pass_of_stop {stops : Nat → Bool} {waits count : Nat} {events : List (Event τ)}
    (first : StopsFirst (fun k => stops (waits + k)) count) (inside : count < events.length) :
    playPass stops waits events = ⟨(events.take count).flatMap Event.acts, true, 0, count⟩ := by
  induction events generalizing waits count with
  | nil => cases inside
  | cons e rest ih =>
      cases count with
      | zero =>
          have now : stops waits = true := first.1
          simp [playPass, now]
      | succ count =>
          have quiet : stops waits = false := first.2 0 (Nat.succ_pos count)
          have later : StopsFirst (fun k => stops (waits + 1 + k)) count := by
            simp only [StopsFirst, Nat.add_assoc, Nat.add_comm 1]
            exact ⟨first.1, fun k below => first.2 (k + 1) (Nat.succ_lt_succ below)⟩
          simp [playPass, quiet, ih later (Nat.lt_of_succ_lt_succ inside), Event.acts]

theorem play_pass_of_quiet {stops : Nat → Bool} {waits : Nat} {events : List (Event τ)}
    (quiet : ∀ k < events.length, stops (waits + k) = false) :
    playPass stops waits events = ⟨events.flatMap Event.acts, false, 1, events.length⟩ := by
  induction events generalizing waits with
  | nil => rfl
  | cons e rest ih =>
      have now : stops waits = false := quiet 0 (Nat.succ_pos rest.length)
      have later : ∀ k < rest.length, stops (waits + 1 + k) = false := by
        intro k below
        rw [Nat.add_assoc, Nat.add_comm 1]
        exact quiet (k + 1) (Nat.succ_lt_succ below)
      simp [playPass, now, ih later, Event.acts]

/-- Passes until the first wait that is stopped, in the first pass or, in a loop, in any other for
which the counter has room. -/
theorem play_passes_of_stop {timeline : List (Event τ)} {looping : Bool} {stops : Nat → Bool}
    {waits room count : Nat} (first : StopsFirst (fun k => stops (waits + k)) count)
    (reached : count < timeline.length ∨ looping = true ∧ timeline ≠ [])
    (fits : count / timeline.length ≤ room) :
    playPasses timeline looping stops waits room =
      some ⟨turns timeline count, true, count / timeline.length, count⟩ := by
  induction room generalizing waits count with
  | zero =>
      have inside : count < timeline.length := by
        rcases reached with inside | ⟨_, events⟩
        · exact inside
        · have positive := List.length_pos_iff.2 events
          exact (Nat.div_eq_zero_iff_lt positive).1 (Nat.le_zero.1 fits)
      simp [playPasses, play_pass_of_stop first inside, turns_of_le (Nat.le_of_lt inside),
        Nat.div_eq_of_lt inside]
  | succ room ih =>
      by_cases inside : count < timeline.length
      · simp [playPasses, play_pass_of_stop first inside, turns_of_le (Nat.le_of_lt inside),
          Nat.div_eq_of_lt inside]
      · -- The stop comes in a later pass, so this one is whole and leaves `more` waits before it.
        obtain ⟨again, events⟩ := reached.resolve_left inside
        have positive := List.length_pos_iff.2 events
        obtain ⟨more, rfl⟩ := Nat.exists_eq_add_of_le (Nat.le_of_not_lt inside)
        subst again
        have quiet : ∀ k < timeline.length, stops (waits + k) = false := by
          intro k below
          exact first.2 k (Nat.lt_add_right more below)
        have later : StopsFirst (fun k => stops (waits + timeline.length + k)) more := by
          simp only [StopsFirst, Nat.add_assoc]
          exact ⟨first.1, fun k below => first.2 _ (Nat.add_lt_add_left below _)⟩
        have passes : (timeline.length + more) / timeline.length = more / timeline.length + 1 :=
          Nat.add_div_left more positive
        rw [passes] at fits
        have rest := ih later (Or.inr ⟨rfl, events⟩) (Nat.le_of_succ_le_succ fits)
        simp [playPasses, play_pass_of_quiet quiet, events, rest, passes, turns_add_length,
          turns_length, Nat.add_comm 1]

theorem play_passes_of_quiet {timeline : List (Event τ)} {looping : Bool} {stops : Nat → Bool}
    {waits room : Nat} (counted : 0 < room)
    (quiet : ∀ k < timeline.length, stops (waits + k) = false)
    (last : looping = false ∨ timeline = []) :
    playPasses timeline looping stops waits room =
      some ⟨timeline.flatMap Event.acts, false, 1, timeline.length⟩ := by
  cases room with
  | zero => cases counted
  | succ room =>
      have pass := play_pass_of_quiet quiet
      rcases last with once | rfl
      · simp [playPasses, pass, once]
      · simp [playPasses, pass]

/-- A loop that is never stopped outgrows any counter. -/
theorem play_passes_of_silent_loop {timeline : List (Event τ)} {stops : Nat → Bool}
    {waits room : Nat} (events : timeline ≠ [])
    (quiet : ∀ k < (room + 1) * timeline.length, stops (waits + k) = false) :
    playPasses timeline true stops waits room = none := by
  induction room generalizing waits with
  | zero =>
      rw [Nat.zero_add, Nat.one_mul] at quiet
      simp [playPasses, play_pass_of_quiet quiet]
  | succ room ih =>
      have now : ∀ k < timeline.length, stops (waits + k) = false := by
        intro k below
        apply quiet
        exact Nat.lt_of_lt_of_le below (Nat.le_mul_of_pos_left _ (Nat.succ_pos _))
      have later : ∀ k < (room + 1) * timeline.length,
          stops (waits + timeline.length + k) = false := by
        intro k below
        rw [Nat.add_assoc]
        apply quiet
        rw [Nat.succ_mul (room + 1), Nat.add_comm]
        exact Nat.add_lt_add_right below _
      simp [playPasses, play_pass_of_quiet now, events, ih later]

def SynthCall.isNote : SynthCall → Bool
  | .noteOn _ _ _ => true
  | .noteOff _ _ => true
  | _ => false

omit [Time τ] in
theorem is_note_call (e : Event τ) : e.call.isNote = true := by
  cases kind : e.kind <;> simp [Event.call, kind, SynthCall.isNote]

theorem count_notes_acts (events : List (Event τ)) :
    ((events.flatMap Event.acts).filterMap Act.call?).countP SynthCall.isNote = events.length := by
  induction events with
  | nil => rfl
  | cons e rest ih =>
      simp [Event.acts, List.filterMap_cons, Act.call?, is_note_call, ih]

/-- What is done once for every event is done as often as there were events. -/
theorem count_turns {f : Act → Bool} (once : ∀ e : Event τ, e.acts.countP f = 1)
    {timeline : List (Event τ)} (events : timeline ≠ []) (count : Nat) :
    (turns timeline count).countP f = count := by
  induction count with
  | zero => rfl
  | succ count ih =>
      have inside := Nat.mod_lt count (List.length_pos_iff.2 events)
      have last : turn timeline count = timeline[count % timeline.length].acts := by
        simp only [turn, List.getElem?_eq_getElem inside]
      rw [turns_succ, List.countP_append, ih, last, once]

theorem count_notes_turns {timeline : List (Event τ)} (events : timeline ≠ []) (count : Nat) :
    ((turns timeline count).filterMap Act.call?).countP SynthCall.isNote = count := by
  rw [List.countP_filterMap]
  apply count_turns _ events
  intro e
  simp [Event.acts, Act.call?, is_note_call]

/-- The programs of all tracks, then `body`, and after a stop the silences of all tracks. -/
def script (tracks : List (CompiledTrack τ)) (body : List Act) (stopped : Bool) : List Act :=
  tracks.map (fun t => .call (.programSelect t.index t.instrument)) ++ body ++
    if stopped then tracks.map fun t => .call (.allNotesOff t.index) else []

namespace Player

theorem timeline_of_normalize {p : Player τ} {tracks : List (CompiledTrack τ)}
    {timeline : List (Event τ)} (normal : normalize? p.tempo (mergeTracks tracks) = some timeline)
    (inRange : checkRange timeline = .ok ()) : p.timeline tracks = .ok timeline := by
  simp only [Player.timeline, normal, inRange]

/-- What `play` makes of passes that end. -/
theorem play_of_passes {p : Player τ} {tracks : List (CompiledTrack τ)} {stops : Nat → Bool}
    {timeline : List (Event τ)} {run : Run} (made : p.timeline tracks = .ok timeline)
    (played : playPasses timeline p.looping stops 0 maxPasses = some run) :
    ∃ done, p.play tracks stops = .ok done ∧ done.acts = script tracks run.acts run.stopped ∧
      done.calls.countP SynthCall.isNote =
        (run.acts.filterMap Act.call?).countP SynthCall.isNote ∧
      done.notes = run.notes ∧ done.passes = run.passes := by
  let done : Performance τ :=
    { timeline
      programs := tracks.map fun t => .programSelect t.index t.instrument
      body := run.acts
      silences := if run.stopped then tracks.map (.allNotesOff ·.index) else []
      stopped := run.stopped
      passes := run.passes
      notes := run.notes }
  have answer : p.play tracks stops = .ok done := by
    simp only [play, made, played, done]
  have acts : done.acts = script tracks run.acts run.stopped := by
    cases stopped : run.stopped <;>
      simp [Performance.acts, script, done, stopped, Function.comp_def]
  have programs : done.programs.countP SynthCall.isNote = 0 := by
    simp [done, SynthCall.isNote]
  have silences : done.silences.countP SynthCall.isNote = 0 := by
    cases stopped : run.stopped <;> simp [done, stopped, SynthCall.isNote]
  refine ⟨done, answer, acts, ?_, rfl, rfl⟩
  rw [calls_eq, List.countP_append, List.countP_append, programs, silences, Nat.zero_add,
    Nat.add_zero]

/-- Take any tracks, any player and any answers of the waits, where the tracks merge to a timeline
that fits in MIDI. The playback selects every program, then plays the events of the timeline
cyclically up to the first wait that is stopped, and then silences every track. If it is not to go
on at the end of the timeline and no wait before that is stopped, the timeline is played once and
nothing is silenced. There is a third case only if a loop is not stopped before its passes outgrow
their counter. -/
theorem play_follows_timeline (p : Player τ) (tracks : List (CompiledTrack τ))
    (stops : Nat → Bool) {timeline : List (Event τ)}
    (normal : normalize? p.tempo (mergeTracks tracks) = some timeline)
    (inRange : checkRange timeline = .ok ()) :
    (∀ e ∈ timeline, ∃ t ∈ tracks, e.track = some t.index) ∧
    (∀ count, StopsFirst stops count →
      (count < timeline.length ∨ p.looping = true ∧ timeline ≠ []) →
      count / timeline.length < UInt32.size →
      ∃ done, p.play tracks stops = .ok done ∧
        done.acts = script tracks (turns timeline count) true ∧
        done.calls.countP SynthCall.isNote = count ∧ done.notes = count ∧
        done.passes = count / timeline.length) ∧
    ((∀ k < timeline.length, stops k = false) → (p.looping = false ∨ timeline = []) →
      ∃ done, p.play tracks stops = .ok done ∧
        done.acts = script tracks (timeline.flatMap Event.acts) false ∧
        done.calls.countP SynthCall.isNote = timeline.length ∧ done.notes = timeline.length ∧
        done.passes = 1) ∧
    ((∀ k < UInt32.size * timeline.length, stops k = false) → p.looping = true → timeline ≠ [] →
      p.play tracks stops = .error .passOverflow) := by
  have made := timeline_of_normalize normal inRange
  refine ⟨fun e member => track_of_mem_timeline normal member, ?_, ?_, ?_⟩
  · intro count first reached fits
    have events : timeline ≠ [] := by
      rcases reached with inside | ⟨_, events⟩
      · exact List.length_pos_iff.1 (Nat.zero_lt_of_lt inside)
      · exact events
    have fromStart : StopsFirst (fun k => stops (0 + k)) count := by
      simpa only [Nat.zero_add] using first
    have played := play_passes_of_stop fromStart reached (Nat.le_pred_of_lt fits)
    obtain ⟨done, answer, acts, calls, notes, passes⟩ := play_of_passes made played
    exact ⟨done, answer, acts, calls.trans (count_notes_turns events count), notes, passes⟩
  · intro quiet last
    have counted : 0 < maxPasses := by decide
    have fromStart : ∀ k < timeline.length, stops (0 + k) = false := by
      simpa only [Nat.zero_add] using quiet
    have played := play_passes_of_quiet counted fromStart last
    obtain ⟨done, answer, acts, calls, notes, passes⟩ := play_of_passes made played
    exact ⟨done, answer, acts, calls.trans (count_notes_acts timeline), notes, passes⟩
  · intro quiet again events
    have room : maxPasses + 1 = UInt32.size := by decide
    have fromStart : ∀ k < (maxPasses + 1) * timeline.length, stops (0 + k) = false := by
      simpa only [Nat.zero_add, room] using quiet
    have endless := play_passes_of_silent_loop events fromStart
    simp only [play, made, again, endless]

def duetTimeline : List (Event Float) :=
  [⟨.noteOn, Float.ofNat 0, 60, defaultVelocity, some 0⟩,
    ⟨.noteOn, Float.ofNat 1, 36, defaultVelocity, some 1⟩,
    ⟨.noteOff, Float.ofNat 1, 60, defaultVelocity, some 0⟩,
    ⟨.noteOff, Float.ofNat 1, 36, defaultVelocity, some 1⟩]

theorem normalize_duet :
    normalize? ⟨Float.ofNat 240⟩ (mergeTracks (duet Float)) = some duetTimeline := by
  decide +kernel

theorem stopped_in_second_pass :
    let p : Player Float := ⟨⟨Float.ofNat 240⟩, true⟩
    normalize? p.tempo (mergeTracks (duet Float)) = some duetTimeline ∧
      checkRange duetTimeline = .ok () ∧
      ∃ done, p.play (duet Float) (· == 5) = .ok done ∧
        done.calls = [.programSelect 0 0, .programSelect 1 33, .noteOn 0 60 64, .noteOn 1 36 64,
          .noteOff 0 60, .noteOff 1 36, .noteOn 0 60 64, .allNotesOff 0, .allNotesOff 1] ∧
        done.notes = 5 ∧ done.passes = 1 := by
  intro p
  have inRange : checkRange duetTimeline = .ok () := by rfl
  have first : StopsFirst (· == 5) 5 := ⟨rfl, by decide⟩
  obtain ⟨_, stopped, _⟩ := play_follows_timeline p (duet Float) (· == 5) normalize_duet inRange
  obtain ⟨done, answer, acts, _, notes, passes⟩ :=
    stopped 5 first (Or.inr ⟨rfl, List.cons_ne_nil _ _⟩) (by decide)
  refine ⟨normalize_duet, inRange, done, answer, ?_, notes, passes⟩
  rw [Performance.calls, acts]
  decide +kernel

end Player

end Cadenza
