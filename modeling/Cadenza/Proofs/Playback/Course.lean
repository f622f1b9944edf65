import Cadenza.Playback.Thread
import Cadenza.Proofs.Playback.Passes

/-!
# The course of a playback in a thread of its own

Whatever the moves of a history, the thread has always done a first part of what its playback does:
the programs, the events of the timeline taken cyclically, and after a stop the silences. Where it
stands tells how far it is. When it ends it has done what playing does that is given the same
answers when it waits.
-/

namespace Cadenza

set_option autoImplicit false

variable {τ : Type}

namespace Happening

def ofAct : Act → Happening
  | .wait time => .waited time
  | .call c => .call c

def act? : Happening → Option Act
  | .call c => some (.call c)
  | .waited time => some (.wait time)
  | .stopped => none

def isNote : Happening → Bool
  | .call c => c.isNote
  | _ => false

theorem filter_map_act (acts : List Act) : (acts.map ofAct).filterMap act? = acts := by
  have back : ∀ a, act? (ofAct a) = some a := by
    intro a
    cases a <;> rfl
  rw [List.filterMap_map]
  exact (List.filterMap_congr fun a _ => back a).trans List.filterMap_some

end Happening

namespace Thread

def opening (tracks : List (CompiledTrack τ)) : List Happening :=
  tracks.map fun t => .call (.programSelect t.index t.instrument)

def closing (tracks : List (CompiledTrack τ)) : List Happening :=
  tracks.map fun t => .call (.allNotesOff t.index)

/-- After so many passes and notes the rest of the timeline is next. Only a loop makes passes after
the first one. -/
structure Reached (timeline : List (Event τ)) (looping : Bool) (passes notes : Nat)
    (rest : List (Event τ)) : Prop where
  place : ∃ k ≤ timeline.length, rest = timeline.drop k ∧ notes = passes * timeline.length + k
  counted : passes ≤ Player.maxPasses
  again : passes = 0 ∨ looping = true ∧ timeline ≠ []

namespace Reached

variable {timeline : List (Event τ)} {looping : Bool} {passes notes : Nat} {e : Event τ}
  {rest : List (Event τ)}

theorem place_of_cons (reached : Reached timeline looping passes notes (e :: rest)) :
    ∃ k < timeline.length, e :: rest = timeline.drop k ∧
      notes = passes * timeline.length + k := by
  obtain ⟨k, inside, left, count⟩ := reached.place
  refine ⟨k, ?_, left, count⟩
  by_contra outside
  rw [List.drop_eq_nil_of_le (Nat.le_of_not_lt outside)] at left
  cases left

theorem next (reached : Reached timeline looping passes notes (e :: rest)) :
    Reached timeline looping passes (notes + 1) rest := by
  obtain ⟨k, below, left, count⟩ := reached.place_of_cons
  have tail : rest = timeline.drop (k + 1) := by
    rw [← List.tail_drop, ← left, List.tail_cons]
  exact ⟨⟨k + 1, below, tail, by omega⟩, reached.counted, reached.again⟩

theorem notes_of_nil (reached : Reached timeline looping passes notes []) :
    notes = (passes + 1) * timeline.length := by
  obtain ⟨k, inside, left, count⟩ := reached.place
  have whole : timeline.length ≤ k := List.drop_eq_nil_iff.1 left.symm
  have same : k = timeline.length := Nat.le_antisymm inside whole
  rw [count, same, Nat.succ_mul]

theorem start_over (reached : Reached timeline looping passes notes [])
    (room : passes ≠ Player.maxPasses) (loops : looping = true ∧ timeline ≠ []) :
    Reached timeline looping (passes + 1) notes timeline := by
  have counted := reached.counted
  exact ⟨⟨0, Nat.zero_le _, rfl, reached.notes_of_nil⟩, by omega, Or.inr loops⟩

theorem first_pass (reached : Reached timeline looping passes notes rest)
    (last : looping = false ∨ timeline = []) : passes = 0 := by
  rcases reached.again with first | ⟨loops, events⟩
  · exact first
  · rcases last with once | empty
    · rw [loops] at once
      cases once
    · exact absurd empty events

theorem events_of_cons (reached : Reached timeline looping passes notes (e :: rest)) :
    timeline ≠ [] := by
  obtain ⟨k, below, _, _⟩ := reached.place_of_cons
  exact List.ne_nil_of_length_pos (Nat.zero_lt_of_lt below)

theorem events_or_none (reached : Reached timeline looping passes notes rest) :
    timeline ≠ [] ∨ notes = 0 := by
  obtain ⟨k, inside, _, count⟩ := reached.place
  by_cases empty : timeline = []
  · apply Or.inr
    rw [empty, List.length_nil] at inside count
    omega
  · exact Or.inl empty

theorem rest_of_notes (reached : Reached timeline looping passes notes rest)
    (first : passes = 0) (whole : notes = timeline.length) : rest = [] := by
  obtain ⟨k, _, left, count⟩ := reached.place
  have all : k = timeline.length := by
    rw [first, Nat.zero_mul, Nat.zero_add] at count
    rw [← count, whole]
  rw [left, all, List.drop_length]

theorem passes_eq (reached : Reached timeline looping passes notes (e :: rest)) :
    notes / timeline.length = passes := by
  obtain ⟨k, below, _, count⟩ := reached.place_of_cons
  have positive := Nat.zero_lt_of_lt below
  rw [count, Nat.add_comm, Nat.add_mul_div_right _ _ positive, Nat.div_eq_of_lt below,
    Nat.zero_add]

theorem lt_or_loops (reached : Reached timeline looping passes notes (e :: rest)) :
    notes < timeline.length ∨ looping = true ∧ timeline ≠ [] := by
  obtain ⟨k, below, _, count⟩ := reached.place_of_cons
  rcases reached.again with first | loops
  · apply Or.inl
    rwa [count, first, Nat.zero_mul, Nat.zero_add]
  · exact Or.inr loops

/-- The next event is the one that the cyclic timeline has at this place. -/
theorem turn_eq [Time τ] (reached : Reached timeline looping passes notes (e :: rest)) :
    Cadenza.turn timeline notes = e.acts := by
  obtain ⟨k, below, left, count⟩ := reached.place_of_cons
  have head : timeline[k]? = some e := by
    rw [← List.head?_drop, ← left, List.head?_cons]
  have place : notes % timeline.length = k := by
    rw [count, Nat.add_comm, Nat.add_mul_mod_self_right, Nat.mod_eq_of_lt below]
  simp only [Cadenza.turn, place, head]

end Reached

variable [Time τ]

/-- What happens for the first `count` events of a timeline that starts over at its end. -/
def played (timeline : List (Event τ)) (count : Nat) : List Happening :=
  (turns timeline count).map .ofAct

theorem Reached.played_next {timeline : List (Event τ)} {looping : Bool} {passes notes : Nat}
    {e : Event τ} {rest : List (Event τ)}
    (reached : Reached timeline looping passes notes (e :: rest)) :
    played timeline (notes + 1) =
      played timeline notes ++ [.waited (ClockTime.ofSeconds e.time), .call e.call] := by
  rw [played, turns_succ, List.map_append, reached.turn_eq]
  rfl

/-- Where a thread stands when all this has happened. -/
def Stands (tracks : List (CompiledTrack τ)) (t : Thread τ) (past : List Happening) : Prop :=
  match t.phase with
  | .selecting programs =>
      t.notes = 0 ∧ t.passes = 0 ∧ past ++ programs.map .call = opening tracks
  | .waiting rest =>
      Reached t.timeline t.looping t.passes t.notes rest ∧
        past = opening tracks ++ played t.timeline t.notes
  | .sounding e rest =>
      Reached t.timeline t.looping t.passes t.notes (e :: rest) ∧
        past = opening tracks ++ played t.timeline t.notes ++ [.waited (ClockTime.ofSeconds e.time)]
  | .silencing silences =>
      (∃ e rest, Reached t.timeline t.looping t.passes t.notes (e :: rest)) ∧
        ∃ gone, gone ++ silences.map .call = closing tracks ∧
          past = opening tracks ++ played t.timeline t.notes ++ .stopped :: gone
  | .ended true =>
      (∃ e rest, Reached t.timeline t.looping t.passes t.notes (e :: rest)) ∧
        past = opening tracks ++ played t.timeline t.notes ++ .stopped :: closing tracks
  | .ended false =>
      (t.looping = false ∨ t.timeline = []) ∧ t.notes = t.timeline.length ∧ t.passes = 1 ∧
        past = opening tracks ++ played t.timeline t.notes
  | .broken =>
      t.looping = true ∧ t.timeline ≠ [] ∧ t.notes = UInt32.size * t.timeline.length ∧
        past = opening tracks ++ played t.timeline t.notes

def noticed (t : Thread τ) : Move → List Happening
  | .stop => []
  | .player => t.happens?.toList

theorem happenings_cons (t : Thread τ) (m : Move) (moves : List Move) :
    t.happenings (m :: moves) = t.noticed m ++ (t.move m).happenings moves := by
  cases m <;> rfl

theorem happenings_append (t : Thread τ) (first later : List Move) :
    t.happenings (first ++ later) = t.happenings first ++ (t.run first).happenings later := by
  induction first generalizing t with
  | nil => rfl
  | cons m rest ih =>
      rw [List.cons_append, happenings_cons, happenings_cons, ih, List.append_assoc]
      rfl

omit [Time τ] in
theorem run_append (t : Thread τ) (first later : List Move) :
    t.run (first ++ later) = (t.run first).run later :=
  List.foldl_append

/-- All that a step of the player can be: what happens in it, and the thread after it. -/
inductive Advanced (t : Thread τ) : List Happening → Thread τ → Prop where
  | selected {c : SynthCall} {programs : List SynthCall}
      (stood : t.phase = .selecting (c :: programs)) :
      Advanced t [.call c] { t with phase := .selecting programs }
  | begun (stood : t.phase = .selecting []) :
      Advanced t [] { t with phase := .waiting t.timeline }
  | waited {e : Event τ} {rest : List (Event τ)} (stood : t.phase = .waiting (e :: rest))
      (quiet : t.channel.wait.1 = false) :
      Advanced t [.waited (ClockTime.ofSeconds e.time)]
        { t with channel := t.channel.wait.2, phase := .sounding e rest }
  | stopped {e : Event τ} {rest : List (Event τ)} (stood : t.phase = .waiting (e :: rest))
      (asked : t.channel.wait.1 = true) :
      Advanced t [.stopped] { t with channel := t.channel.wait.2, phase := .silencing t.silences }
  | sounded {e : Event τ} {rest : List (Event τ)} (stood : t.phase = .sounding e rest) :
      Advanced t [.call e.call] { t with notes := t.notes + 1, phase := .waiting rest }
  | again (stood : t.phase = .waiting []) (room : t.passes ≠ Player.maxPasses)
      (loops : t.looping = true ∧ t.timeline ≠ []) :
      Advanced t [] { t with passes := t.passes + 1, phase := .waiting t.timeline }
  | finished (stood : t.phase = .waiting []) (room : t.passes ≠ Player.maxPasses)
      (last : t.looping = false ∨ t.timeline = []) :
      Advanced t [] { t with passes := t.passes + 1, phase := .ended false }
  | broke (stood : t.phase = .waiting []) (full : t.passes = Player.maxPasses) :
      Advanced t [] { t with phase := .broken }
  | silenced {c : SynthCall} {silences : List SynthCall}
      (stood : t.phase = .silencing (c :: silences)) :
      Advanced t [.call c] { t with phase := .silencing silences }
  | ended (stood : t.phase = .silencing []) : Advanced t [] { t with phase := .ended true }
  | rested (idle : t.phase = .broken ∨ ∃ stopped, t.phase = .ended stopped) : Advanced t [] t

theorem advanced (t : Thread τ) : Advanced t t.happens?.toList t.advance := by
  cases stood : t.phase with
  | selecting programs =>
      cases programs with
      | nil => simpa [happens?, advance, stood] using Advanced.begun stood
      | cons c programs => simpa [happens?, advance, stood] using Advanced.selected stood
  | waiting rest =>
      cases rest with
      | nil =>
          by_cases full : t.passes = Player.maxPasses
          · simpa [happens?, advance, Thread.turn, stood, full] using Advanced.broke stood full
          · by_cases loops : t.looping = true ∧ t.timeline ≠ []
            · simpa [happens?, advance, Thread.turn, stood, full, loops] using
                Advanced.again stood full loops
            · have last : t.looping = false ∨ t.timeline = [] := by
                by_contra both
                exact loops (by simpa using both)
              have ends : ¬ (t.looping && !t.timeline.isEmpty) = true := by
                simpa using loops
              simpa [happens?, advance, Thread.turn, stood, full, ends] using
                Advanced.finished stood full last
      | cons e rest =>
          cases asked : t.channel.wait.1 with
          | true => simpa [happens?, advance, stood, asked] using Advanced.stopped stood asked
          | false => simpa [happens?, advance, stood, asked] using Advanced.waited stood asked
  | sounding e rest => simpa [happens?, advance, stood] using Advanced.sounded stood
  | silencing silences =>
      cases silences with
      | nil => simpa [happens?, advance, stood] using Advanced.ended stood
      | cons c silences => simpa [happens?, advance, stood] using Advanced.silenced stood
  | ended stopped =>
      simpa [happens?, advance, stood] using Advanced.rested (Or.inr ⟨stopped, stood⟩)
  | broken => simpa [happens?, advance, stood] using Advanced.rested (Or.inl stood)

theorem stands_advanced {tracks : List (CompiledTrack τ)} {t u : Thread τ}
    {past new : List Happening} (stands : t.Stands tracks past)
    (silences : t.silences = tracks.map (.allNotesOff ·.index)) (step : Advanced t new u) :
    u.Stands tracks (past ++ new) := by
  cases step with
  | selected stood =>
      simp only [Stands, stood] at stands ⊢
      simpa using stands
  | begun stood =>
      simp only [Stands, stood] at stands ⊢
      obtain ⟨notes, passes, done⟩ := stands
      refine ⟨⟨⟨0, Nat.zero_le _, rfl, ?_⟩, ?_, Or.inl passes⟩, ?_⟩
      · simp [notes, passes]
      · simp [passes]
      · simpa [notes, played, turns] using done
  | waited stood quiet =>
      simp only [Stands, stood] at stands ⊢
      obtain ⟨reached, done⟩ := stands
      exact ⟨reached, by rw [done]⟩
  | @stopped e rest stood asked =>
      simp only [Stands, stood] at stands ⊢
      obtain ⟨reached, done⟩ := stands
      refine ⟨⟨e, rest, reached⟩, [], ?_, by rw [done]⟩
      rw [silences, List.map_map]
      rfl
  | sounded stood =>
      simp only [Stands, stood] at stands ⊢
      obtain ⟨reached, done⟩ := stands
      refine ⟨reached.next, ?_⟩
      rw [done, reached.played_next]
      simp
  | again stood room loops =>
      simp only [Stands, stood] at stands ⊢
      obtain ⟨reached, done⟩ := stands
      exact ⟨reached.start_over room loops, by rw [done, List.append_nil]⟩
  | finished stood room last =>
      simp only [Stands, stood] at stands ⊢
      obtain ⟨reached, done⟩ := stands
      have first := reached.first_pass last
      refine ⟨last, ?_, by rw [first], by rw [done, List.append_nil]⟩
      rw [reached.notes_of_nil, first, Nat.zero_add, Nat.one_mul]
  | broke stood full =>
      simp only [Stands, stood] at stands ⊢
      obtain ⟨reached, done⟩ := stands
      have later : t.passes ≠ 0 := by
        rw [full]
        decide
      obtain ⟨loops, events⟩ := reached.again.resolve_left later
      refine ⟨loops, events, ?_, by rw [done, List.append_nil]⟩
      rw [reached.notes_of_nil, full]
      rfl
  | silenced stood =>
      simp only [Stands, stood] at stands ⊢
      obtain ⟨reached, gone, left, done⟩ := stands
      refine ⟨reached, gone ++ [.call _], ?_, by rw [done, List.append_assoc, List.cons_append]⟩
      rw [← left, List.map_cons, List.append_assoc, List.singleton_append]
  | ended stood =>
      simp only [Stands, stood] at stands ⊢
      obtain ⟨reached, gone, left, done⟩ := stands
      rw [List.map_nil, List.append_nil] at left
      exact ⟨reached, by rw [done, left, List.append_nil]⟩
  | rested idle => rwa [List.append_nil]

/-- The timeline, whether it starts over, and the silences stay as they are. -/
theorem settings_advanced {t u : Thread τ} {new : List Happening} (step : Advanced t new u) :
    u.timeline = t.timeline ∧ u.looping = t.looping ∧ u.silences = t.silences := by
  cases step <;> exact ⟨rfl, rfl, rfl⟩

theorem settings_move (t : Thread τ) (m : Move) :
    (t.move m).timeline = t.timeline ∧ (t.move m).looping = t.looping ∧
      (t.move m).silences = t.silences := by
  cases m with
  | stop => exact ⟨rfl, rfl, rfl⟩
  | player => exact settings_advanced (advanced t)

theorem settings_run (t : Thread τ) (moves : List Move) :
    (t.run moves).timeline = t.timeline ∧ (t.run moves).looping = t.looping ∧
      (t.run moves).silences = t.silences := by
  induction moves generalizing t with
  | nil => exact ⟨rfl, rfl, rfl⟩
  | cons m rest ih =>
      obtain ⟨timeline, looping, silences⟩ := ih (t.move m)
      obtain ⟨timeline', looping', silences'⟩ := settings_move t m
      exact ⟨timeline.trans timeline', looping.trans looping', silences.trans silences'⟩

theorem stands_move {tracks : List (CompiledTrack τ)} {t : Thread τ} {past : List Happening}
    (stands : t.Stands tracks past) (silences : t.silences = tracks.map (.allNotesOff ·.index))
    (m : Move) : (t.move m).Stands tracks (past ++ t.noticed m) := by
  cases m with
  | stop =>
      rw [noticed, List.append_nil]
      exact stands
  | player => exact stands_advanced stands silences (advanced t)

theorem stands_run {tracks : List (CompiledTrack τ)} {t : Thread τ} {past : List Happening}
    (stands : t.Stands tracks past) (silences : t.silences = tracks.map (.allNotesOff ·.index))
    (moves : List Move) : (t.run moves).Stands tracks (past ++ t.happenings moves) := by
  induction moves generalizing t past with
  | nil =>
      rw [happenings, List.append_nil]
      exact stands
  | cons m rest ih =>
      rw [happenings_cons, ← List.append_assoc]
      apply ih (stands_move stands silences m)
      rw [(settings_move t m).2.2, silences]

structure Started (p : Player τ) (tracks : List (CompiledTrack τ)) (t : Thread τ) : Prop where
  timeline : p.timeline tracks = .ok t.timeline
  looping : t.looping = p.looping
  silences : t.silences = tracks.map (.allNotesOff ·.index)
  channel : t.channel = StopChannel.quiet
  phase : t.phase = .selecting (tracks.map fun t => .programSelect t.index t.instrument)
  passes : t.passes = 0
  notes : t.notes = 0

theorem started_of_spawn {p : Player τ} {tracks : List (CompiledTrack τ)} {t : Thread τ}
    (spawned : spawn p tracks = .ok t) : Started p tracks t := by
  unfold spawn at spawned
  split at spawned
  · cases spawned
  · rename_i timeline made
    obtain rfl := Except.ok.inj spawned
    exact ⟨made, rfl, rfl, rfl, rfl, rfl, rfl⟩

theorem Started.stands {p : Player τ} {tracks : List (CompiledTrack τ)} {t : Thread τ}
    (started : Started p tracks t) (moves : List Move) :
    (t.run moves).Stands tracks (t.happenings moves) := by
  have first : t.Stands tracks [] := by
    simp only [Stands, started.phase]
    refine ⟨started.notes, started.passes, ?_⟩
    rw [List.nil_append, List.map_map]
    rfl
  exact stands_run first started.silences moves

theorem acts_of_opening (tracks : List (CompiledTrack τ)) (timeline : List (Event τ))
    (count : Nat) :
    (opening tracks ++ played timeline count).filterMap Happening.act? =
      tracks.map (fun t => .call (.programSelect t.index t.instrument)) ++
        turns timeline count := by
  rw [List.filterMap_append, played, Happening.filter_map_act, opening, List.filterMap_map]
  congr 1
  exact congrFun List.filterMap_eq_map tracks

omit [Time τ] in
theorem acts_of_closing (tracks : List (CompiledTrack τ)) :
    (.stopped :: closing tracks).filterMap Happening.act? =
      tracks.map fun t => .call (.allNotesOff t.index) := by
  rw [List.filterMap_cons_none rfl, closing, List.filterMap_map]
  exact congrFun List.filterMap_eq_map tracks

/-- A thread that has ended has done what playing does, when its waits are answered as those of the
thread were. -/
theorem Started.play_of_ended {p : Player τ} {tracks : List (CompiledTrack τ)} {t : Thread τ}
    (started : Started p tracks t) {moves : List Move} {stopped : Bool}
    (ended : (t.run moves).phase = .ended stopped) :
    ∃ done, p.play tracks (fun k => stopped && k == (t.run moves).notes) = .ok done ∧
      done.acts = (t.happenings moves).filterMap Happening.act? ∧
      done.notes = (t.run moves).notes ∧ done.passes = (t.run moves).passes := by
  have stands := started.stands moves
  obtain ⟨timeline, looping, _⟩ := settings_run t moves
  have made : p.timeline tracks = .ok (t.run moves).timeline := timeline ▸ started.timeline
  rw [started.looping] at looping
  cases stopped with
  | true =>
      simp only [Stands, ended] at stands
      obtain ⟨⟨e, rest, reached⟩, happened⟩ := stands
      have inside := looping ▸ reached.lt_or_loops
      have fits := reached.passes_eq ▸ reached.counted
      let stops : Nat → Bool := fun k => true && k == (t.run moves).notes
      have first : StopsFirst (fun k => stops (0 + k)) (t.run moves).notes := by
        simp only [StopsFirst, stops, Nat.zero_add, Bool.true_and, beq_self_eq_true, true_and]
        exact fun k below => beq_false_of_ne (Nat.ne_of_lt below)
      obtain ⟨done, answer, acts, _, notes, passes⟩ :=
        Player.play_of_passes made (play_passes_of_stop first inside fits)
      refine ⟨done, answer, ?_, notes, passes.trans reached.passes_eq⟩
      rw [acts, happened, List.filterMap_append, acts_of_opening, acts_of_closing, script,
        if_pos rfl]
  | false =>
      simp only [Stands, ended] at stands
      obtain ⟨last, notes, passes, happened⟩ := stands
      rw [looping] at last
      let stops : Nat → Bool := fun k => false && k == (t.run moves).notes
      have quiet : ∀ k < (t.run moves).timeline.length, stops (0 + k) = false := fun _ _ => rfl
      obtain ⟨done, answer, acts, _, notes', passes'⟩ :=
        Player.play_of_passes made (play_passes_of_quiet (by decide) quiet last)
      refine ⟨done, answer, ?_, notes'.trans notes.symm, passes'.trans passes.symm⟩
      rw [acts, happened, acts_of_opening, notes, turns_length, script]
      simp

end Thread

end Cadenza
