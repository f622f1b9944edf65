import Cadenza.Proofs.Playback.Course

/-!
# Stopping a playback from outside

However the requests to stop fall between the steps of the player, one of them is received at most,
and no more than one note begins or ends after the first. A stop that comes after the last wait is
never noticed.
-/

namespace Cadenza

set_option autoImplicit false

variable {τ : Type}

namespace Happening

def isWait : Happening → Bool
  | .waited _ => true
  | _ => false

def isSilence : Happening → Bool
  | .stopped => true
  | .call (.allNotesOff _) => true
  | _ => false

end Happening

def Phase.isStopped : Phase τ → Bool
  | .silencing _ => true
  | .ended stopped => stopped
  | _ => false

theorem wait_of_pending {c : StopChannel} (pending : c.pending ≠ 0) : c.wait.1 = true := by
  obtain ⟨count, fewer⟩ := Nat.exists_eq_succ_of_ne_zero pending
  simp only [StopChannel.wait, fewer]

namespace Thread

theorem mem_opening {tracks : List (CompiledTrack τ)} {h : Happening}
    (member : h ∈ opening tracks) :
    ∃ channel instrument, h = .call (.programSelect channel instrument) := by
  obtain ⟨t, _, rfl⟩ := List.mem_map.1 member
  exact ⟨t.index, t.instrument, rfl⟩

theorem count_opening {f : Happening → Bool}
    (others : ∀ channel instrument, f (.call (.programSelect channel instrument)) = false)
    (tracks : List (CompiledTrack τ)) : (opening tracks).countP f = 0 := by
  apply List.countP_eq_zero.2
  intro h member
  obtain ⟨channel, instrument, rfl⟩ := mem_opening member
  rw [others]
  exact Bool.false_ne_true

variable [Time τ]

theorem is_silence_played {timeline : List (Event τ)} {count : Nat} {h : Happening}
    (member : h ∈ played timeline count) : h.isSilence = false := by
  obtain ⟨a, inside, rfl⟩ := List.mem_map.1 member
  obtain ⟨k, _, done⟩ := List.mem_flatMap.1 inside
  unfold Cadenza.turn at done
  split at done
  · cases done
  · rename_i e _
    rcases List.mem_cons.1 done with rfl | last
    · rfl
    · rw [List.mem_singleton.1 last]
      cases kind : e.kind <;> simp [Happening.ofAct, Event.call, kind, Happening.isSilence]

theorem is_silence_front {tracks : List (CompiledTrack τ)} {timeline : List (Event τ)}
    {count : Nat} : ∀ h ∈ opening tracks ++ played timeline count, h.isSilence = false := by
  intro h member
  rcases List.mem_append.1 member with first | later
  · obtain ⟨_, _, rfl⟩ := mem_opening first
    rfl
  · exact is_silence_played later

/-- What happens once for every event, and for no program, has happened as often as there were
events. -/
theorem count_front {f : Happening → Bool}
    (others : ∀ channel instrument, f (.call (.programSelect channel instrument)) = false)
    (once : ∀ e : Event τ, e.acts.countP (f ∘ Happening.ofAct) = 1)
    (tracks : List (CompiledTrack τ)) {timeline : List (Event τ)} {count : Nat}
    (events : timeline ≠ [] ∨ count = 0) :
    (opening tracks ++ played timeline count).countP f = count := by
  rw [List.countP_append, count_opening others, Nat.zero_add, played, List.countP_map]
  rcases events with some | rfl
  · exact count_turns once some count
  · rfl

section Standing

variable {tracks : List (CompiledTrack τ)} {t : Thread τ} {past : List Happening}

/-- Nothing is silenced before a stop. -/
theorem Stands.quiet (stands : t.Stands tracks past) (goesOn : t.phase.isStopped = false) :
    ∀ h ∈ past, h.isSilence = false := by
  cases stood : t.phase with
  | selecting programs =>
      simp only [Stands, stood] at stands
      intro h member
      have inside : h ∈ opening tracks := stands.2.2 ▸ List.mem_append_left _ member
      obtain ⟨_, _, rfl⟩ := mem_opening inside
      rfl
  | waiting rest =>
      simp only [Stands, stood] at stands
      exact stands.2 ▸ is_silence_front
  | sounding e rest =>
      simp only [Stands, stood] at stands
      intro h member
      rw [stands.2] at member
      rcases List.mem_append.1 member with front | last
      · exact is_silence_front h front
      · exact List.mem_singleton.1 last ▸ rfl
  | silencing silences =>
      rw [stood] at goesOn
      cases goesOn
  | ended stopped =>
      rw [stood] at goesOn
      obtain rfl : stopped = false := goesOn
      simp only [Stands, stood] at stands
      exact stands.2.2.2 ▸ is_silence_front
  | broken =>
      simp only [Stands, stood] at stands
      exact stands.2.2.2 ▸ is_silence_front

/-- After a stop there are only silences. -/
theorem Stands.stopped (stands : t.Stands tracks past) (stopped : t.phase.isStopped = true) :
    t.timeline ≠ [] ∧ ∃ gone, gone <+: closing tracks ∧
      past = opening tracks ++ played t.timeline t.notes ++ .stopped :: gone := by
  cases stood : t.phase with
  | silencing silences =>
      simp only [Stands, stood] at stands
      obtain ⟨⟨_, _, reached⟩, gone, left, done⟩ := stands
      exact ⟨reached.events_of_cons, gone, ⟨silences.map .call, left⟩, done⟩
  | ended answer =>
      rw [stood] at stopped
      obtain rfl : answer = true := stopped
      simp only [Stands, stood] at stands
      obtain ⟨⟨_, _, reached⟩, done⟩ := stands
      exact ⟨reached.events_of_cons, closing tracks, List.prefix_refl _, done⟩
  | _ =>
      rw [stood] at stopped
      cases stopped

theorem Stands.count_stopped (stands : t.Stands tracks past) : past.count .stopped ≤ 1 := by
  have none : ∀ hs : List Happening, (∀ h ∈ hs, h.isSilence = false) → hs.count .stopped = 0 := by
    intro hs quiet
    apply List.count_eq_zero.2
    intro member
    cases quiet _ member
  cases stopped : t.phase.isStopped with
  | false =>
      rw [none past (stands.quiet stopped)]
      exact Nat.zero_le 1
  | true =>
      obtain ⟨_, gone, inside, rfl⟩ := stands.stopped stopped
      have silences : gone.count .stopped = 0 := by
        apply List.count_eq_zero.2
        intro member
        obtain ⟨_, _, wrong⟩ := List.mem_map.1 (inside.subset member)
        cases wrong
      rw [List.count_append, List.count_cons, none _ is_silence_front, silences]
      exact Nat.le_refl 1

/-- What has happened for an event whose call is still to come. -/
def begun (t : Thread τ) : List Happening :=
  match t.phase with
  | .sounding e _ => [.waited (ClockTime.ofSeconds e.time)]
  | _ => []

/-- What happens once for every event and at no other time has happened as often as there were
events, the one that has begun aside. -/
theorem Stands.count_eq {f : Happening → Bool}
    (others : ∀ channel instrument, f (.call (.programSelect channel instrument)) = false)
    (once : ∀ e : Event τ, e.acts.countP (f ∘ Happening.ofAct) = 1)
    (silences : ∀ h, h.isSilence = true → f h = false) (stands : t.Stands tracks past) :
    past.countP f = t.notes + t.begun.countP f := by
  cases stopped : t.phase.isStopped with
  | true =>
      obtain ⟨events, gone, inside, rfl⟩ := stands.stopped stopped
      have quiet : (Happening.stopped :: gone).countP f = 0 := by
        apply List.countP_eq_zero.2
        intro h member
        have silence : h.isSilence = true := by
          rcases List.mem_cons.1 member with rfl | last
          · rfl
          · obtain ⟨_, _, rfl⟩ := List.mem_map.1 (inside.subset last)
            rfl
        rw [silences h silence]
        exact Bool.false_ne_true
      have none : t.begun = [] := by
        cases stood : t.phase <;> simp_all [begun, Phase.isStopped]
      rw [List.countP_append, count_front others once tracks (Or.inl events), quiet, none]
      rfl
  | false =>
      cases stood : t.phase with
      | selecting programs =>
          simp only [Stands, stood] at stands
          obtain ⟨notes, _, done⟩ := stands
          have whole := congrArg (List.countP f) done
          rw [List.countP_append, count_opening others] at whole
          simp only [begun, stood, List.countP_nil]
          omega
      | waiting rest =>
          simp only [Stands, stood] at stands
          obtain ⟨reached, rfl⟩ := stands
          simp only [begun, stood, List.countP_nil, Nat.add_zero]
          exact count_front others once tracks reached.events_or_none
      | sounding e rest =>
          simp only [Stands, stood] at stands
          obtain ⟨reached, rfl⟩ := stands
          rw [List.countP_append, count_front others once tracks reached.events_or_none]
          simp only [begun, stood]
      | ended answer =>
          rw [stood] at stopped
          obtain rfl : answer = false := stopped
          simp only [Stands, stood] at stands
          obtain ⟨_, notes, _, rfl⟩ := stands
          have events : t.timeline ≠ [] ∨ t.notes = 0 := by
            by_cases empty : t.timeline = []
            · exact Or.inr (by rw [notes, empty, List.length_nil])
            · exact Or.inl empty
          simp only [begun, stood, List.countP_nil, Nat.add_zero]
          exact count_front others once tracks events
      | broken =>
          simp only [Stands, stood] at stands
          obtain ⟨_, events, _, rfl⟩ := stands
          simp only [begun, stood, List.countP_nil, Nat.add_zero]
          exact count_front others once tracks (Or.inl events)
      | silencing left =>
          rw [stood] at stopped
          cases stopped

theorem Stands.count_notes (stands : t.Stands tracks past) :
    past.countP Happening.isNote = t.notes := by
  have counted := stands.count_eq (f := Happening.isNote) (fun _ _ => rfl) ?_ ?_
  · have none : t.begun.countP Happening.isNote = 0 := by
      unfold begun
      split <;> rfl
    rw [counted, none, Nat.add_zero]
  · intro e
    simp [Event.acts, Happening.ofAct, Happening.isNote, is_note_call]
  · intro h silence
    unfold Happening.isSilence at silence
    split at silence <;> simp_all [Happening.isNote, SynthCall.isNote]

theorem Stands.count_waits (stands : t.Stands tracks past) :
    past.countP Happening.isWait = t.notes + t.begun.length := by
  have counted := stands.count_eq (f := Happening.isWait) (fun _ _ => rfl) ?_ ?_
  · rw [counted]
    congr 1
    unfold begun
    split <;> rfl
  · intro e
    rfl
  · intro h silence
    unfold Happening.isSilence at silence
    split at silence <;> simp_all [Happening.isWait]

end Standing

/-- A stop that was asked for is still to be received, or the player waits for no more events. -/
def Asked (t : Thread τ) : Prop :=
  match t.phase with
  | .silencing _ => True
  | .ended _ => True
  | .broken => True
  | _ => t.channel.pending ≠ 0

omit [Time τ] in
theorem asked_stop (t : Thread τ) : (t.move .stop).Asked := by
  cases stood : t.phase <;> simp [Asked, move, stood, StopChannel.offer]

/-- Once a stop was asked for only the event that has begun is still heard. -/
theorem asked_advanced {t u : Thread τ} {new : List Happening} (asked : t.Asked)
    (step : Advanced t new u) :
    u.Asked ∧ u.notes + u.begun.length ≤ t.notes + t.begun.length := by
  cases step with
  | selected stood | begun stood | sounded stood | again stood =>
      simp only [Asked, Thread.begun, stood] at asked ⊢
      exact ⟨asked, Nat.le_refl _⟩
  | waited stood quiet =>
      simp only [Asked, stood] at asked
      rw [wait_of_pending asked] at quiet
      cases quiet
  | stopped stood | finished stood | broke stood | silenced stood | ended stood =>
      simp only [Asked, Thread.begun, stood]
      exact ⟨trivial, Nat.le_refl _⟩
  | rested => exact ⟨asked, Nat.le_refl _⟩

theorem asked_run {t : Thread τ} (asked : t.Asked) (moves : List Move) :
    (t.run moves).notes ≤ t.notes + t.begun.length := by
  induction moves generalizing t with
  | nil => exact Nat.le_add_right _ _
  | cons m rest ih =>
      cases m with
      | stop => exact ih (asked_stop t)
      | player =>
          obtain ⟨still, less⟩ := asked_advanced asked (advanced t)
          exact Nat.le_trans (ih still) less

def Unasked (t : Thread τ) : Prop :=
  t.channel = StopChannel.quiet ∧ t.phase.isStopped = false

theorem unasked_advanced {t u : Thread τ} {new : List Happening} (unasked : t.Unasked)
    (step : Advanced t new u) : u.Unasked := by
  obtain ⟨channel, goesOn⟩ := unasked
  cases step with
  | selected | begun | sounded | again | finished | broke => exact ⟨channel, rfl⟩
  | waited => exact ⟨by rw [channel]; rfl, rfl⟩
  | stopped stood asked =>
      rw [channel] at asked
      cases asked
  | silenced stood | ended stood =>
      rw [stood] at goesOn
      cases goesOn
  | rested => exact ⟨channel, goesOn⟩

theorem unasked_run {t : Thread τ} (unasked : t.Unasked) {moves : List Move}
    (none : .stop ∉ moves) : (t.run moves).Unasked := by
  induction moves generalizing t with
  | nil => exact unasked
  | cons m rest ih =>
      have later : .stop ∉ rest := fun member => none (List.mem_cons_of_mem m member)
      cases m with
      | stop => exact absurd List.mem_cons_self none
      | player => exact ih (unasked_advanced unasked (advanced t)) later

/-- No events are left to wait for, in a playback of one pass. -/
def PastLastWait (t : Thread τ) : Prop :=
  match t.phase with
  | .selecting _ => t.looping = false ∧ t.passes = 0 ∧ t.timeline = []
  | .waiting rest => t.looping = false ∧ t.passes = 0 ∧ rest = []
  | .sounding _ rest => t.looping = false ∧ t.passes = 0 ∧ rest = []
  | .ended stopped => stopped = false
  | _ => False

/-- How many steps the player still makes when there are no events left to wait for. -/
def stepsLeft (t : Thread τ) : Nat :=
  match t.phase with
  | .selecting programs => programs.length + 2
  | .waiting _ => 1
  | .sounding _ _ => 2
  | _ => 0

theorem past_last_wait_advanced {t u : Thread τ} {new : List Happening} (past : t.PastLastWait)
    (step : Advanced t new u) : u.PastLastWait ∧ u.stepsLeft ≤ t.stepsLeft - 1 := by
  cases step with
  | selected stood | begun stood | sounded stood =>
      simp only [PastLastWait, stepsLeft, stood, List.length_cons] at past ⊢
      exact ⟨past, by omega⟩
  | waited stood | stopped stood =>
      simp only [PastLastWait, stood] at past
      cases past.2.2
  | again stood room loops =>
      simp only [PastLastWait, stood] at past
      rw [past.1] at loops
      cases loops.1
  | finished stood =>
      simp only [PastLastWait, stepsLeft, stood]
      exact ⟨trivial, Nat.zero_le _⟩
  | broke stood full =>
      simp only [PastLastWait, stood] at past
      rw [past.2.1] at full
      cases full
  | silenced stood | ended stood =>
      simp only [PastLastWait, stood] at past
  | rested idle =>
      refine ⟨past, ?_⟩
      rcases idle with stood | ⟨stopped, stood⟩ <;> simp [stepsLeft, stood]

theorem past_last_wait_run {t : Thread τ} (past : t.PastLastWait) (moves : List Move) :
    (t.run moves).PastLastWait ∧
      (t.run moves).stepsLeft ≤ t.stepsLeft - moves.count .player := by
  induction moves generalizing t with
  | nil => exact ⟨past, Nat.le_refl _⟩
  | cons m rest ih =>
      cases m with
      | stop => exact ih past
      | player =>
          obtain ⟨still, fewer⟩ := past_last_wait_advanced past (advanced t)
          obtain ⟨last, left⟩ := ih still
          refine ⟨last, ?_⟩
          rw [List.count_cons_self]
          change (t.advance.run rest).stepsLeft ≤ _
          omega

omit [Time τ] in
theorem ended_of_past_last_wait {t : Thread τ} (past : t.PastLastWait) (none : t.stepsLeft = 0) :
    t.phase = .ended false := by
  cases stood : t.phase <;> simp_all [PastLastWait, stepsLeft]

theorem past_last_wait_of_waits {tracks : List (CompiledTrack τ)} {t : Thread τ}
    {past : List Happening} (stands : t.Stands tracks past) (once : t.looping = false)
    (goesOn : t.phase.isStopped = false)
    (waited : past.countP Happening.isWait = t.timeline.length) : t.PastLastWait := by
  have counted := stands.count_waits
  rw [waited] at counted
  cases stood : t.phase with
  | selecting programs =>
      simp only [Stands, stood] at stands
      simp only [begun, stood, stands.1, List.length_nil] at counted
      simp only [PastLastWait, stood]
      exact ⟨once, stands.2.1, List.length_eq_zero_iff.1 counted⟩
  | waiting rest =>
      simp only [Stands, stood] at stands
      simp only [begun, stood, List.length_nil, Nat.add_zero] at counted
      simp only [PastLastWait, stood]
      have first := stands.1.first_pass (Or.inl once)
      exact ⟨once, first, stands.1.rest_of_notes first counted.symm⟩
  | sounding e rest =>
      simp only [Stands, stood] at stands
      simp only [begun, stood, List.length_singleton] at counted
      simp only [PastLastWait, stood]
      have first := stands.1.first_pass (Or.inl once)
      exact ⟨once, first, stands.1.next.rest_of_notes first counted.symm⟩
  | ended stopped =>
      rw [stood] at goesOn
      simp only [PastLastWait, stood]
      exact goesOn
  | broken =>
      simp only [Stands, stood, once] at stands
      cases stands.1
  | silencing silences =>
      rw [stood] at goesOn
      cases goesOn

section Histories

variable {p : Player τ} {tracks : List (CompiledTrack τ)} {t : Thread τ}

theorem Started.count_notes_after_stop (started : Started p tracks t) (before after : List Move) :
    ((t.run (before ++ [Move.stop])).happenings after).countP Happening.isNote ≤ 1 := by
  have earlier := (started.stands (before ++ [Move.stop])).count_notes
  have whole := (started.stands (before ++ [Move.stop] ++ after)).count_notes
  rw [happenings_append, List.countP_append, earlier, run_append t _ after] at whole
  have asked : (t.run (before ++ [Move.stop])).Asked := by
    rw [run_append]
    exact asked_stop _
  have more := asked_run asked after
  have one : (t.run (before ++ [Move.stop])).begun.length ≤ 1 := by
    unfold begun
    split <;> simp
  omega

theorem Started.ended_by_stop (started : Started p tracks t) {moves : List Move}
    (ended : (t.run moves).phase = .ended true) :
    ∃ front, t.happenings moves = front ++ .stopped :: closing tracks ∧
      ∀ h ∈ front, h.isSilence = false := by
  have stands := started.stands moves
  simp only [Stands, ended] at stands
  exact ⟨_, stands.2, is_silence_front⟩

theorem Started.loop_goes_on (started : Started p tracks t) (loops : p.looping = true)
    (events : t.timeline ≠ []) (moves : List Move) :
    (∀ stopped, (t.run moves).phase = .ended stopped → stopped = true ∧ .stop ∈ moves) ∧
      ((t.run moves).phase = .broken →
        (t.run moves).notes = UInt32.size * t.timeline.length) := by
  obtain ⟨timeline, looping, _⟩ := settings_run t moves
  have stands := started.stands moves
  constructor
  · intro stopped ended
    cases stopped with
    | true =>
        refine ⟨rfl, ?_⟩
        by_contra none
        have unasked : t.Unasked := ⟨started.channel, by rw [started.phase]; rfl⟩
        have goesOn := (unasked_run unasked none).2
        rw [ended] at goesOn
        cases goesOn
    | false =>
        simp only [Stands, ended, timeline, looping, started.looping, loops] at stands
        rcases stands.1 with once | empty
        · cases once
        · exact absurd empty events
  · intro broken
    simp only [Stands, broken, timeline] at stands
    exact stands.2.2.1

theorem Started.late_stop_unnoticed (started : Started p tracks t) (once : p.looping = false)
    {before : List Move} (none : .stop ∉ before)
    (waited : (t.happenings before).countP Happening.isWait = t.timeline.length) :
    (∀ after, ∀ h ∈ t.happenings (before ++ Move.stop :: after), h.isSilence = false) ∧
      ∃ steps, ∀ after : List Move, steps ≤ after.count .player →
        (t.run (before ++ Move.stop :: after)).phase = .ended false ∧
          (t.run (before ++ Move.stop :: after)).passes = 1 ∧
          (t.run (before ++ Move.stop :: after)).notes = t.timeline.length := by
  obtain ⟨timeline, looping, _⟩ := settings_run t before
  have unasked : t.Unasked := ⟨started.channel, by rw [started.phase]; rfl⟩
  have last : (t.run before).PastLastWait := by
    apply past_last_wait_of_waits (started.stands before)
    · rw [looping, started.looping, once]
    · exact (unasked_run unasked none).2
    · rw [waited, timeline]
  constructor
  · intro after
    apply (started.stands _).quiet
    rw [run_append]
    have still := (past_last_wait_run last (Move.stop :: after)).1
    cases stood : ((t.run before).run (Move.stop :: after)).phase <;>
      simp_all [PastLastWait, Phase.isStopped]
  · refine ⟨(t.run before).stepsLeft, ?_⟩
    intro after enough
    have stands := started.stands (before ++ Move.stop :: after)
    obtain ⟨still, left⟩ := past_last_wait_run last (Move.stop :: after)
    have ended : (t.run (before ++ Move.stop :: after)).phase = .ended false := by
      rw [run_append]
      apply ended_of_past_last_wait still
      rw [List.count_cons_of_ne (by decide)] at left
      omega
    simp only [Stands, ended, (settings_run t (before ++ Move.stop :: after)).1] at stands
    exact ⟨ended, stands.2.2.1, stands.2.1⟩

end Histories

/-- Take any history of a playback in a thread of its own: any number of requests to stop, between
any steps of the player. One request is received at most. After a request no more than one note
begins or ends. A playback that ends by a stop has silenced every track once, in turn, after it
received the stop and as the last thing it did. A loop over events never ends without a stop; it
breaks only if it fills the counter of its passes. When a playback of one pass has waited for its
last event before the first request, it is not noticed: nothing is silenced, and after so many more
steps of the player the pass is over. In any case a playback that has ended has done what playing
does whose waits are answered in the same way. -/
theorem stop_takes_one_more_note (p : Player τ) (tracks : List (CompiledTrack τ)) {t : Thread τ}
    (spawned : spawn p tracks = .ok t) :
    (∀ moves, (t.happenings moves).count .stopped ≤ 1) ∧
    (∀ before after,
      ((t.run (before ++ [Move.stop])).happenings after).countP Happening.isNote ≤ 1) ∧
    (∀ moves, (t.run moves).phase = .ended true →
      ∃ front, t.happenings moves =
          front ++ .stopped :: tracks.map (fun t => .call (.allNotesOff t.index)) ∧
        ∀ h ∈ front, h.isSilence = false) ∧
    (p.looping = true → t.timeline ≠ [] → ∀ moves,
      (∀ stopped, (t.run moves).phase = .ended stopped → stopped = true ∧ .stop ∈ moves) ∧
        ((t.run moves).phase = .broken →
          (t.run moves).notes = UInt32.size * t.timeline.length)) ∧
    (p.looping = false → ∀ before, .stop ∉ before →
      (t.happenings before).countP Happening.isWait = t.timeline.length →
        (∀ after, ∀ h ∈ t.happenings (before ++ Move.stop :: after), h.isSilence = false) ∧
          ∃ steps, ∀ after : List Move, steps ≤ after.count .player →
            (t.run (before ++ Move.stop :: after)).phase = .ended false ∧
              (t.run (before ++ Move.stop :: after)).passes = 1 ∧
              (t.run (before ++ Move.stop :: after)).notes = t.timeline.length) ∧
    ∀ moves stopped, (t.run moves).phase = .ended stopped →
      ∃ done, p.play tracks (fun k => stopped && k == (t.run moves).notes) = .ok done ∧
        done.acts = (t.happenings moves).filterMap Happening.act? ∧
        done.notes = (t.run moves).notes ∧ done.passes = (t.run moves).passes := by
  have started := started_of_spawn spawned
  refine ⟨?_, started.count_notes_after_stop, ?_, started.loop_goes_on, ?_, ?_⟩
  · exact fun moves => (started.stands moves).count_stopped
  · exact fun moves ended => started.ended_by_stop ended
  · exact fun once before none waited => started.late_stop_unnoticed once none waited
  · exact fun moves stopped ended => started.play_of_ended ended

def duetThread (looping : Bool) : Thread Float where
  timeline := Player.duetTimeline
  looping
  silences := [.allNotesOff 0, .allNotesOff 1]
  channel := StopChannel.quiet
  phase := .selecting [.programSelect 0 0, .programSelect 1 33]
  passes := 0
  notes := 0

theorem spawn_duet (looping : Bool) :
    spawn ⟨⟨Float.ofNat 240⟩, looping⟩ (duet Float) = .ok (duetThread looping) := by
  have inRange : checkRange Player.duetTimeline = .ok () := by rfl
  have made : Player.timeline ⟨⟨Float.ofNat 240⟩, looping⟩ (duet Float) =
      .ok Player.duetTimeline := Player.timeline_of_normalize Player.normalize_duet inRange
  simp only [spawn, made]
  rfl

/-- Three stops inside the first note of a loop, and one after the last wait of a single pass. -/
theorem stops_inside_and_after_duet :
    let loop := duetThread true
    let pass := duetThread false
    let toFirstNote : List Move := List.replicate 6 .player
    let toLastWait : List Move := List.replicate 10 .player
    let rest : List Move := List.replicate 8 .player
    (spawn ⟨⟨Float.ofNat 240⟩, true⟩ (duet Float) = .ok loop ∧
      ((loop.run (toFirstNote ++ [Move.stop])).happenings ([Move.stop, .stop] ++ rest)).countP
        Happening.isNote ≤ 1 ∧
      (loop.run (toFirstNote ++ [Move.stop, .stop, .stop] ++ rest)).phase = .ended true ∧
      ∃ front, loop.happenings (toFirstNote ++ [Move.stop, .stop, .stop] ++ rest) =
        front ++ [.stopped, .call (.allNotesOff 0), .call (.allNotesOff 1)]) ∧
    spawn ⟨⟨Float.ofNat 240⟩, false⟩ (duet Float) = .ok pass ∧
      (pass.happenings toLastWait).countP Happening.isWait = 4 ∧
      ∀ h ∈ pass.happenings (toLastWait ++ Move.stop :: rest), h.isSilence = false := by
  intro loop pass toFirstNote toLastWait rest
  obtain ⟨_, notes, ending, _, _, _⟩ :=
    stop_takes_one_more_note ⟨⟨Float.ofNat 240⟩, true⟩ (duet Float) (spawn_duet true)
  obtain ⟨_, _, _, _, late, _⟩ :=
    stop_takes_one_more_note ⟨⟨Float.ofNat 240⟩, false⟩ (duet Float) (spawn_duet false)
  have ended :
      (loop.run (toFirstNote ++ [Move.stop, .stop, .stop] ++ rest)).phase = .ended true := by
    decide +kernel
  have waited : (pass.happenings toLastWait).countP Happening.isWait = 4 := by
    decide +kernel
  obtain ⟨front, happened, _⟩ := ending _ ended
  obtain ⟨quiet, _⟩ := late rfl toLastWait (by decide) waited
  exact ⟨⟨spawn_duet true, notes toFirstNote _, ended, front, happened⟩, spawn_duet false, waited,
    quiet rest⟩

end Thread

end Cadenza
