import Cadenza.Playback.Driving
import Cadenza.Proofs.Playback.Sounding

/-!
# Two synths driven alike

Nothing that a synth does comes back to the player. So two synths that are driven by equal sleepers
get the same calls between the same waits, and what every single call keeps between the two is kept
by the whole playback. The calls themselves are those that `Player.play` tells, if it is given the
answers of the sleeper.
-/

namespace Cadenza

set_option autoImplicit false

variable {τ σ σ' ρ : Type}

def Kept (take : σ → SynthCall → σ) (take' : σ' → SynthCall → σ') (related : σ → σ' → Prop)
    (c : SynthCall) : Prop :=
  ∀ x y, related x y → related (take x c) (take' y c)

structure Stage.Alike (related : σ → σ' → Prop) (s : Stage σ ρ) (t : Stage σ' ρ) : Prop where
  synths : related s.synth t.synth
  sleepers : s.sleeper = t.sleeper
  passes : s.passes = t.passes
  notes : s.notes = t.notes

section Related

variable {take : σ → SynthCall → σ} {take' : σ' → SynthCall → σ'} {related : σ → σ' → Prop}

theorem foldl_related {calls : List SynthCall} {x : σ} {y : σ'}
    (kept : ∀ c ∈ calls, Kept take take' related c) (start : related x y) :
    related (calls.foldl take x) (calls.foldl take' y) := by
  induction calls generalizing x y with
  | nil => exact start
  | cons c rest ih =>
      have now := kept c List.mem_cons_self x y start
      exact ih (fun d member => kept d (List.mem_cons_of_mem c member)) now

variable [Time τ] (sleep : ρ → ClockTime → Bool × ρ)

theorem drive_pass_alike {events : List (Event τ)} {s : Stage σ ρ} {t : Stage σ' ρ}
    (kept : ∀ e ∈ events, Kept take take' related e.call) (alike : s.Alike related t) :
    (drivePass take sleep s events).1 = (drivePass take' sleep t events).1 ∧
      (drivePass take sleep s events).2.Alike related (drivePass take' sleep t events).2 := by
  induction events generalizing s t with
  | nil => exact ⟨rfl, alike.synths, alike.sleepers, congrArg (· + 1) alike.passes, alike.notes⟩
  | cons e rest ih =>
      have later : ∀ e ∈ rest, Kept take take' related e.call := fun d member =>
        kept d (List.mem_cons_of_mem e member)
      simp only [drivePass, alike.sleepers]
      split
      · exact ⟨rfl, alike.synths, rfl, alike.passes, alike.notes⟩
      · have sounded := kept e List.mem_cons_self _ _ alike.synths
        exact ih later ⟨sounded, rfl, alike.passes, congrArg (· + 1) alike.notes⟩

theorem drive_passes_alike {timeline : List (Event τ)} (looping : Bool) (room : Nat)
    {s : Stage σ ρ} {t : Stage σ' ρ}
    (kept : ∀ e ∈ timeline, Kept take take' related e.call) (alike : s.Alike related t) :
    (drivePasses take sleep timeline looping room s).1 =
        (drivePasses take' sleep timeline looping room t).1 ∧
      (drivePasses take sleep timeline looping room s).2.Alike related
        (drivePasses take' sleep timeline looping room t).2 := by
  induction room generalizing s t with
  | zero =>
      obtain ⟨ends, after⟩ := drive_pass_alike sleep kept alike
      refine ⟨?_, after⟩
      simp only [drivePasses, ends]
  | succ room ih =>
      obtain ⟨ends, after⟩ := drive_pass_alike sleep kept alike
      simp only [drivePasses, ends]
      split
      · exact ⟨rfl, after⟩
      · exact ih after

/-- All calls that playing tracks by a timeline can be made of. -/
def callsFor (tracks : List (CompiledTrack τ)) (timeline : List (Event τ)) : List SynthCall :=
  programCalls tracks ++ timeline.map Event.call ++ silenceCalls tracks

/-- A relation between two synths that is kept by every call is kept by a playback, which gives the
same and leaves the sleeper the same on both. -/
theorem Player.drive_alike (p : Player τ) (tracks : List (CompiledTrack τ)) (sleeper : ρ) {x : σ}
    {y : σ'} (start : related x y)
    (kept : ∀ timeline, p.timeline tracks = .ok timeline →
      ∀ c ∈ callsFor tracks timeline, Kept take take' related c) :
    (p.drive take sleep tracks x sleeper).result = (p.drive take' sleep tracks y sleeper).result ∧
      (p.drive take sleep tracks x sleeper).sleeper =
        (p.drive take' sleep tracks y sleeper).sleeper ∧
      related (p.drive take sleep tracks x sleeper).synth
        (p.drive take' sleep tracks y sleeper).synth := by
  unfold Player.drive
  cases made : p.timeline tracks with
  | error e => exact ⟨rfl, rfl, start⟩
  | ok timeline =>
      have all := kept timeline made
      simp only [callsFor, List.mem_append, or_imp, forall_and] at all
      obtain ⟨⟨programs, events⟩, silences⟩ := all
      have begun : Stage.Alike related
          ⟨(programCalls tracks).foldl take x, sleeper, 0, 0⟩
          ⟨(programCalls tracks).foldl take' y, sleeper, 0, 0⟩ :=
        ⟨foldl_related programs start, rfl, rfl, rfl⟩
      have sounding : ∀ e ∈ timeline, Kept take take' related e.call := fun e member =>
        events _ (List.mem_map_of_mem member)
      obtain ⟨ends, after⟩ :=
        drive_passes_alike sleep p.looping Player.maxPasses sounding begun
      dsimp only
      generalize drivePasses take sleep timeline p.looping Player.maxPasses _ = first at ends after
      generalize drivePasses take' sleep timeline p.looping Player.maxPasses _ = second
        at ends after
      obtain ⟨ending, s⟩ := first
      obtain ⟨_, t⟩ := second
      cases ends
      cases ending with
      | none => exact ⟨rfl, after.sleepers, after.synths⟩
      | some stopped =>
          have tally : (⟨s.passes, s.notes⟩ : Tally) = ⟨t.passes, t.notes⟩ := by
            rw [after.passes, after.notes]
          refine ⟨congrArg Except.ok tally, after.sleepers, ?_⟩
          cases stopped with
          | false => exact after.synths
          | true => exact foldl_related silences after.synths

end Related

section Told

variable [Time τ] {sleep : ρ → ClockTime → Bool × ρ}

/-- The event that comes next and what is left of its pass; after the end of a pass the timeline
starts over. -/
def upNext (timeline : List (Event τ)) : List (Event τ) → Option (Event τ × List (Event τ))
  | e :: rest => some (e, rest)
  | [] =>
      match timeline with
      | e :: rest => some (e, rest)
      | [] => none

/-- What a sleeper answers for the event after `k` others, none of which it stopped. -/
def answerAt (sleep : ρ → ClockTime → Bool × ρ) (timeline : List (Event τ)) :
    Nat → ρ → List (Event τ) → Bool
  | 0, sleeper, rest =>
      match upNext timeline rest with
      | none => false
      | some (e, _) => (sleep sleeper (ClockTime.ofSeconds e.time)).1
  | k + 1, sleeper, rest =>
      match upNext timeline rest with
      | none => false
      | some (e, later) =>
          answerAt sleep timeline k (sleep sleeper (ClockTime.ofSeconds e.time)).2 later

theorem answer_at_end (timeline : List (Event τ)) (k : Nat) (sleeper : ρ) :
    answerAt sleep timeline k sleeper [] = answerAt sleep timeline k sleeper timeline := by
  cases k <;> cases timeline <;> rfl

/-- The waits from here on are answered as the sleeper does that is asked for these events next. -/
def Answered (sleep : ρ → ClockTime → Bool × ρ) (timeline : List (Event τ)) (stops : Nat → Bool)
    (waits : Nat) (sleeper : ρ) (rest : List (Event τ)) : Prop :=
  ∀ k, stops (waits + k) = answerAt sleep timeline k sleeper rest

theorem Answered.next {timeline rest : List (Event τ)} {e : Event τ} {stops : Nat → Bool}
    {waits : Nat} {sleeper : ρ}
    (answered : Answered sleep timeline stops waits sleeper (e :: rest)) :
    stops waits = (sleep sleeper (ClockTime.ofSeconds e.time)).1 ∧
      Answered sleep timeline stops (waits + 1)
        (sleep sleeper (ClockTime.ofSeconds e.time)).2 rest := by
  refine ⟨answered 0, ?_⟩
  intro k
  rw [Nat.add_assoc, Nat.add_comm 1]
  exact answered (k + 1)

theorem Answered.start_over {timeline : List (Event τ)} {stops : Nat → Bool} {waits : Nat}
    {sleeper : ρ} (answered : Answered sleep timeline stops waits sleeper []) :
    Answered sleep timeline stops waits sleeper timeline := fun k =>
  (answered k).trans (answer_at_end timeline k sleeper)

/-- Driving leads from one point to another by making the calls of a run. -/
structure Stage.LedBy (take : σ → SynthCall → σ) (s : Stage σ ρ) (run : Run) (t : Stage σ ρ) :
    Prop where
  synth : t.synth = (run.acts.filterMap Act.call?).foldl take s.synth
  passes : t.passes = s.passes + run.passes
  notes : t.notes = s.notes + run.notes

theorem Stage.LedBy.trans {take : σ → SynthCall → σ} {s t u : Stage σ ρ} {first later : Run}
    (led : s.LedBy take first t) (more : t.LedBy take later u) :
    s.LedBy take ⟨first.acts ++ later.acts, later.stopped, first.passes + later.passes,
      first.notes + later.notes⟩ u where
  synth := by rw [more.synth, led.synth, List.filterMap_append, List.foldl_append]
  passes := by rw [more.passes, led.passes, Nat.add_assoc]
  notes := by rw [more.notes, led.notes, Nat.add_assoc]

variable (take : σ → SynthCall → σ)

theorem drive_pass_told (s : Stage σ ρ) {timeline events : List (Event τ)} {stops : Nat → Bool}
    {waits : Nat} (answered : Answered sleep timeline stops waits s.sleeper events) :
    (drivePass take sleep s events).1 = (playPass stops waits events).stopped ∧
      s.LedBy take (playPass stops waits events) (drivePass take sleep s events).2 ∧
      ((playPass stops waits events).stopped = false →
        Answered sleep timeline stops (waits + events.length)
          (drivePass take sleep s events).2.sleeper []) := by
  induction events generalizing s waits with
  | nil => exact ⟨rfl, ⟨rfl, rfl, rfl⟩, fun _ => answered⟩
  | cons e rest ih =>
      obtain ⟨now, later⟩ := answered.next
      cases stopped : (sleep s.sleeper (ClockTime.ofSeconds e.time)).1 with
      | true =>
          rw [stopped] at now
          simp only [drivePass, playPass, stopped, now, if_true]
          exact ⟨trivial, ⟨rfl, rfl, rfl⟩, fun quiet => absurd quiet (by decide)⟩
      | false =>
          rw [stopped] at now
          obtain ⟨ends, led, goesOn⟩ := ih ⟨take s.synth e.call,
            (sleep s.sleeper (ClockTime.ofSeconds e.time)).2, s.passes, s.notes + 1⟩ later
          simp only [drivePass, playPass, stopped, now, Bool.false_eq_true, if_false]
          refine ⟨ends, ⟨led.synth, led.passes, ?_⟩, ?_⟩
          · rw [led.notes, Nat.add_assoc, Nat.add_comm 1]
          · intro quiet
            rw [List.length_cons, Nat.add_comm rest.length, ← Nat.add_assoc]
            exact goesOn quiet

theorem drive_passes_told (s : Stage σ ρ) {timeline : List (Event τ)} (looping : Bool)
    (room : Nat) {stops : Nat → Bool} {waits : Nat}
    (answered : Answered sleep timeline stops waits s.sleeper timeline) :
    (drivePasses take sleep timeline looping room s).1 =
        (playPasses timeline looping stops waits room).map (·.stopped) ∧
      ∀ run, playPasses timeline looping stops waits room = some run →
        s.LedBy take run (drivePasses take sleep timeline looping room s).2 := by
  induction room generalizing s waits with
  | zero =>
      obtain ⟨ends, led, _⟩ := drive_pass_told take s answered
      simp only [drivePasses, playPasses, ends]
      by_cases stopped : (playPass stops waits timeline).stopped = true
      · rw [if_pos stopped, if_pos stopped]
        exact ⟨congrArg some stopped.symm, fun run played => Option.some.inj played ▸ led⟩
      · rw [if_neg stopped, if_neg stopped]
        exact ⟨rfl, fun run played => by cases played⟩
  | succ room ih =>
      obtain ⟨ends, led, goesOn⟩ := drive_pass_told take s answered
      simp only [drivePasses, playPasses, ends]
      split
      · exact ⟨rfl, fun run played => Option.some.inj played ▸ led⟩
      · rename_i again
        simp only [Bool.or_eq_true, not_or, Bool.not_eq_true] at again
        obtain ⟨later, whole⟩ := ih _ (goesOn again.1.1).start_over
        rw [later]
        cases told : playPasses timeline looping stops (waits + timeline.length) room with
        | none => exact ⟨rfl, fun run played => by cases played⟩
        | some rest =>
            exact ⟨rfl, fun run played => Option.some.inj played ▸ led.trans (whole rest told)⟩

/-- The answers of a sleeper through the whole playback of tracks. -/
def Player.answers (p : Player τ) (sleep : ρ → ClockTime → Bool × ρ)
    (tracks : List (CompiledTrack τ)) (sleeper : ρ) : Nat → Bool :=
  match p.timeline tracks with
  | .error _ => fun _ => false
  | .ok timeline => fun k => answerAt sleep timeline k sleeper timeline

/-- What is driven is what `play` tells of the same answers: a synth is given the calls that it
tells, and the result is the same. -/
theorem Player.drive_told (p : Player τ) (sleep : ρ → ClockTime → Bool × ρ)
    (tracks : List (CompiledTrack τ)) (synth : σ) (sleeper : ρ) :
    (p.drive take sleep tracks synth sleeper).result =
        (p.play tracks (p.answers sleep tracks sleeper)).map Performance.tally ∧
      ∀ done, p.play tracks (p.answers sleep tracks sleeper) = .ok done →
        (p.drive take sleep tracks synth sleeper).synth = done.calls.foldl take synth := by
  unfold Player.drive Player.play Player.answers
  cases made : p.timeline tracks with
  | error e => exact ⟨rfl, fun done played => by cases played⟩
  | ok timeline =>
      have answered : Answered sleep timeline (fun k => answerAt sleep timeline k sleeper timeline)
          0 sleeper timeline := fun k => by rw [Nat.zero_add]
      obtain ⟨ends, led⟩ := drive_passes_told take
        ⟨(programCalls tracks).foldl take synth, sleeper, 0, 0⟩ p.looping Player.maxPasses answered
      dsimp only
      generalize drivePasses take sleep timeline p.looping Player.maxPasses _ = driven at ends led
      obtain ⟨ending, s⟩ := driven
      cases told : playPasses timeline p.looping
          (fun k => answerAt sleep timeline k sleeper timeline) 0 Player.maxPasses with
      | none =>
          rw [told] at ends
          cases ends
          exact ⟨rfl, fun done played => by cases played⟩
      | some run =>
          rw [told] at ends
          cases ends
          obtain ⟨body, passes, notes⟩ := led run told
          simp only [Nat.zero_add] at passes notes
          constructor
          · simp only [passes, notes, Except.map, Performance.tally]
          · intro done played
            cases played
            rw [calls_eq, List.foldl_append, List.foldl_append]
            dsimp only
            rw [body]
            cases run.stopped <;> rfl

end Told

end Cadenza
