import Cadenza.Proofs.Phrase.Placing
import Mathlib.Algebra.Order.Ring.Rat
import Mathlib.Tactic.Linarith

/-!
# The times of notes by recurrence

What is kept from note to note is the end of the note before and its duration, never its start. The
start is what is left when the duration is taken off again, exactly so over the rationals. So each
note is placed by the start or the end of the note before it, whatever the signs of delays and
durations are.
-/

namespace Cadenza

set_option autoImplicit false

/-- When a note starts, by the start and the end of the note before it, if there is one. -/
def Note.onset (n : Note Rat) (before : Option (Rat × Rat)) (delay : Rat) : Rat :=
  match before with
  | none => delay
  | some (start, finish) => (if n.anchor = .start then start else finish) + delay

/-- The events of notes that are placed one by the other. -/
inductive InTurn (policy : DelayPolicy) (track : TrackId) :
    Option (Rat × Rat) → List (Note Rat) → List (Event Rat) → Prop where
  | nil (before : Option (Rat × Rat)) : InTurn policy track before [] []
  | cons {before : Option (Rat × Rat)} {n : Note Rat} {rest : List (Note Rat)} {key : Int32}
      {delay on off : Rat} {later : List (Event Rat)} (keyed : n.key? = some key)
      (delayed : policy.apply track n.delay = .ok delay) (begins : on = n.onset before delay)
      (ends : off = on + n.duration) (others : InTurn policy track (some (on, off)) rest later) :
      InTurn policy track before (n :: rest)
        (⟨.noteOn, on, key, n.velocity, none⟩ :: ⟨.noteOff, off, key, n.velocity, none⟩ :: later)

/-- Taking off the duration of the note before leads back to its start. -/
theorem start_after_eq_onset (n : Note Rat) (start duration delay : Rat) :
    n.startAfter (some duration) (start + duration) delay =
      n.onset (some (start, start + duration)) delay := by
  cases anchored : n.anchor with
  | start =>
      simp only [Note.startAfter, Note.onset, anchored, Anchor.isStart, if_true]
      change start + duration + delay - duration = start + delay
      linarith
  | finish =>
      simp only [Note.startAfter, Note.onset, anchored, Anchor.isStart]
      rfl

section Placed

variable {policy : DelayPolicy} {track : TrackId} {notes : List (Note Rat)}
  {events : List (Event Rat)}

def lastTime (time : Rat) (events : List (Event Rat)) : Rat :=
  (events.getLast?.map (·.time)).getD time

theorem in_turn_place_notes {previous : Option Rat} {time last : Rat}
    {before : Option (Rat × Rat)}
    (made : placeNotes policy track previous time notes = .ok (events, last))
    (looksBack : ∀ (n : Note Rat) delay, n.startAfter previous time delay = n.onset before delay) :
    InTurn policy track before notes events ∧ last = lastTime time events := by
  -- `looksBack` is all that the loop knows of the note before; every note renews it for the next.
  induction notes generalizing previous time before events with
  | nil =>
      obtain ⟨rfl, rfl⟩ := place_notes_nil_ok made
      exact ⟨InTurn.nil before, rfl⟩
  | cons n rest ih =>
      obtain ⟨delay, start, key, later, delayed, begun, keyed, placed, rfl⟩ :=
        place_notes_cons_ok made
      obtain ⟨others, ended⟩ := ih placed fun m delay => start_after_eq_onset m start _ delay
      refine ⟨InTurn.cons keyed delayed (begun.trans (looksBack n delay)) rfl others, ?_⟩
      rw [ended]
      cases later with
      | nil => rfl
      | cons e more => simp [lastTime, List.getLast?_cons]

theorem InTurn.accepted {before : Option (Rat × Rat)}
    (inTurn : InTurn policy track before notes events) :
    ∀ n ∈ notes, n.key? ≠ none ∧ ∃ delay, policy.apply track n.delay = .ok delay := by
  induction inTurn with
  | nil => simp
  | cons keyed delayed _ _ _ ih =>
      intro m member
      rcases List.mem_cons.1 member with rfl | later
      · exact ⟨by simp [keyed], _, delayed⟩
      · exact ih m later

theorem place_notes_of_accepted (previous : Option Rat) (time : Rat)
    (accepted : ∀ n ∈ notes, n.key? ≠ none ∧ ∃ delay, policy.apply track n.delay = .ok delay) :
    ∃ laidOut, placeNotes policy track previous time notes = .ok laidOut := by
  induction notes generalizing previous time with
  | nil => exact ⟨_, rfl⟩
  | cons n rest ih =>
      obtain ⟨own, delay, delayed⟩ := accepted n List.mem_cons_self
      obtain ⟨key, keyed⟩ := Option.ne_none_iff_exists'.1 own
      obtain ⟨⟨later, last⟩, placed⟩ := ih (some n.duration)
        (n.startAfter previous time delay + n.duration)
        fun m member => accepted m (List.mem_cons_of_mem n member)
      exact ⟨_, place_notes_cons_of_ok delayed keyed placed⟩

def timeAt (events : List (Event Rat)) (k : Nat) : Rat :=
  (events[k]?.map (·.time)).getD 0

theorem time_at_of_some {k : Nat} {e : Event Rat} (here : events[k]? = some e) :
    timeAt events k = e.time := by
  simp only [timeAt, here, Option.map_some, Option.getD_some]

/-- The two events of the note before the one at a place, or what came before all of them. -/
def pairBefore (before : Option (Rat × Rat)) (events : List (Event Rat)) : Nat → Option (Rat × Rat)
  | 0 => before
  | i + 1 => some (timeAt events (2 * i), timeAt events (2 * i + 1))

/-- The note at a place has the two events at twice that place. -/
theorem InTurn.at_place {before : Option (Rat × Rat)}
    (inTurn : InTurn policy track before notes events) {i : Nat} {n : Note Rat}
    (listed : notes[i]? = some n) :
    ∃ key delay on off, n.key? = some key ∧ policy.apply track n.delay = .ok delay ∧
      events[2 * i]? = some ⟨.noteOn, on, key, n.velocity, none⟩ ∧
      events[2 * i + 1]? = some ⟨.noteOff, off, key, n.velocity, none⟩ ∧
      off = on + n.duration ∧ on = n.onset (pairBefore before events i) delay := by
  induction inTurn generalizing i with
  | nil => cases listed
  | @cons before m rest key delay on off later keyed delayed begins ends _ ih =>
      cases i with
      | zero =>
          obtain rfl := Option.some.inj listed
          exact ⟨key, delay, on, off, keyed, delayed, rfl, rfl, ends, begins⟩
      | succ i =>
          obtain ⟨key', delay', on', off', keyed', delayed', first, last, ends', begins'⟩ :=
            ih listed
          refine ⟨key', delay', on', off', keyed', delayed', first, last, ends', ?_⟩
          rw [begins']
          cases i <;> rfl

theorem last_time_of_getElem {time : Rat} {k : Nat} {e : Event Rat} (last : events.length = k + 1)
    (here : events[k]? = some e) : lastTime time events = e.time := by
  rw [lastTime, List.getLast?_eq_getElem?, last, Nat.add_sub_cancel, here]
  rfl

end Placed

/-- Counted over the rationals, for any notes. They are laid out exactly if the policy refuses none
of their delays and their keys fit a word. There are then two events for each note in turn, its
beginning and its end, with the key and the velocity of the note. The first note begins after its
delay as the policy uses it, whatever its anchor is. Every other one begins its delay after the end
of the note before it, or after the beginning of that note if it is anchored to the start. It ends
when its own duration is over. The phrase lasts until its last note ends, even if one before it ends
later, and no time without notes. -/
theorem notes_laid_out_in_turn (policy : DelayPolicy) (track : TrackId) (notes : List (Note Rat)) :
    ((∃ laidOut, layOut policy track notes = .ok laidOut) ↔
      ∀ n ∈ notes, n.key? ≠ none ∧ ∃ delay, policy.apply track n.delay = .ok delay) ∧
    ∀ events duration, layOut policy track notes = .ok (events, duration) →
      events.length = 2 * notes.length ∧
      ∃ on off : Nat → Rat,
        (∀ i n, notes[i]? = some n → ∃ key delay,
          n.key? = some key ∧ policy.apply track n.delay = .ok delay ∧
          events[2 * i]? = some ⟨.noteOn, on i, key, n.velocity, none⟩ ∧
          events[2 * i + 1]? = some ⟨.noteOff, off i, key, n.velocity, none⟩ ∧
          off i = on i + n.duration ∧ (i = 0 → on i = delay) ∧
          ∀ j, i = j + 1 → on i = (if n.anchor = .start then on j else off j) + delay) ∧
        (notes = [] → duration = 0) ∧ ∀ i, notes.length = i + 1 → duration = off i := by
  have placed : ∀ events duration, layOut policy track notes = .ok (events, duration) →
      InTurn policy track none notes events ∧ duration = lastTime 0 events :=
    fun _ _ made => in_turn_place_notes made fun _ _ => rfl
  constructor
  · constructor
    · rintro ⟨⟨events, duration⟩, made⟩
      exact (placed events duration made).1.accepted
    · exact place_notes_of_accepted none 0
  · intro events duration made
    obtain ⟨inTurn, ended⟩ := placed events duration made
    have length := length_place_notes made
    refine ⟨length, fun i => timeAt events (2 * i), fun i => timeAt events (2 * i + 1), ?_, ?_, ?_⟩
    · intro i n listed
      obtain ⟨key, delay, on, off, keyed, delayed, first, last, ends, begins⟩ :=
        inTurn.at_place listed
      beta_reduce
      rw [time_at_of_some first, time_at_of_some last]
      refine ⟨key, delay, keyed, delayed, first, last, ends, ?_, ?_⟩
      · rintro rfl
        exact begins
      · rintro j rfl
        exact begins
    · rintro rfl
      cases inTurn
      exact ended
    · intro i count
      have inside : i < notes.length := by omega
      obtain ⟨key, delay, on, off, _, _, _, last, _⟩ :=
        inTurn.at_place (List.getElem?_eq_getElem inside)
      have whole : events.length = 2 * i + 1 + 1 := by omega
      beta_reduce
      rw [time_at_of_some last, ended, last_time_of_getElem whole last]

/-- A long note that goes on after the last one has ended. -/
example : (layOut .clamp "piano"
    [⟨⟨Fin.last 11, 4⟩, defaultVelocity, 4, -1, .start⟩,
      ⟨⟨Fin.last 11, 5⟩, defaultVelocity, 1 / 2, 1 / 2, .start⟩]).map Prod.snd = .ok (1 : Rat) := by
  decide +kernel

end Cadenza
