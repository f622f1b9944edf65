import Cadenza.Proofs.Phrase.Placing
import Mathlib.Algebra.Order.Ring.Rat
import Mathlib.Tactic.Linarith

/-!
# Notes that never go back

With negative delays clamped or refused a note begins at or after the one before it, even if it is
measured from the beginning of that note. So the notes of a phrase begin in turn, none of them
before the phrase, and what lasts no negative time does not end before it begins. Counted over the
rationals, as rounded sums could fall short of that.
-/

namespace Cadenza

set_option autoImplicit false

/-- The events of some notes, two of each note in turn: its beginning, not before the one of the
note before it nor before `since`, and its end, not before its beginning. -/
inductive Rising : Rat → List (Note Rat) → List (Event Rat) → Prop where
  | nil (since : Rat) : Rising since [] []
  | cons {since : Rat} {n : Note Rat} {notes : List (Note Rat)} {first last : Event Rat}
      {rest : List (Event Rat)} (begins : first.kind = .noteOn) (ends : last.kind = .noteOff)
      (own : n.key? = some first.key) (same : last.key = first.key) (after : since ≤ first.time)
      (order : first.time ≤ last.time) (others : Rising first.time notes rest) :
      Rising since (n :: notes) (first :: last :: rest)

section Rising

variable {since : Rat} {notes : List (Note Rat)} {events : List (Event Rat)}

theorem Rising.le_time (rising : Rising since notes events) : ∀ e ∈ events, since ≤ e.time := by
  induction rising with
  | nil => simp
  | cons _ _ _ _ after order _ ih =>
      intro e member
      rcases List.mem_cons.1 member with rfl | later
      · exact after
      · rcases List.mem_cons.1 later with rfl | other
        · exact after.trans order
        · exact after.trans (ih e other)

theorem Rising.move (rising : Rising since notes events) (start : Rat) :
    Rising (since + start) notes (events.map (·.mapTime (· + start))) := by
  induction rising with
  | nil => exact Rising.nil _
  | @cons since n notes first last rest begins ends own same after order _ ih =>
      have later : since + start ≤ first.time + start := (add_le_add_iff_right start).2 after
      have longer : first.time + start ≤ last.time + start := (add_le_add_iff_right start).2 order
      have moved : Rising (since + start) (n :: notes) (first.mapTime (· + start) ::
          last.mapTime (· + start) :: rest.map (·.mapTime (· + start))) :=
        Rising.cons begins ends own same later longer ih
      exact moved

end Rising

section Checked

variable {policy : DelayPolicy} (checked : policy ≠ .allow)

include checked in
theorem used_delay_nonneg {track : TrackId} {delay used : Rat}
    (applied : policy.apply track delay = .ok used) : 0 ≤ used := by
  cases policy with
  | allow => exact absurd rfl checked
  | clamp =>
      obtain rfl := Except.ok.inj applied
      split
      · rename_i positive
        exact le_of_lt positive
      · exact le_refl 0
  | reject =>
      simp only [DelayPolicy.apply] at applied
      split at applied
      · cases applied
      · rename_i accepted
        obtain rfl := Except.ok.inj applied
        exact not_lt.1 accepted

/-- A note that follows another one begins at or after it, whatever it is measured from. -/
theorem start_le_start_after {n : Note Rat} {start duration delay : Rat} (lasting : 0 ≤ duration)
    (waits : 0 ≤ delay) : start ≤ n.startAfter (some duration) (start + duration) delay := by
  simp only [Note.startAfter]
  split
  · change start ≤ start + duration + delay - duration
    linarith
  · change start ≤ start + duration + delay
    linarith

include checked in
/-- All notes after one that leaves off at `time` begin in turn, if the next one does not begin
before `since`. -/
theorem rising_place_notes {track : TrackId} {previous : Option Rat} {time last since : Rat}
    {notes : List (Note Rat)} {events : List (Event Rat)}
    (made : placeNotes policy track previous time notes = .ok (events, last))
    (lasting : ∀ n ∈ notes, 0 ≤ n.duration) (ended : since ≤ time)
    (follows : ∀ n : Note Rat, ∀ delay, 0 ≤ delay → since ≤ n.startAfter previous time delay) :
    Rising since notes events ∧ since ≤ last := by
  -- The look-back to the note before is in `follows` alone, which each note renews for the next.
  induction notes generalizing previous time since events with
  | nil =>
      obtain ⟨rfl, rfl⟩ := place_notes_nil_ok made
      exact ⟨Rising.nil since, ended⟩
  | cons n rest ih =>
      obtain ⟨delay, start, key, later, applied, begun, keyed, placed, rfl⟩ :=
        place_notes_cons_ok made
      have own := lasting n List.mem_cons_self
      have after : since ≤ start := begun ▸ follows n delay (used_delay_nonneg checked applied)
      have order : start ≤ start + n.duration := le_add_of_nonneg_right own
      have remaining : ∀ m ∈ rest, 0 ≤ m.duration :=
        fun m member => lasting m (List.mem_cons_of_mem n member)
      obtain ⟨others, reached⟩ := ih placed remaining order
        fun m delay waits => start_le_start_after own waits
      exact ⟨Rising.cons rfl rfl keyed rfl after order others, after.trans reached⟩

include checked in
/-- A phrase begins at or after what it is measured from, and its notes begin in turn after that. -/
theorem rising_place {p : Phrase Rat} {lastStart lastEnd : Rat} {placed : Placed Rat}
    (made : p.place policy lastStart lastEnd = .ok placed)
    (lasting : ∀ n ∈ p.notes, 0 ≤ n.duration) :
    (if p.anchor.isStart then lastStart else lastEnd) ≤ placed.start ∧
      placed.start ≤ placed.finish ∧ Rising placed.start p.notes placed.entry.events := by
  obtain ⟨events, duration, delay, laidOut, applied, begun, ended, entry⟩ := place_ok made
  obtain ⟨rising, lasts⟩ := rising_place_notes checked laidOut lasting (le_refl _)
    fun n delay waits => waits
  have still : Time.zero + placed.start = placed.start := zero_add placed.start
  have moved := rising.move placed.start
  rw [still] at moved
  refine ⟨?_, ?_, entry ▸ moved⟩
  · rw [begun]
    exact le_add_of_nonneg_right (used_delay_nonneg checked applied)
  · rw [ended]
    exact le_add_of_nonneg_right lasts

end Checked

end Cadenza
