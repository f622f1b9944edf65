import Cadenza.Proofs.Number.Doubles
import Cadenza.Proofs.Phrase.Placing

/-!
# Notes as pairs of events

A note is laid out as two events, its beginning and right after it its end. The end is not earlier,
whatever the sums are rounded to, and stays so when the phrase and its track are put in their place.
-/

namespace Cadenza

set_option autoImplicit false

variable {τ : Type} [Time τ]

/-- Events in pairs: a note begins, and then ends on the same key of the same track, not earlier. -/
inductive Paired : List (Event τ) → Prop where
  | nil : Paired []
  | cons {first last : Event τ} {rest : List (Event τ)} (begins : first.kind = .noteOn)
      (ends : last.kind = .noteOff) (key : last.key = first.key) (track : last.track = first.track)
      (order : ¬ last.time < first.time) (others : Paired rest) : Paired (first :: last :: rest)

theorem Paired.append {first later : List (Event τ)} (paired : Paired first)
    (others : Paired later) : Paired (first ++ later) := by
  induction paired with
  | nil => exact others
  | cons begins ends key track order _ ih => exact Paired.cons begins ends key track order ih

theorem Paired.flat_map {α : Type} {xs : List α} {events : α → List (Event τ)}
    (each : ∀ x ∈ xs, Paired (events x)) : Paired (xs.flatMap events) := by
  induction xs with
  | nil => exact Paired.nil
  | cons x rest ih =>
      have here := each x List.mem_cons_self
      have others := ih fun y member => each y (List.mem_cons_of_mem x member)
      exact here.append others

theorem Paired.on_track {events : List (Event τ)} (paired : Paired events) (track : Nat) :
    Paired (events.map (·.onTrack track)) := by
  induction paired with
  | nil => exact Paired.nil
  | cons begins ends key _ order _ ih => exact Paired.cons begins ends key rfl order ih

/-- The notes of a phrase are pairs wherever the phrase starts. -/
theorem paired_place_notes {policy : DelayPolicy} {track : TrackId} {previous : Option Float}
    {time last : Float} {notes : List (Note Float)} {events : List (Event Float)}
    (made : placeNotes policy track previous time notes = .ok (events, last))
    (lasting : ∀ n ∈ notes, Time.zero ≤ n.duration) (start : Float) :
    Paired (events.map (·.mapTime (· + start))) := by
  induction notes generalizing previous time events with
  | nil =>
      rw [(place_notes_nil_ok made).1]
      exact Paired.nil
  | cons n rest ih =>
      obtain ⟨delay, begun, key, later, _, _, _, placed, rfl⟩ := place_notes_cons_ok made
      have others := ih placed fun m member => lasting m (List.mem_cons_of_mem n member)
      have order : ¬ begun + n.duration + start < begun + start :=
        float_not_end_lt_start (lasting n List.mem_cons_self)
      have moved : Paired (⟨.noteOn, begun + start, key, n.velocity, none⟩ ::
          ⟨.noteOff, begun + n.duration + start, key, n.velocity, none⟩ ::
          later.map (·.mapTime (· + start))) := Paired.cons rfl rfl rfl rfl order others
      exact moved

theorem paired_place {p : Phrase Float} {policy : DelayPolicy} {lastStart lastEnd : Float}
    {placed : Placed Float} (made : p.place policy lastStart lastEnd = .ok placed)
    (lasting : ∀ n ∈ p.notes, Time.zero ≤ n.duration) : Paired placed.entry.events := by
  obtain ⟨events, duration, delay, laidOut, _, _, _, entry⟩ := place_ok made
  rw [entry]
  exact paired_place_notes laidOut lasting placed.start

end Cadenza
