import Cadenza.Proofs.Playback.Merging
import Cadenza.Proofs.Score.Refusing

/-!
# What fits in MIDI

Before a playback does anything it asks every event of its timeline whether its key and its velocity
fit in seven bits. The times do not matter for that, so the first event that does not fit is found
in the sorted events as well as in the timeline.
-/

namespace Cadenza

set_option autoImplicit false

def Midi.SevenBits (value : Int) : Prop :=
  0 ≤ value ∧ value ≤ 127

instance (value : Int) : Decidable (Midi.SevenBits value) :=
  inferInstanceAs (Decidable (_ ∧ _))

namespace Event

variable {τ υ : Type}

/-- An event whose key and velocity fit in MIDI. -/
def Fits (e : Event τ) : Prop :=
  Midi.SevenBits e.key.toInt ∧ Midi.SevenBits e.velocity.toNat

instance (e : Event τ) : Decidable e.Fits :=
  inferInstanceAs (Decidable (_ ∧ _))

/-- What does not fit in MIDI; of a key and a velocity that both do not, the key. -/
def misfit? (e : Event τ) : Option Midi.OutOfRange :=
  if Midi.SevenBits e.key.toInt then
    if Midi.SevenBits e.velocity.toNat then none else some ⟨"velocity", e.velocity.toNat⟩
  else some ⟨"key", e.key.toInt⟩

theorem misfit_eq_none_iff {e : Event τ} : e.misfit? = none ↔ e.Fits := by
  unfold misfit? Fits
  by_cases key : Midi.SevenBits e.key.toInt
  · by_cases velocity : Midi.SevenBits e.velocity.toNat <;> simp [key, velocity]
  · simp [key]

theorem fits_on_track {e : Event τ} {track : Nat} : (e.onTrack track).Fits ↔ e.Fits :=
  Iff.rfl

end Event

theorem settled_data_byte (what : String) (value : Int) :
    Settled (if Midi.SevenBits value then none else some ⟨what, value⟩)
      (Midi.dataByte what value) := by
  by_cases fits : Midi.SevenBits value
  · rw [if_pos fits]
    exact ⟨_, if_pos fits⟩
  · rw [if_neg fits]
    exact if_neg fits

section Check

variable {τ : Type}

theorem settled_check_range (events : List (Event τ)) :
    Settled (events.findSome? Event.misfit?) (checkRange events) := by
  induction events with
  | nil => exact ⟨(), rfl⟩
  | cons e rest ih =>
      -- An event is asked twice, so each question can fail before the rest of the list does.
      have twice : e.misfit? = (if Midi.SevenBits e.key.toInt then none
            else some ⟨"key", e.key.toInt⟩).or
          (if Midi.SevenBits e.velocity.toNat then none
            else some ⟨"velocity", e.velocity.toNat⟩) := by
        unfold Event.misfit?
        split <;> rfl
      rw [find_first_cons, twice, Option.or_assoc]
      exact (settled_data_byte "key" e.key.toInt).bind fun _ =>
        (settled_data_byte "velocity" e.velocity.toNat).bind fun _ => ih

theorem find_misfit_of_untimed {events others : List (Event τ)}
    (same : events.map Event.untimed = others.map Event.untimed) :
    events.findSome? Event.misfit? = others.findSome? Event.misfit? := by
  have through : ∀ xs : List (Event τ),
      xs.findSome? Event.misfit? = (xs.map Event.untimed).findSome? Event.misfit? := by
    intro xs
    rw [List.findSome?_map]
    rfl
  rw [through, through, same]

variable [Time τ]

namespace Player

variable {p : Player τ} {tracks : List (CompiledTrack τ)}

theorem fits_of_timeline {timeline : List (Event τ)} (made : p.timeline tracks = .ok timeline) :
    ∀ e ∈ timeline, e.Fits := by
  unfold Player.timeline at made
  split at made
  · cases made
  · split at made
    · cases made
    · rename_i checked
      cases made
      have none := (settled_check_range timeline).ok_iff.1 ⟨_, checked⟩
      intro e member
      exact Event.misfit_eq_none_iff.1 (List.findSome?_eq_none_iff.1 none e member)

/-- There is no timeline if the events cannot be sorted; otherwise there is one unless one of the
sorted events does not fit, and then the first one is told. -/
theorem settled_timeline (p : Player τ) (tracks : List (CompiledTrack τ)) :
    Settled
      (match sortEvents? (mergeTracks tracks) with
        | none => some .disorder
        | some sorted => (sorted.findSome? Event.misfit?).map .outOfRange)
      (p.timeline tracks) := by
  unfold Player.timeline
  cases sorts : sortEvents? (mergeTracks tracks) with
  | none => simp [normalize?, sorts, Settled]
  | some sorted =>
      have same := untimed_seconds p.tempo sorted
      simp only [normalize?, sorts, Option.map_some, ← find_misfit_of_untimed same]
      have checked := settled_check_range (eventsToSeconds p.tempo (toRelative sorted))
      cases found : (eventsToSeconds p.tempo (toRelative sorted)).findSome? Event.misfit? with
      | none =>
          obtain ⟨_, passed⟩ := checked.ok_iff.2 found
          simp [passed, Settled]
      | some m =>
          have failed := checked.error_iff.2 found
          simp [failed, Settled]

end Player

end Check

end Cadenza
