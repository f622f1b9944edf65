import Cadenza.Phrase.Layout

/-!
# Placing notes

What is known of a phrase that was placed: its events are those of its notes in turn, each begun
where the note before it puts it, and all moved by the start of the phrase.
-/

namespace Cadenza

set_option autoImplicit false

variable {τ : Type} [Time τ]

omit [Time τ] in
def Note.keyOrOverflow (n : Note τ) : Except (LayoutError τ) Int32 :=
  n.key?.elim (.error .overflow) .ok

/-- Placing notes, told step by step. -/
theorem place_notes_cons (policy : DelayPolicy) (track : TrackId) (previous : Option τ) (time : τ)
    (n : Note τ) (rest : List (Note τ)) :
    placeNotes policy track previous time (n :: rest) =
      (policy.apply track n.delay).bind fun delay => n.keyOrOverflow.bind fun key =>
        (placeNotes policy track (some n.duration)
          (n.startAfter previous time delay + n.duration) rest).bind fun later =>
            .ok (⟨.noteOn, n.startAfter previous time delay, key, n.velocity, none⟩ ::
              ⟨.noteOff, n.startAfter previous time delay + n.duration, key, n.velocity, none⟩ ::
              later.1, later.2) := by
  rw [placeNotes]
  cases policy.apply track n.delay with
  | error e => rfl
  | ok delay =>
      simp only [Event.ofNote?, Note.keyOrOverflow, Except.bind]
      cases n.key? with
      | none => rfl
      | some key =>
          simp only [Option.map_some, Option.elim_some]
          cases placeNotes policy track (some n.duration)
            (n.startAfter previous time delay + n.duration) rest <;> rfl

/-- Everything that placing a note and those after it has done, if it did not fail. -/
theorem place_notes_cons_ok {policy : DelayPolicy} {track : TrackId} {previous : Option τ}
    {time last : τ} {n : Note τ} {rest : List (Note τ)} {events : List (Event τ)}
    (made : placeNotes policy track previous time (n :: rest) = .ok (events, last)) :
    ∃ delay start key later,
      policy.apply track n.delay = .ok delay ∧
      start = n.startAfter previous time delay ∧
      n.key? = some key ∧
      placeNotes policy track (some n.duration) (start + n.duration) rest = .ok (later, last) ∧
      events = ⟨.noteOn, start, key, n.velocity, none⟩ ::
        ⟨.noteOff, start + n.duration, key, n.velocity, none⟩ :: later := by
  unfold placeNotes at made
  cases delayed : policy.apply track n.delay with
  | error e => simp [delayed] at made
  | ok delay =>
      cases keyed : n.key? with
      | none => simp [delayed, Event.ofNote?, keyed] at made
      | some key =>
          simp only [delayed, Event.ofNote?, keyed, Option.map_some] at made
          split at made
          · cases made
          · rename_i later end_ placed
            obtain ⟨rfl, rfl⟩ := Prod.mk.inj (Except.ok.inj made)
            exact ⟨delay, _, key, later, rfl, rfl, rfl, placed, rfl⟩

theorem place_notes_cons_of_ok {policy : DelayPolicy} {track : TrackId} {previous : Option τ}
    {time delay last : τ} {n : Note τ} {key : Int32} {rest : List (Note τ)}
    {later : List (Event τ)} (delayed : policy.apply track n.delay = .ok delay)
    (keyed : n.key? = some key)
    (placed : placeNotes policy track (some n.duration)
      (n.startAfter previous time delay + n.duration) rest = .ok (later, last)) :
    placeNotes policy track previous time (n :: rest) =
      .ok (⟨.noteOn, n.startAfter previous time delay, key, n.velocity, none⟩ ::
        ⟨.noteOff, n.startAfter previous time delay + n.duration, key, n.velocity, none⟩ :: later,
        last) := by
  simp only [placeNotes, delayed, Event.ofNote?, keyed, Option.map_some, placed]

theorem place_notes_nil_ok {policy : DelayPolicy} {track : TrackId} {previous : Option τ}
    {time last : τ} {events : List (Event τ)}
    (made : placeNotes policy track previous time [] = .ok (events, last)) :
    events = [] ∧ last = time := by
  obtain ⟨rfl, rfl⟩ := Prod.mk.inj (Except.ok.inj made)
  exact ⟨rfl, rfl⟩

theorem length_place_notes {policy : DelayPolicy} {track : TrackId} {previous : Option τ}
    {time last : τ} {notes : List (Note τ)} {events : List (Event τ)}
    (made : placeNotes policy track previous time notes = .ok (events, last)) :
    events.length = 2 * notes.length := by
  induction notes generalizing previous time events with
  | nil =>
      rw [(place_notes_nil_ok made).1]
      rfl
  | cons n rest ih =>
      obtain ⟨delay, start, key, later, _, _, _, placed, rfl⟩ := place_notes_cons_ok made
      have tail := ih placed
      simp only [List.length_cons]
      omega

/-- Placing a phrase, told step by step. -/
theorem place_eq (p : Phrase τ) (policy : DelayPolicy) (lastStart lastEnd : τ) :
    p.place policy lastStart lastEnd =
      (layOut policy p.track p.notes).bind fun laidOut =>
        (policy.apply p.track p.delay).bind fun delay =>
          let start := (if p.anchor.isStart then lastStart else lastEnd) + delay
          .ok ⟨⟨p.track, laidOut.1.map (·.mapTime (· + start))⟩, start, start + laidOut.2⟩ := by
  rw [Phrase.place]
  cases layOut policy p.track p.notes with
  | error e => rfl
  | ok laidOut =>
      simp only [Except.bind]
      cases policy.apply p.track p.delay <;> rfl

/-- Everything that placing a phrase has done, if it did not fail. -/
theorem place_ok {p : Phrase τ} {policy : DelayPolicy} {lastStart lastEnd : τ} {placed : Placed τ}
    (made : p.place policy lastStart lastEnd = .ok placed) :
    ∃ events duration delay,
      layOut policy p.track p.notes = .ok (events, duration) ∧
      policy.apply p.track p.delay = .ok delay ∧
      placed.start = (if p.anchor.isStart then lastStart else lastEnd) + delay ∧
      placed.finish = placed.start + duration ∧
      placed.entry = ⟨p.track, events.map (·.mapTime (· + placed.start))⟩ := by
  unfold Phrase.place at made
  split at made
  · cases made
  · rename_i events duration laidOut
    split at made
    · cases made
    · rename_i delay delayed
      rw [← Except.ok.inj made]
      exact ⟨events, duration, delay, laidOut, delayed, rfl, rfl, rfl⟩

theorem place_of_ok {p : Phrase τ} {policy : DelayPolicy} {lastStart lastEnd start duration
    delay : τ} {events : List (Event τ)}
    (laidOut : layOut policy p.track p.notes = .ok (events, duration))
    (delayed : policy.apply p.track p.delay = .ok delay)
    (begun : start = (if p.anchor.isStart then lastStart else lastEnd) + delay) :
    p.place policy lastStart lastEnd =
      .ok ⟨⟨p.track, events.map (·.mapTime (· + start))⟩, start, start + duration⟩ := by
  subst begun
  simp only [Phrase.place, laidOut, delayed]

theorem track_of_place {p : Phrase τ} {policy : DelayPolicy} {lastStart lastEnd : τ}
    {placed : Placed τ} (made : p.place policy lastStart lastEnd = .ok placed) :
    placed.entry.track = p.track := by
  obtain ⟨_, _, _, _, _, _, _, entry⟩ := place_ok made
  rw [entry]

theorem length_of_place {p : Phrase τ} {policy : DelayPolicy} {lastStart lastEnd : τ}
    {placed : Placed τ} (made : p.place policy lastStart lastEnd = .ok placed) :
    placed.entry.events.length = 2 * p.notes.length := by
  obtain ⟨events, _, _, laidOut, _, _, _, entry⟩ := place_ok made
  rw [entry, List.length_map]
  exact length_place_notes laidOut

end Cadenza
