import Cadenza.Proofs.Arrangement
import Cadenza.Proofs.Playback.Merging
import Cadenza.Proofs.Score.Refusing

/-!
# What is heard of a compiled arrangement

Layout, grouping and tagging move the events of notes about, but none is lost or changed on the way.
So the compiled tracks hold the keys and velocities of all notes that the roots lead to, and no
others.
-/

namespace Cadenza

set_option autoImplicit false

variable {τ : Type}

/-- What is heard of a note: that it begins and that it ends. Nothing is if its key overflows. -/
def Note.sounds (n : Note τ) : List (EventKind × Int32 × UInt8) :=
  n.key?.elim [] fun key => [(.noteOn, key, n.velocity), (.noteOff, key, n.velocity)]

def Phrase.sounds (p : Phrase τ) : List (EventKind × Int32 × UInt8) :=
  p.notes.flatMap Note.sounds

theorem mem_note_sounds_iff {n : Note τ} {kind : EventKind} {key : Int32} {velocity : UInt8} :
    (kind, key, velocity) ∈ n.sounds ↔ n.key? = some key ∧ n.velocity = velocity := by
  cases keyed : n.key? with
  | none => simp [Note.sounds, keyed]
  | some own => cases kind <;> simp [Note.sounds, keyed, eq_comm]

/-- If every entry is on one of the tracks, grouping and tagging lose none and make none up. -/
theorem mem_sounds_of_tagged {tracks : List (TrackId × UInt8)} {layouts : List (List (Entry τ))}
    (inside : ∀ layout ∈ layouts, ∀ e ∈ layout, e.track ∈ tracks.map (·.1))
    {sound : EventKind × Int32 × UInt8} :
    (∃ t ∈ tracks.zipIdx.map fun t => CompiledTrack.mk t.1.1 t.2 t.1.2
        ((layouts.flatMap (givenTo t.1.1)).map (·.onTrack t.2)),
      ∃ e ∈ t.events, e.sound = sound) ↔
      ∃ layout ∈ layouts, sound ∈ layout.flatMap fun e => e.events.map Event.sound := by
  constructor
  · rintro ⟨_, compiled, e, given, rfl⟩
    obtain ⟨t, _, rfl⟩ := List.mem_map.1 compiled
    obtain ⟨own, ownIn, rfl⟩ := List.mem_map.1 given
    obtain ⟨layout, layoutIn, listed⟩ := List.mem_flatMap.1 ownIn
    obtain ⟨entry, entryIn, held⟩ := List.mem_flatMap.1 listed
    have kept : own.sound ∈ entry.events.map Event.sound := List.mem_map_of_mem held
    exact ⟨layout, layoutIn, List.mem_flatMap.2 ⟨entry, (List.mem_filter.1 entryIn).1, kept⟩⟩
  · rintro ⟨layout, layoutIn, told⟩
    obtain ⟨entry, entryIn, listed⟩ := List.mem_flatMap.1 told
    obtain ⟨own, held, rfl⟩ := List.mem_map.1 listed
    obtain ⟨registered, known, same⟩ := List.mem_map.1 (inside layout layoutIn entry entryIn)
    obtain ⟨index, place⟩ := List.mem_iff_getElem?.1 known
    have given : own ∈ givenTo registered.1 layout :=
      List.mem_flatMap.2 ⟨entry, List.mem_filter.2 ⟨entryIn, decide_eq_true same.symm⟩, held⟩
    have all : own ∈ layouts.flatMap (givenTo registered.1) :=
      List.mem_flatMap.2 ⟨layout, layoutIn, given⟩
    have placed : (registered, index) ∈ tracks.zipIdx := List.mk_mem_zipIdx_iff_getElem?.2 place
    exact ⟨_, List.mem_map_of_mem placed, own.onTrack index, List.mem_map_of_mem all, rfl⟩

variable [Time τ]

theorem sounds_of_place_notes {policy : DelayPolicy} {track : TrackId} {previous : Option τ}
    {time last : τ} {notes : List (Note τ)} {events : List (Event τ)}
    (made : placeNotes policy track previous time notes = .ok (events, last)) :
    events.map Event.sound = notes.flatMap Note.sounds := by
  induction notes generalizing previous time events with
  | nil =>
      rw [(place_notes_nil_ok made).1]
      rfl
  | cons n rest ih =>
      obtain ⟨delay, start, key, later, _, _, keyed, placed, rfl⟩ := place_notes_cons_ok made
      have own : n.sounds = [(.noteOn, key, n.velocity), (.noteOff, key, n.velocity)] := by
        rw [Note.sounds, keyed, Option.elim_some]
      rw [List.map_cons, List.map_cons, ih placed, List.flatMap_cons, own]
      rfl

theorem sounds_of_place {p : Phrase τ} {policy : DelayPolicy} {lastStart lastEnd : τ}
    {placed : Placed τ} (made : p.place policy lastStart lastEnd = .ok placed) :
    placed.entry.events.map Event.sound = p.sounds := by
  obtain ⟨events, duration, delay, laidOut, _, _, _, entry⟩ := place_ok made
  rw [entry, Phrase.sounds, ← sounds_of_place_notes laidOut, List.map_map]
  rfl

theorem sounds_of_lay_out {s : Score τ} {policy : DelayPolicy} {i : Nat} {lastStart lastEnd : τ}
    {entries : List (Entry τ)} (done : s.layOut policy i lastStart lastEnd = .ok entries) :
    entries.flatMap (fun e => e.events.map Event.sound) = s.toldFrom Phrase.sounds i :=
  Score.told_of_lay_out (fun _ _ _ _ made => sounds_of_place made) done

namespace Studio

/-- The sounds of compiled tracks are those of the notes that the roots lead to. -/
theorem mem_sounds_of_compile {history : List (Edit τ)} {policy : DelayPolicy}
    {tracks : List (CompiledTrack τ)} (compiled : (run history).compile policy = .ok tracks)
    (sound : EventKind × Int32 × UInt8) :
    (∃ t ∈ tracks, ∃ e ∈ t.events, e.sound = sound) ↔
      ∃ root ∈ (run history).arrangement.roots, ∃ i p,
        Reaches (run history).score.phrases root i ∧ (run history).score.phrase? i = some p ∧
          ∃ n ∈ p.notes, sound ∈ n.sounds := by
  obtain ⟨layouts, rooted, inside, rfl⟩ := Arrangement.compile_ok (distinct_run history) compiled
  rw [mem_sounds_of_tagged inside]
  constructor
  · rintro ⟨layout, layoutIn, listed⟩
    have held : (.ok layout : Except (LayoutError τ) _) ∈ layouts.map .ok :=
      List.mem_map_of_mem layoutIn
    rw [← rooted] at held
    obtain ⟨root, rootIn, made⟩ := List.mem_map.1 held
    rw [sounds_of_lay_out made] at listed
    obtain ⟨i, p, path, found, told⟩ := Score.mem_told_from_iff.1 listed
    exact ⟨root, rootIn, i, p, path, found, List.mem_flatMap.1 told⟩
  · rintro ⟨root, rootIn, i, p, path, found, told⟩
    have held : (run history).score.layOut policy root Time.zero Time.zero ∈
        layouts.map Except.ok := rooted ▸ List.mem_map_of_mem rootIn
    obtain ⟨layout, layoutIn, made⟩ := List.mem_map.1 held
    refine ⟨layout, layoutIn, ?_⟩
    rw [sounds_of_lay_out made.symm]
    exact Score.mem_told_from_iff.2 ⟨i, p, path, found, List.mem_flatMap.2 told⟩

end Studio

end Cadenza
