import Cadenza.Parts

/-!
# What parts hold

The index of parts and the list of their entries tell the same places, whatever was seeded and
pushed. So a track that has a place gets its events there, at the end, and no other entry changes.
-/

namespace Cadenza

set_option autoImplicit false

variable {τ : Type}

/-- The events that entries give to one track, in order. -/
def givenTo (track : TrackId) (entries : List (Entry τ)) : List (Event τ) :=
  (entries.filter fun e => e.track = track).flatMap (·.events)

theorem given_to_cons (track : TrackId) (e : Entry τ) (rest : List (Entry τ)) :
    givenTo track (e :: rest) =
      (if e.track = track then e.events else []) ++ givenTo track rest := by
  unfold givenTo
  by_cases same : e.track = track <;> simp [same]

theorem given_to_append (track : TrackId) (first later : List (Entry τ)) :
    givenTo track (first ++ later) = givenTo track first ++ givenTo track later := by
  unfold givenTo
  rw [List.filter_append, List.flatMap_append]

namespace Parts

/-- The index finds the place of every entry, and nothing else. -/
def Indexed (p : Parts τ) : Prop :=
  ∀ track i, p.place? track = some i ↔ ∃ e, p.entries[i]? = some e ∧ e.track = track

theorem indexed_empty : (empty : Parts τ).Indexed := by
  intro track i
  simp [place?, empty]

theorem contains_iff_place {p : Parts τ} {track : TrackId} :
    p.contains track = true ↔ ∃ i, p.place? track = some i := by
  rw [contains, Std.HashMap.contains_eq_isSome_getElem?, Option.isSome_iff_exists]
  rfl

theorem contains_iff {p : Parts τ} (indexed : p.Indexed) {track : TrackId} :
    p.contains track = true ↔ track ∈ p.entries.map (·.track) := by
  rw [contains_iff_place, List.mem_map]
  constructor
  · intro ⟨i, placed⟩
    obtain ⟨e, here, same⟩ := (indexed track i).1 placed
    exact ⟨e, List.mem_of_getElem? here, same⟩
  · intro ⟨e, member, same⟩
    obtain ⟨i, here⟩ := List.mem_iff_getElem?.1 member
    exact ⟨i, (indexed track i).2 ⟨e, here, same⟩⟩

def addTo (track : TrackId) (events : List (Event τ)) (e : Entry τ) : Entry τ :=
  if e.track = track then { e with events := e.events ++ events } else e

theorem track_add_to (track : TrackId) (events : List (Event τ)) (e : Entry τ) :
    (addTo track events e).track = e.track := by
  unfold addTo
  split <;> rfl

theorem push_of_contains {p : Parts τ} (indexed : p.Indexed) {track : TrackId}
    (known : p.contains track = true) (events : List (Event τ)) :
    (p.push track events).index = p.index ∧
      (p.push track events).entries = p.entries.map (addTo track events) := by
  obtain ⟨i, placed⟩ := contains_iff_place.1 known
  have pushed : p.push track events = { p with entries := p.entries.modify i fun e =>
      { e with events := e.events ++ events } } := by
    simp only [push, placed]
  rw [pushed]
  refine ⟨rfl, List.ext_getElem? fun k => ?_⟩
  rw [List.getElem?_modify, List.getElem?_map]
  cases here : p.entries[k]? with
  | none => rfl
  | some e =>
      have found : e.track = track ↔ i = k := by
        have own := (indexed track k).2
        rw [placed] at own
        constructor
        · intro same
          exact Option.some.inj (own ⟨e, here, same⟩)
        · intro same
          obtain ⟨other, there, known⟩ := (indexed track i).1 placed
          rw [same, here] at there
          exact Option.some.inj there ▸ known
      by_cases same : i = k
      · simp [addTo, same, found.2 same]
      · have other : ¬ e.track = track := fun known => same (found.1 known)
        simp [addTo, same, other]

theorem push_of_not_contains {p : Parts τ} {track : TrackId} (unknown : ¬ p.contains track = true)
    (events : List (Event τ)) :
    p.push track events =
      ⟨p.index.insert track p.entries.length, p.entries ++ [⟨track, events⟩]⟩ := by
  cases placed : p.place? track with
  | some i => exact absurd (contains_iff_place.2 ⟨i, placed⟩) unknown
  | none => simp only [push, placed]

theorem indexed_push_of_contains {p : Parts τ} (indexed : p.Indexed) {track : TrackId}
    (known : p.contains track = true) (events : List (Event τ)) :
    (p.push track events).Indexed := by
  intro other i
  obtain ⟨index, entries⟩ := push_of_contains indexed known events
  have same : (p.push track events).place? other = p.place? other := by
    rw [place?, index]
    rfl
  rw [same, entries, indexed other i, List.getElem?_map]
  constructor
  · intro ⟨e, here, owner⟩
    exact ⟨addTo track events e, by rw [here]; rfl, (track_add_to track events e).trans owner⟩
  · intro ⟨e, here, owner⟩
    obtain ⟨e', there, rfl⟩ := Option.map_eq_some_iff.1 here
    exact ⟨e', there, (track_add_to track events e').symm.trans owner⟩

theorem indexed_push_of_not_contains {p : Parts τ} (indexed : p.Indexed) {track : TrackId}
    (unknown : ¬ p.contains track = true) (events : List (Event τ)) :
    (p.push track events).Indexed := by
  intro other i
  rw [push_of_not_contains unknown]
  have fresh : ∀ e ∈ p.entries, e.track ≠ track := fun e member same =>
    unknown ((contains_iff indexed).2 (List.mem_map.2 ⟨e, member, same⟩))
  change (p.index.insert track p.entries.length)[other]? = some i ↔ _
  rw [Std.HashMap.getElem?_insert]
  by_cases same : track = other
  · subst same
    simp only [beq_self_eq_true, if_true, Option.some.injEq]
    constructor
    · intro last
      exact ⟨⟨track, events⟩, by simp [← last], rfl⟩
    · intro ⟨e, here, owner⟩
      by_cases inside : i < p.entries.length
      · rw [List.getElem?_append_left inside] at here
        exact absurd owner (fresh e (List.mem_of_getElem? here))
      · have bound := (List.getElem?_eq_some_iff.1 here).1
        rw [List.length_append, List.length_singleton] at bound
        omega
  · have apart : (track == other) = false := beq_eq_false_iff_ne.2 same
    rw [if_neg (by simp [apart])]
    change p.place? other = some i ↔ _
    rw [indexed other i]
    constructor
    · intro ⟨e, here, owner⟩
      have inside := (List.getElem?_eq_some_iff.1 here).1
      exact ⟨e, by rw [List.getElem?_append_left inside, here], owner⟩
    · intro ⟨e, here, owner⟩
      by_cases inside : i < p.entries.length
      · rw [List.getElem?_append_left inside] at here
        exact ⟨e, here, owner⟩
      · rw [List.getElem?_append_right (Nat.le_of_not_lt inside)] at here
        have last := List.mem_singleton.1 (List.mem_of_getElem? here)
        rw [last] at owner
        exact absurd owner same

/-- The index stays right because a new entry goes to the end, where the index puts it, and an
entry that gets more events stays where it is. -/
theorem indexed_push {p : Parts τ} (indexed : p.Indexed) (track : TrackId)
    (events : List (Event τ)) : (p.push track events).Indexed := by
  by_cases known : p.contains track = true
  · exact indexed_push_of_contains indexed known events
  · exact indexed_push_of_not_contains indexed known events

theorem seed_of_not_contains {p : Parts τ} {track : TrackId}
    (unknown : ¬ p.contains track = true) : p.seed track = p.push track [] := by
  cases placed : p.place? track with
  | some i => exact absurd (contains_iff_place.2 ⟨i, placed⟩) unknown
  | none => simp only [seed, push, placed]

/-- Seeding tracks that are all different gives each of them a silent entry, in order. -/
theorem foldl_seed {p : Parts τ} (indexed : p.Indexed) {tracks : List TrackId}
    (distinct : tracks.Nodup) (fresh : ∀ track ∈ tracks, ¬ p.contains track = true) :
    (tracks.foldl seed p).Indexed ∧
      (tracks.foldl seed p).entries = p.entries ++ tracks.map fun track => ⟨track, []⟩ := by
  induction tracks generalizing p with
  | nil => exact ⟨indexed, (List.append_nil _).symm⟩
  | cons track rest ih =>
      have new := fresh track List.mem_cons_self
      have grown : (p.seed track).entries = p.entries ++ [⟨track, []⟩] := by
        rw [seed_of_not_contains new, push_of_not_contains new]
      have still : (p.seed track).Indexed := by
        rw [seed_of_not_contains new]
        exact indexed_push indexed track []
      have apart : ∀ other ∈ rest, ¬ (p.seed track).contains other = true := by
        intro other member known
        rw [contains_iff still, grown, List.map_append, List.mem_append] at known
        rcases known with old | now
        · exact fresh other (List.mem_cons_of_mem track member) ((contains_iff indexed).2 old)
        · have same : other = track := List.mem_singleton.1 now
          exact (List.nodup_cons.1 distinct).1 (same ▸ member)
      obtain ⟨after, entries⟩ := ih still (List.nodup_cons.1 distinct).2 apart
      refine ⟨after, ?_⟩
      rw [List.foldl_cons, entries, grown, List.append_assoc, List.map_cons,
        List.singleton_append]

theorem of_tracks_eq {tracks : List TrackId} (distinct : tracks.Nodup) :
    (ofTracks tracks : Parts τ).Indexed ∧
      (ofTracks tracks : Parts τ).entries = tracks.map fun track => ⟨track, []⟩ := by
  have fresh : ∀ track ∈ tracks, ¬ (empty : Parts τ).contains track = true := by
    intro track _ known
    obtain ⟨i, placed⟩ := contains_iff_place.1 known
    obtain ⟨e, here, _⟩ := (indexed_empty track i).1 placed
    cases here
  exact foldl_seed indexed_empty distinct fresh

def addAll (entries : List (Entry τ)) (e : Entry τ) : Entry τ :=
  { e with events := e.events ++ givenTo e.track entries }

theorem add_all_add_to (first : Entry τ) (rest : List (Entry τ)) (e : Entry τ) :
    addAll rest (addTo first.track first.events e) = addAll (first :: rest) e := by
  unfold addAll addTo
  by_cases same : e.track = first.track
  · simp [given_to_cons, same]
  · have other : ¬ first.track = e.track := fun back => same back.symm
    simp [given_to_cons, same, other]

/-- Events of tracks that all have a place go there, and the places stay as they are. -/
theorem extend_of_contains {p : Parts τ} (indexed : p.Indexed) {entries : List (Entry τ)}
    (known : ∀ e ∈ entries, p.contains e.track = true) :
    (p.extend entries).Indexed ∧ (p.extend entries).index = p.index ∧
      (p.extend entries).entries = p.entries.map (addAll entries) := by
  induction entries generalizing p with
  | nil =>
      refine ⟨indexed, rfl, ?_⟩
      have same : addAll ([] : List (Entry τ)) = id := by
        funext e
        simp [addAll, givenTo]
      rw [same, List.map_id]
      rfl
  | cons e rest ih =>
      have first := known e List.mem_cons_self
      obtain ⟨index, pushed⟩ := push_of_contains indexed first e.events
      have still : ∀ other ∈ rest, (p.push e.track e.events).contains other.track = true := by
        intro other member
        rw [contains, index]
        exact known other (List.mem_cons_of_mem e member)
      obtain ⟨after, index', entries'⟩ := ih (indexed_push indexed e.track e.events) still
      refine ⟨after, index'.trans index, ?_⟩
      have stepped : p.extend (e :: rest) = (p.push e.track e.events).extend rest := rfl
      rw [stepped, entries', pushed, List.map_map]
      refine List.map_congr_left fun other _ => ?_
      exact add_all_add_to e rest other

end Parts

end Cadenza
