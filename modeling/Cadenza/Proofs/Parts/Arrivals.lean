import Cadenza.Proofs.Parts

/-!
# Parts of whatever arrives

Seeding a track is pushing nothing to it, and what is delivered at once is pushed one by one. So any
history of parts comes down to pushes, and one push keeps them: a track has one entry, where it
first appeared, with all that was pushed to it in order of arrival.
-/

namespace Cadenza

set_option autoImplicit false

variable {τ : Type}

theorem given_to_of_not_mem {track : TrackId} {given : List (Entry τ)}
    (absent : track ∉ given.map (·.track)) : givenTo track given = [] := by
  have others : given.filter (fun e => e.track = track) = [] := by
    refine List.filter_eq_nil_iff.2 fun e member => ?_
    rw [decide_eq_true_iff]
    exact fun same => absent (List.mem_map.2 ⟨e, member, same⟩)
  rw [givenTo, others, List.flatMap_nil]

theorem given_to_one (track : TrackId) (e : Entry τ) :
    givenTo track [e] = if e.track = track then e.events else [] := by
  rw [given_to_cons]
  exact List.append_nil _

theorem erase_dups_append_one {α : Type} [DecidableEq α] (xs : List α) (x : α) :
    (xs ++ [x]).eraseDups = if x ∈ xs then xs.eraseDups else xs.eraseDups ++ [x] := by
  rw [List.eraseDups_append]
  by_cases known : x ∈ xs <;> simp [List.removeAll, List.eraseDups_cons, known]

namespace Parts

/-- What can be brought to parts: the events of one track, or entries for several tracks. -/
inductive Delivery (τ : Type) where
  | push (track : TrackId) (events : List (Event τ))
  | extend (entries : List (Entry τ))

def Delivery.entries : Delivery τ → List (Entry τ)
  | .push track events => [⟨track, events⟩]
  | .extend entries => entries

def accept (p : Parts τ) : Delivery τ → Parts τ
  | .push track events => p.push track events
  | .extend entries => p.extend entries

/-- The parts that start with some tracks, after a history of deliveries. -/
def collect (seeds : List TrackId) (history : List (Delivery τ)) : Parts τ :=
  history.foldl accept (ofTracks seeds)

theorem extend_append (p : Parts τ) (first later : List (Entry τ)) :
    p.extend (first ++ later) = (p.extend first).extend later :=
  List.foldl_append

theorem accept_eq_extend (p : Parts τ) (d : Delivery τ) : p.accept d = p.extend d.entries := by
  cases d <;> rfl

theorem foldl_accept (p : Parts τ) (history : List (Delivery τ)) :
    history.foldl accept p = p.extend (history.flatMap Delivery.entries) := by
  induction history generalizing p with
  | nil => rfl
  | cons d rest ih => rw [List.foldl_cons, ih, accept_eq_extend, List.flatMap_cons, extend_append]

/-- A track that has a place keeps it, and gets nothing. -/
theorem seed_eq_push (p : Parts τ) (track : TrackId) : p.seed track = p.push track [] := by
  cases placed : p.place? track with
  | none => simp only [seed, push, placed]
  | some i =>
      have same : p.entries.modify i (fun e => { e with events := e.events ++ [] }) =
          p.entries := by
        simp only [List.append_nil]
        exact List.modify_id i p.entries
      simp only [seed, push, placed, same]

def silent (track : TrackId) : Entry τ :=
  ⟨track, []⟩

theorem of_tracks_eq_extend (tracks : List TrackId) :
    (ofTracks tracks : Parts τ) = empty.extend (tracks.map silent) := by
  rw [ofTracks, extend, List.foldl_map]
  congr 1
  funext p track
  exact seed_eq_push p track

theorem collect_eq_extend (seeds : List TrackId) (history : List (Delivery τ)) :
    collect seeds history =
      empty.extend (seeds.map silent ++ history.flatMap Delivery.entries) := by
  rw [collect, foldl_accept, of_tracks_eq_extend, extend_append]

/-- A track that stood in two places would have two in the index. -/
theorem Indexed.nodup {p : Parts τ} (indexed : p.Indexed) :
    (p.entries.map (·.track)).Nodup := by
  refine List.pairwise_iff_getElem.2 fun i j first later less same => ?_
  rw [List.getElem_map, List.getElem_map] at same
  rw [List.length_map] at first later
  have here := (indexed p.entries[j].track i).2 ⟨_, List.getElem?_eq_getElem first, same⟩
  have there := (indexed p.entries[j].track j).2 ⟨_, List.getElem?_eq_getElem later, rfl⟩
  have one := Option.some.inj (here.symm.trans there)
  omega

/-- Parts that hold what was pushed, and nothing else: one entry for each track, in the order in
which the tracks appeared. -/
structure Holds (p : Parts τ) (given : List (Entry τ)) : Prop where
  indexed : p.Indexed
  entries : p.entries =
    (given.map (·.track)).eraseDups.map fun track => ⟨track, givenTo track given⟩

namespace Holds

variable {p : Parts τ} {given : List (Entry τ)}

theorem empty : (Parts.empty : Parts τ).Holds [] :=
  ⟨indexed_empty, rfl⟩

theorem tracks_eq (holds : p.Holds given) :
    p.entries.map (·.track) = (given.map (·.track)).eraseDups := by
  rw [holds.entries, List.map_map]
  exact List.map_id _

theorem contains_iff (holds : p.Holds given) {track : TrackId} :
    p.contains track = true ↔ track ∈ given.map (·.track) := by
  rw [Parts.contains_iff holds.indexed, holds.tracks_eq, List.mem_eraseDups]

theorem push (holds : p.Holds given) (e : Entry τ) :
    (p.push e.track e.events).Holds (given ++ [e]) := by
  refine ⟨indexed_push holds.indexed e.track e.events, ?_⟩
  rw [List.map_append, List.map_singleton, erase_dups_append_one]
  by_cases known : e.track ∈ given.map (·.track)
  · rw [if_pos known, (push_of_contains holds.indexed (holds.contains_iff.2 known) e.events).2,
      holds.entries, List.map_map]
    refine List.map_congr_left fun track _ => ?_
    rw [given_to_append, given_to_one]
    by_cases same : track = e.track
    · simp [addTo, same]
    · have other : ¬ e.track = track := fun back => same back.symm
      simp [addTo, same, other]
  · have unknown : ¬ p.contains e.track = true := fun held => known (holds.contains_iff.1 held)
    rw [if_neg known, push_of_not_contains unknown, List.map_append, List.map_singleton]
    dsimp only
    rw [holds.entries, given_to_append, given_to_of_not_mem known, given_to_one, if_pos rfl,
      List.nil_append]
    congr 1
    refine List.map_congr_left fun track member => ?_
    have other : ¬ e.track = track := by
      rintro rfl
      exact known (List.mem_eraseDups.1 member)
    rw [given_to_append, given_to_one, if_neg other, List.append_nil]

theorem extend (holds : p.Holds given) (entries : List (Entry τ)) :
    (p.extend entries).Holds (given ++ entries) := by
  induction entries generalizing p given with
  | nil =>
      rw [List.append_nil]
      exact holds
  | cons e rest ih =>
      rw [List.append_cons]
      exact ih (holds.push e)

/-- The index is no more than the order of the tracks. -/
theorem place_iff (holds : p.Holds given) {track : TrackId} {i : Nat} :
    p.place? track = some i ↔ (p.entries.map (·.track))[i]? = some track := by
  rw [holds.indexed track i, List.getElem?_map, Option.map_eq_some_iff]

end Holds

theorem given_to_silent (track : TrackId) (seeds : List TrackId) (given : List (Entry τ)) :
    givenTo track (seeds.map silent ++ given) = givenTo track given := by
  induction seeds with
  | nil => rfl
  | cons seed rest ih =>
      rw [List.map_cons, List.cons_append, given_to_cons, ih]
      exact ite_self _ ▸ rfl

/-- Take any parts that started with some tracks or with none, after any history of deliveries. They
list every track that they started with or that something was pushed to exactly once, in the order
in which the tracks first appeared, with all events that were pushed to it in order of arrival. They
contain the tracks that they list and no others, are as long as that list and empty if it is, and
their index gives every track its place in it. What is delivered next can be delivered in two
pieces. -/
theorem tracks_grouped_by_first_appearance (seeds : List TrackId) (history : List (Delivery τ)) :
    let p := collect seeds history
    let given := history.flatMap Delivery.entries
    let seen := seeds ++ given.map (·.track)
    let tracks := p.entries.map (·.track)
    p.entries = seen.eraseDups.map (fun track => ⟨track, givenTo track given⟩) ∧
      tracks.Nodup ∧ (∀ track, track ∈ tracks ↔ track ∈ seen) ∧
      (∀ track, p.contains track = true ↔ track ∈ tracks) ∧
      p.length = tracks.length ∧ (p.isEmpty = true ↔ tracks = []) ∧
      (∀ track i, p.place? track = some i ↔ tracks[i]? = some track) ∧
      ∀ first later, p.extend (first ++ later) = (p.extend first).extend later := by
  intro p given seen tracks
  have holds : p.Holds (seeds.map silent ++ given) := by
    have all := Holds.empty.extend (seeds.map silent ++ given)
    rwa [List.nil_append, ← collect_eq_extend] at all
  have appeared : (seeds.map silent ++ given).map (fun e : Entry τ => e.track) = seen := by
    rw [List.map_append, List.map_map]
    exact congrArg (· ++ _) (List.map_id seeds)
  have listed : tracks = seen.eraseDups := appeared ▸ holds.tracks_eq
  refine ⟨?_, ?_, ?_, ?_, ?_, ?_, fun track i => holds.place_iff, extend_append p⟩
  · rw [holds.entries, appeared]
    simp only [given_to_silent]
  · exact holds.indexed.nodup
  · intro track
    rw [listed, List.mem_eraseDups]
  · exact fun track => contains_iff holds.indexed
  · exact (List.length_map _).symm
  · rw [isEmpty, List.isEmpty_iff]
    exact List.map_eq_nil_iff.symm

end Parts

end Cadenza
