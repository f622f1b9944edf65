import Cadenza.Proofs.Parts
import Cadenza.Proofs.Sorting.Order
import Cadenza.Studio
import Mathlib.Data.List.Nodup

/-!
# What an arrangement compiles to

Tracks are registered once, so the parts are seeded with different tracks and stand beside the
registered ones in the same order. No root can add a part, since an entry of a track that is not
registered is refused. So each track gets its own events, all of them and in order.
-/

namespace Cadenza

set_option autoImplicit false

variable {τ : Type}

theorem given_to_flatten (track : TrackId) (layouts : List (List (Entry τ))) :
    givenTo track layouts.flatten = layouts.flatMap (givenTo track) := by
  induction layouts with
  | nil => rfl
  | cons layout rest ih => rw [List.flatten_cons, given_to_append, ih, List.flatMap_cons]

namespace Arrangement

def Distinct (a : Arrangement) : Prop :=
  (a.tracks.map (·.1)).Nodup

theorem registered_iff (a : Arrangement) (track : TrackId) :
    a.registered track = true ↔ track ∈ a.tracks.map (·.1) := by
  simp [registered]

theorem distinct_register {a changed : Arrangement} {track : TrackId} {instrument : UInt8}
    (distinct : a.Distinct) (done : a.register track instrument = .ok changed) :
    changed.Distinct := by
  unfold register at done
  split at done
  · cases done
  · rename_i new
    rw [← Except.ok.inj done]
    have fresh : track ∉ a.tracks.map (·.1) := fun old => new ((registered_iff a track).2 old)
    unfold Distinct
    rw [List.map_append, List.nodup_append]
    refine ⟨distinct, List.nodup_singleton track, ?_⟩
    intro other member last lastIn same
    have here : last = track := List.mem_singleton.1 lastIn
    exact fresh (here ▸ same ▸ member)

theorem distinct_attach {a changed : Arrangement} {s : Score τ} {root : Nat}
    (distinct : a.Distinct) (done : a.attach s root = .ok changed) : changed.Distinct := by
  unfold attach at done
  split at done
  · cases done
  · exact Except.ok.inj done ▸ distinct

end Arrangement

namespace Studio

variable [Time τ]

theorem distinct_edit {s changed : Studio τ} {e : Edit τ} (distinct : s.arrangement.Distinct)
    (done : s.edit e = .ok changed) : changed.arrangement.Distinct := by
  unfold edit at done
  cases e with
  | add track notes => exact Except.ok.inj done ▸ distinct
  | setDelay i delay => exact Except.ok.inj done ▸ distinct
  | setAnchor i anchor => exact Except.ok.inj done ▸ distinct
  | link a b =>
      dsimp only at done
      split at done
      · cases done
      · exact Except.ok.inj done ▸ distinct
  | register track instrument =>
      dsimp only at done
      split at done
      · cases done
      · rename_i arrangement registered
        exact Except.ok.inj done ▸ Arrangement.distinct_register distinct registered
  | attach i =>
      dsimp only at done
      split at done
      · cases done
      · rename_i arrangement attached
        exact Except.ok.inj done ▸ Arrangement.distinct_attach distinct attached

theorem distinct_after {s : Studio τ} (distinct : s.arrangement.Distinct) (e : Edit τ) :
    (s.after e).arrangement.Distinct := by
  unfold after
  split
  · exact distinct
  · rename_i changed done
    exact distinct_edit distinct done

theorem distinct_run (history : List (Edit τ)) : (run history).arrangement.Distinct := by
  have kept : ∀ s : Studio τ, s.arrangement.Distinct →
      (history.foldl after s).arrangement.Distinct := by
    induction history with
    | nil => exact fun _ distinct => distinct
    | cons e rest ih => exact fun s distinct => ih (s.after e) (distinct_after distinct e)
  exact kept empty List.nodup_nil

end Studio

namespace Arrangement

/-- Parts that stand beside the registered tracks in the same order keep their instruments. -/
theorem tag_tracks_eq {p : Parts τ} {tracks : List (TrackId × UInt8)}
    (events : TrackId → List (Event τ))
    (beside : p.entries = tracks.map fun t => ⟨t.1, events t.1⟩) :
    tagTracks p tracks = tracks.zipIdx.map fun t =>
      ⟨t.1.1, t.2, t.1.2, (events t.1.1).map (·.onTrack t.2)⟩ := by
  have paired : p.entries.zip tracks = tracks.map fun t => (⟨t.1, events t.1⟩, t) := by
    rw [beside]
    conv => lhs; rw [← List.map_id tracks, List.map_map, List.zip_map']
    rfl
  rw [tagTracks, paired, List.zipIdx_map, List.map_map]
  rfl

theorem track_orders : Orders (fun later earlier : Entry τ => decide (earlier.track < later.track))
    (fun _ => True) (fun earlier later => earlier.track ≤ later.track) where
  of_after x y _ _ passes := by
    have less : x.track < y.track := of_decide_eq_true passes
    exact String.not_lt.1 (String.lt_asymm less)
  of_not_after x y _ _ stops := String.not_lt.1 (of_decide_eq_false stops)
  trans x y z _ _ _ first second := String.le_trans first second

variable [Time τ]

/-- Gathering that does not fail has laid out every root, on tracks that had a place, and added to
each entry what the roots give to its track, one root after the other. -/
theorem gather_ok {s : Score τ} {policy : DelayPolicy} {p q : Parts τ} {roots : List Nat}
    (indexed : p.Indexed) (done : gather s policy p roots = .ok q) :
    ∃ layouts : List (List (Entry τ)),
      roots.map (fun root => s.layOut policy root Time.zero Time.zero) = layouts.map .ok ∧
      (∀ layout ∈ layouts, ∀ e ∈ layout, p.contains e.track = true) ∧
      q.entries = p.entries.map (Parts.addAll layouts.flatten) := by
  induction roots generalizing p with
  | nil =>
      have none : ∀ e ∈ ([] : List (Entry τ)), p.contains e.track = true := by
        intro e member
        cases member
      refine ⟨[], rfl, fun layout member => (List.not_mem_nil member).elim, ?_⟩
      exact Except.ok.inj done ▸ (Parts.extend_of_contains indexed none).2.2
  | cons root rest ih =>
      unfold gather at done
      split at done
      · cases done
      · rename_i entries laidOut
        split at done
        · cases done
        · rename_i allKnown
          have known : ∀ e ∈ entries, p.contains e.track = true := by
            intro e member
            simpa using List.find?_eq_none.1 allKnown e member
          obtain ⟨still, index, extended⟩ := Parts.extend_of_contains indexed known
          obtain ⟨layouts, rooted, inside, gathered⟩ := ih still done
          refine ⟨entries :: layouts, ?_, ?_, ?_⟩
          · rw [List.map_cons, List.map_cons, laidOut, rooted]
          · intro layout member e eIn
            rcases List.mem_cons.1 member with same | later
            · exact known e (same ▸ eIn)
            · have there := inside layout later e eIn
              rwa [Parts.contains, index] at there
          · rw [gathered, extended, List.map_map]
            refine List.map_congr_left fun e _ => ?_
            simp [Parts.addAll, given_to_append]

/-- What compiling gives, if it does not fail. -/
theorem compile_ok {a : Arrangement} (distinct : a.Distinct) {s : Score τ} {policy : DelayPolicy}
    {tracks : List (CompiledTrack τ)} (done : a.compile s policy = .ok tracks) :
    ∃ layouts : List (List (Entry τ)),
      a.roots.map (fun root => s.layOut policy root Time.zero Time.zero) = layouts.map .ok ∧
      (∀ layout ∈ layouts, ∀ e ∈ layout, e.track ∈ a.tracks.map (·.1)) ∧
      tracks = a.tracks.zipIdx.map fun t =>
        ⟨t.1.1, t.2, t.1.2, (layouts.flatMap (givenTo t.1.1)).map (·.onTrack t.2)⟩ := by
  obtain ⟨indexed, seeded⟩ := Parts.of_tracks_eq (τ := τ) distinct
  unfold compile at done
  split at done
  · cases done
  · rename_i p gathered
    obtain ⟨layouts, rooted, inside, entries⟩ := gather_ok indexed gathered
    refine ⟨layouts, rooted, ?_, ?_⟩
    · intro layout member e eIn
      have known := (Parts.contains_iff indexed).1 (inside layout member e eIn)
      rw [seeded, List.map_map] at known
      simpa [Function.comp_def] using known
    · rw [← Except.ok.inj done]
      refine tag_tracks_eq (fun track => layouts.flatMap (givenTo track)) ?_
      rw [entries, seeded, List.map_map, List.map_map]
      refine List.map_congr_left fun t _ => ?_
      simp [Parts.addAll, given_to_flatten]

/-- Gathering does not fail when every root is laid out, all on tracks that have a place. -/
theorem gather_of_lay_out {s : Score τ} {policy : DelayPolicy} {p : Parts τ} {roots : List Nat}
    {layouts : List (List (Entry τ))} (indexed : p.Indexed)
    (rooted : roots.map (fun root => s.layOut policy root Time.zero Time.zero) = layouts.map .ok)
    (inside : ∀ layout ∈ layouts, ∀ e ∈ layout, p.contains e.track = true) :
    ∃ q, gather s policy p roots = .ok q := by
  induction roots generalizing p layouts with
  | nil => exact ⟨p, rfl⟩
  | cons root rest ih =>
      cases layouts with
      | nil => cases rooted
      | cons entries others =>
          obtain ⟨laidOut, restRooted⟩ := List.cons.inj rooted
          have known := inside entries List.mem_cons_self
          obtain ⟨still, index, _⟩ := Parts.extend_of_contains indexed known
          have allKnown : entries.find? (fun e => !p.contains e.track) = none := by
            rw [List.find?_eq_none]
            intro e member
            simp [known e member]
          obtain ⟨q, gathered⟩ := ih still restRooted fun layout member e eIn => by
            have there := inside layout (List.mem_cons_of_mem entries member) e eIn
            rwa [Parts.contains, ← index] at there
          have first : s.layOut policy root Time.zero Time.zero = .ok entries := laidOut
          refine ⟨q, ?_⟩
          rw [gather, first]
          simp only [allKnown, gathered]

theorem compile_of_lay_out {a : Arrangement} (distinct : a.Distinct) {s : Score τ}
    {policy : DelayPolicy} {layouts : List (List (Entry τ))}
    (rooted : a.roots.map (fun root => s.layOut policy root Time.zero Time.zero) =
      layouts.map .ok)
    (inside : ∀ layout ∈ layouts, ∀ e ∈ layout, e.track ∈ a.tracks.map (·.1)) :
    ∃ tracks, a.compile s policy = .ok tracks := by
  obtain ⟨indexed, seeded⟩ := Parts.of_tracks_eq (τ := τ) distinct
  obtain ⟨q, gathered⟩ := gather_of_lay_out indexed rooted fun layout member e eIn => by
    rw [Parts.contains_iff indexed, seeded, List.map_map]
    simpa [Function.comp_def] using inside layout member e eIn
  exact ⟨tagTracks q a.tracks, by simp only [compile, gathered]⟩

theorem compile_eq_ok_iff {a : Arrangement} (distinct : a.Distinct) {s : Score τ}
    {policy : DelayPolicy} {tracks : List (CompiledTrack τ)} :
    a.compile s policy = .ok tracks ↔ ∃ layouts : List (List (Entry τ)),
      a.roots.map (fun root => s.layOut policy root Time.zero Time.zero) = layouts.map .ok ∧
      (∀ layout ∈ layouts, ∀ e ∈ layout, e.track ∈ a.tracks.map (·.1)) ∧
      tracks = a.tracks.zipIdx.map fun t =>
        ⟨t.1.1, t.2, t.1.2, (layouts.flatMap (givenTo t.1.1)).map (·.onTrack t.2)⟩ := by
  constructor
  · exact compile_ok distinct
  · rintro ⟨layouts, rooted, inside, rfl⟩
    obtain ⟨tracks, compiled⟩ := compile_of_lay_out distinct rooted inside
    obtain ⟨others, again, _, rfl⟩ := compile_ok distinct compiled
    -- a root has one layout, so these are the layouts that were compiled
    obtain rfl : layouts = others :=
      (List.map_inj_right fun _ _ => Except.ok.inj).1 (rooted.symm.trans again)
    exact compiled

/-- Naming the tracks in order keeps the events of each. -/
theorem compile_map_ok {a : Arrangement} (distinct : a.Distinct) {s : Score τ}
    {tracks : List (CompiledTrack τ)} (done : a.compile s .allow = .ok tracks) :
    ∃ entries : List (Entry τ), a.compileMap s = .ok entries ∧
      entries.Perm (tracks.map fun t => ⟨t.id, t.events⟩) ∧
      entries.Pairwise fun earlier later => earlier.track < later.track := by
  let named : List (Entry τ) := tracks.map fun t => ⟨t.id, t.events⟩
  let sorted :=
    sortStable (fun later earlier : Entry τ => decide (earlier.track < later.track)) named
  have same : sorted.Perm named := perm_sort_stable _ named
  have tracksOf : named.map (·.track) = a.tracks.map (·.1) := by
    obtain ⟨layouts, _, _, compiled⟩ := compile_ok distinct done
    dsimp only [named]
    rw [compiled, List.map_map, List.map_map]
    conv => rhs; rw [← List.zipIdx_map_fst 0 a.tracks, List.map_map]
    rfl
  have apart : (sorted.map (·.track)).Nodup := by
    rw [(same.map _).nodup_iff, tracksOf]
    exact distinct
  have rising : sorted.Pairwise fun earlier later => earlier.track ≤ later.track :=
    pairwise_sort_stable track_orders fun _ _ => trivial
  refine ⟨sorted, ?_, same, ?_⟩
  · simp only [compileMap, done]
    rfl
  · refine (rising.and (List.pairwise_map.1 apart)).imp ?_
    intro earlier later ⟨le, ne⟩
    exact String.not_le.1 fun back => ne (String.le_antisymm le back)

end Arrangement

end Cadenza
