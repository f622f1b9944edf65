import Cadenza.Proofs.Arrangement
import Cadenza.Proofs.Score.Refusing

/-!
# Where a compilation fails

Roots are laid out in the order in which they were attached, and the first of them that fails ends
the compilation. A root fails at a delay that is refused; if there is none, at a track that is not
registered. Attaching a root looks for such a track only, in the same order.
-/

namespace Cadenza

set_option autoImplicit false

variable {τ : Type}

namespace Arrangement

/-- The first track of a phrase and all that follow it that is not registered. -/
def unregistered? (a : Arrangement) (s : Score τ) (i : Nat) : Option TrackId :=
  (s.tracksFrom i).find? fun track => track ∉ a.tracks.map (·.1)

/-- All phrases that a phrase leads to are on registered tracks. -/
def Covers (a : Arrangement) (s : Score τ) (i : Nat) : Prop :=
  ∀ j track, Reaches s.phrases i j → s.track? j = some track → track ∈ a.tracks.map (·.1)

theorem not_registered (a : Arrangement) (track : TrackId) :
    (!a.registered track) = decide (track ∉ a.tracks.map (·.1)) := by
  rw [decide_not, Bool.not_inj_iff, Bool.eq_iff_iff, registered_iff, decide_eq_true_iff]

theorem first_unknown_eq (a : Arrangement) (s : Score τ) (i : Nat) :
    a.firstUnknown s i = a.unregistered? s i := by
  simp only [firstUnknown, Score.walk_eq_unfolding, not_registered]
  rfl

theorem unregistered_eq_none_iff {a : Arrangement} {s : Score τ} {i : Nat} :
    a.unregistered? s i = none ↔ a.Covers s i := by
  simp only [unregistered?, List.find?_eq_none, Score.mem_tracks_from_iff, decide_eq_true_eq,
    not_not]
  constructor
  · intro none j track path own
    exact none track ⟨j, path, own⟩
  · intro covers track ⟨j, path, own⟩
    exact covers j track path own

/-- A layout holds an entry without a place as soon as its phrases are on a track without one. -/
theorem find_entry {a : Arrangement} {s : Score τ} {p : Parts τ} {root : Nat}
    {entries : List (Entry τ)} (known : ∀ track, p.contains track = a.registered track)
    (tracks : entries.map (·.track) = s.tracksFrom root) :
    (entries.find? fun e => !p.contains e.track).map (·.track) = a.unregistered? s root := by
  rw [unregistered?, ← tracks, List.find?_map]
  simp only [Function.comp_def, known, not_registered]

variable [Time τ]

/-- Why a root does not compile. -/
def failure? (a : Arrangement) (s : Score τ) (policy : DelayPolicy) (root : Nat) :
    Option (CompileError τ) :=
  match refused? policy (s.delaysFrom root) with
  | some e => some (.layout e)
  | none => (a.unregistered? s root).map fun track => .unknownTrack ⟨track⟩

section Roots

variable {a : Arrangement} {s : Score τ} {policy : DelayPolicy} {p : Parts τ} {root : Nat}

theorem gather_of_failure (known : ∀ track, p.contains track = a.registered track)
    (keyed : s.KeyedFrom root) {e : CompileError τ} (fails : a.failure? s policy root = some e)
    (rest : List Nat) : gather s policy p (root :: rest) = .error e := by
  have laidOut := Score.settled_lay_out keyed policy Time.zero Time.zero
  unfold failure? at fails
  split at fails
  · rename_i layoutError refused
    rw [← Option.some.inj fails]
    simp only [gather, laidOut.error_iff.2 refused]
  · rename_i refused
    obtain ⟨entries, made⟩ := laidOut.ok_iff.2 refused
    rw [← find_entry known (Score.tracks_of_lay_out made), Option.map_map] at fails
    obtain ⟨entry, missing, rfl⟩ := Option.map_eq_some_iff.1 fails
    simp only [gather, made, missing, Function.comp_apply]

/-- A root that does not fail adds events, but no track. -/
theorem gather_of_no_failure (indexed : p.Indexed)
    (known : ∀ track, p.contains track = a.registered track) (keyed : s.KeyedFrom root)
    (passes : a.failure? s policy root = none) (rest : List Nat) :
    ∃ q : Parts τ, q.Indexed ∧ (∀ track, q.contains track = a.registered track) ∧
      gather s policy p (root :: rest) = gather s policy q rest := by
  have laidOut := Score.settled_lay_out keyed policy Time.zero Time.zero
  unfold failure? at passes
  split at passes
  · cases passes
  · rename_i refused
    obtain ⟨entries, made⟩ := laidOut.ok_iff.2 refused
    rw [← find_entry known (Score.tracks_of_lay_out made), Option.map_map,
      Option.map_eq_none_iff] at passes
    have inside : ∀ e ∈ entries, p.contains e.track = true := by
      intro e member
      simpa using List.find?_eq_none.1 passes e member
    obtain ⟨still, index, _⟩ := Parts.extend_of_contains indexed inside
    refine ⟨p.extend entries, still, ?_, ?_⟩
    · intro track
      rw [Parts.contains, index]
      exact known track
    · simp only [gather, made, passes]

end Roots

theorem settled_gather {a : Arrangement} {s : Score τ} {policy : DelayPolicy} {p : Parts τ}
    {roots : List Nat} (indexed : p.Indexed)
    (known : ∀ track, p.contains track = a.registered track)
    (keyed : ∀ root ∈ roots, s.KeyedFrom root) :
    Settled (roots.findSome? (a.failure? s policy)) (gather s policy p roots) := by
  induction roots generalizing p with
  | nil => exact ⟨p, rfl⟩
  | cons root rest ih =>
      have first := keyed root List.mem_cons_self
      have others : ∀ other ∈ rest, s.KeyedFrom other := fun other member =>
        keyed other (List.mem_cons_of_mem root member)
      rw [List.findSome?_cons]
      cases failure : a.failure? s policy root with
      | some e => exact gather_of_failure known first failure rest
      | none =>
          obtain ⟨q, still, same, gathered⟩ :=
            gather_of_no_failure indexed known first failure rest
          rw [gathered]
          exact ih still same others

/-- A compilation fails at the first root that fails, or at none. -/
theorem settled_compile {a : Arrangement} (distinct : a.Distinct) {s : Score τ}
    (keyed : ∀ root ∈ a.roots, s.KeyedFrom root) (policy : DelayPolicy) :
    Settled (a.roots.findSome? (a.failure? s policy)) (a.compile s policy) := by
  obtain ⟨indexed, seeded⟩ := Parts.of_tracks_eq (τ := τ) distinct
  have known : ∀ track,
      (Parts.ofTracks (a.tracks.map (·.1)) : Parts τ).contains track = a.registered track := by
    intro track
    rw [Bool.eq_iff_iff, Parts.contains_iff indexed, registered_iff, seeded, List.map_map]
    simp [Function.comp_def]
  apply (settled_gather indexed known keyed).last
  · intro e failed
    simp only [compile, failed]
  · intro p gathered
    exact ⟨tagTracks p a.tracks, by simp only [compile, gathered]⟩

end Arrangement

end Cadenza
