import Cadenza.Proofs.Studio.Edits

/-!
# What a history compiles to

An edit of a history is accepted or refused in the state that the edits before it led to. The
registered tracks and the roots are those of the accepted edits, in order; with them a compilation
is told as a whole.
-/

namespace Cadenza

set_option autoImplicit false

variable {τ : Type}

def Edit.registration? : Edit τ → Option (TrackId × UInt8)
  | .register track instrument => some (track, instrument)
  | _ => none

def Edit.root? : Edit τ → Option Nat
  | .attach i => some i
  | _ => none

namespace Studio

variable [Time τ]

/-- The edits of a history that are not refused, where each one meets what those before it led
to. -/
def accepted (s : Studio τ) : List (Edit τ) → List (Edit τ)
  | [] => []
  | e :: rest =>
      match s.edit e with
      | .error _ => s.accepted rest
      | .ok changed => e :: changed.accepted rest

theorem Made.adds {s changed : Studio τ} {e : Edit τ} (made : Made s e changed) :
    changed.arrangement.tracks = s.arrangement.tracks ++ e.registration?.toList ∧
      changed.arrangement.roots = s.arrangement.roots ++ e.root?.toList := by
  cases made with
  | register => exact ⟨rfl, (List.append_nil _).symm⟩
  | attach => exact ⟨(List.append_nil _).symm, rfl⟩
  | _ => exact ⟨(List.append_nil _).symm, (List.append_nil _).symm⟩

/-- A refused edit adds nothing, and each of the others what it asks for. -/
theorem fold_adds (history : List (Edit τ)) (s : Studio τ) :
    (history.foldl after s).arrangement.tracks =
        s.arrangement.tracks ++ (s.accepted history).filterMap Edit.registration? ∧
      (history.foldl after s).arrangement.roots =
        s.arrangement.roots ++ (s.accepted history).filterMap Edit.root? := by
  induction history generalizing s with
  | nil => exact ⟨(List.append_nil _).symm, (List.append_nil _).symm⟩
  | cons e rest ih =>
      rw [List.foldl_cons, accepted]
      cases done : s.edit e with
      | error r =>
          rw [after_of_error done]
          exact ih s
      | ok changed =>
          obtain ⟨tracks, roots⟩ := (made_of_ok done).adds
          obtain ⟨laterTracks, laterRoots⟩ := ih changed
          rw [after_of_ok done, laterTracks, laterRoots, tracks, roots]
          simp only [List.append_assoc, List.filterMap_eq_flatMap_toList, List.flatMap_cons,
            and_self]

theorem run_snoc (history : List (Edit τ)) (e : Edit τ) :
    run (history ++ [e]) = (run history).after e := by
  simp only [run, List.foldl_append, List.foldl_cons, List.foldl_nil]

/-- Take any history of edits, refused ones included. The registered tracks and the roots are what
the accepted edits ask for, one behind the other, and every edit is answered by whether its track is
registered already, all its phrases are on registered tracks, or its link leads back. The registered
tracks are all different. A compilation succeeds if and only if every root is laid out, all on
registered tracks, so that no event is lost. It then gives one track for each registered one, in the
order of registration, with its position and its instrument, and with exactly the events that the
roots in turn give to it. Compiling to a map gives the same tracks, or the same failure, with each
name once. -/
theorem compile_gives_tracks_their_events (history : List (Edit τ)) :
    let s := run history
    (s.arrangement.tracks.map (·.1)).Nodup ∧
      s.arrangement.tracks = (empty.accepted history).filterMap Edit.registration? ∧
      s.arrangement.roots = (empty.accepted history).filterMap Edit.root? ∧
      s.Answers ∧ (∀ e, run (history ++ [e]) = s.after e) ∧
      (∀ policy tracks, s.compile policy = .ok tracks ↔
        ∃ layouts : List (List (Entry τ)),
          s.arrangement.roots.map (fun root => s.score.layOut policy root Time.zero Time.zero) =
            layouts.map .ok ∧
          (∀ layout ∈ layouts, ∀ e ∈ layout, e.track ∈ s.arrangement.tracks.map (·.1)) ∧
          tracks = s.arrangement.tracks.zipIdx.map fun ((id, instrument), index) =>
            ⟨id, index, instrument, (layouts.flatMap (givenTo id)).map (·.onTrack index)⟩) ∧
      (∀ e, s.compile .allow = .error e → s.arrangement.compileMap s.score = .error e) ∧
      ∀ tracks, s.compile .allow = .ok tracks →
        ∃ entries : List (Entry τ), s.arrangement.compileMap s.score = .ok entries ∧
          entries.Perm (tracks.map fun t => ⟨t.id, t.events⟩) ∧
          entries.Pairwise fun earlier later => earlier.track < later.track := by
  intro s
  have distinct : s.arrangement.Distinct := distinct_run history
  obtain ⟨tracks, roots⟩ := fold_adds history (empty : Studio τ)
  refine ⟨distinct, tracks, roots, s.answers, run_snoc history, ?_, ?_, ?_⟩
  · exact fun policy tracks => Arrangement.compile_eq_ok_iff distinct
  · intro e failed
    have compiled : s.arrangement.compile s.score .allow = .error e := failed
    simp only [Arrangement.compileMap, compiled]
  · intro tracks done
    exact Arrangement.compile_map_ok distinct done

def sketch : List (Edit Float) :=
  [.register "bass" 33, .register "lead" 81,
    .add "lead" [⟨⟨Fin.last 11, 4⟩, defaultVelocity, 1, 0, .finish⟩], .add "drums" []]

/-- A track that is registered twice and a root without a registered track are refused. What is left
compiles, each track with the instrument that it was registered with first. -/
theorem compile_sketch :
    let whole := sketch ++ [.register "bass" 7] ++ [.attach 1] ++ [.attach 0]
    (run sketch).edit (.register "bass" 7) = .error (.duplicate ⟨"bass"⟩) ∧
      (run sketch).edit (.attach 1) = .error (.unknown ⟨"drums"⟩) ∧
      (run whole).arrangement = ⟨[("bass", 33), ("lead", 81)], [0]⟩ ∧
      (run whole).compile .allow = .ok [⟨"bass", 0, 33, []⟩,
        ⟨"lead", 1, 81, [⟨.noteOn, 0, 71, 64, some 1⟩, ⟨.noteOff, 1, 71, 64, some 1⟩]⟩] := by
  intro whole
  let s := run sketch
  obtain ⟨_, _, _, answers, _⟩ := compile_gives_tracks_their_events sketch
  have duplicate := answers.duplicate "bass" 7 (by decide)
  have drums : s.arrangement.unregistered? s.score 1 = some "drums" := by
    rw [Arrangement.unregistered?, Score.tracksFrom, Score.unfolding_of_some rfl]
    rfl
  have lead : s.arrangement.unregistered? s.score 0 = none := by
    rw [Arrangement.unregistered?, Score.tracksFrom, Score.unfolding_of_some rfl]
    rfl
  have missing : ¬ s.arrangement.Covers s.score 1 := by
    rw [← Arrangement.unregistered_eq_none_iff, drums]
    exact Option.some_ne_none _
  obtain ⟨track, first, unknown⟩ := answers.unknown 1 missing
  obtain rfl := Option.some.inj (drums.symm.trans first)
  have attached := answers.attaches 0 (Arrangement.unregistered_eq_none_iff.1 lead)
  have done : run whole = { s with arrangement := ⟨[("bass", 33), ("lead", 81)], [0]⟩ } := by
    rw [run_snoc, run_snoc, run_snoc, answers.refused _ _ duplicate, answers.refused _ _ unknown,
      answers.accepted _ _ attached]
    rfl
  obtain ⟨_, _, _, _, _, compiles, _⟩ := compile_gives_tracks_their_events whole
  refine ⟨duplicate, unknown, congrArg Studio.arrangement done, ?_⟩
  have laidOut : s.score.layOut .allow 0 Time.zero Time.zero =
      .ok [⟨"lead", [⟨.noteOn, 0, 71, 64, none⟩, ⟨.noteOff, 1, 71, 64, none⟩]⟩] := by
    rw [Score.lay_out_eq_meaning, Score.meaning_of_some rfl]
    decide +kernel
  rw [compiles, done]
  exact ⟨[_], congrArg (fun layout => [layout]) laidOut, by decide, rfl⟩

end Studio

end Cadenza
