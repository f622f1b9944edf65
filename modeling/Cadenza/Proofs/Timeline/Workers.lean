import Cadenza.Proofs.Outcome
import Cadenza.Timeline.Workers

/-!
# Messages that arrive in any order

Every worker fills the slot of its own track, so it does not matter which of them is done first.
Once all messages have arrived each slot holds the timeline of its track.
-/

namespace Cadenza.Normalizer

set_option autoImplicit false

variable {τ κ : Type}

theorem apply_of_mem_zip {α β : Type} {f : α → Option β} {xs : List α} {ys : List β}
    (applied : xs.map f = ys.map some) {pair : α × β} (member : pair ∈ xs.zip ys) :
    f pair.1 = some pair.2 := by
  induction xs generalizing ys with
  | nil => cases member
  | cons x rest ih =>
      cases ys with
      | nil => cases member
      | cons y others =>
          obtain ⟨here, later⟩ := List.cons.inj applied
          rcases List.mem_cons.1 member with rfl | inside
          · exact here
          · exact ih later inside

theorem length_foldl_fill (arrived : List (Nat × Timeline τ))
    (slots : List (Option (Timeline τ))) : (arrived.foldl fill slots).length = slots.length := by
  induction arrived generalizing slots with
  | nil => rfl
  | cons message rest ih => rw [List.foldl_cons, ih, fill, List.length_set]

theorem foldl_fill_of_absent {arrived : List (Nat × Timeline τ)} {position : Nat}
    (absent : position ∉ arrived.map (·.1)) (slots : List (Option (Timeline τ))) :
    (arrived.foldl fill slots)[position]? = slots[position]? := by
  induction arrived generalizing slots with
  | nil => rfl
  | cons message rest ih =>
      simp only [List.map_cons, List.mem_cons, not_or] at absent
      rw [List.foldl_cons, ih absent.2, fill, List.getElem?_set_ne (Ne.symm absent.1)]

/-- The only message for a slot is what the slot holds at the end, whatever comes before and after
it. -/
theorem foldl_fill_of_mem {arrived : List (Nat × Timeline τ)} {message : Nat × Timeline τ}
    (distinct : (arrived.map (·.1)).Nodup) (member : message ∈ arrived)
    {slots : List (Option (Timeline τ))} (inside : message.1 < slots.length) :
    (arrived.foldl fill slots)[message.1]? = some (some message.2) := by
  induction arrived generalizing slots with
  | nil => cases member
  | cons first rest ih =>
      obtain ⟨fresh, others⟩ := List.nodup_cons.1 distinct
      rcases List.mem_cons.1 member with rfl | later
      · rw [List.foldl_cons, foldl_fill_of_absent fresh, fill, List.getElem?_set_self inside]
      · rw [List.foldl_cons]
        apply ih others later
        rwa [fill, List.length_set]

def numbered (timelines : List (Timeline τ)) : List (Nat × Timeline τ) :=
  timelines.zipIdx.map fun (timeline, position) => (position, timeline)

theorem nodup_numbered (timelines : List (Timeline τ)) :
    ((numbered timelines).map (·.1)).Nodup := by
  have positions : (numbered timelines).map (·.1) = List.range' 0 timelines.length := by
    rw [numbered, List.map_map, ← List.zipIdx_map_snd 0 timelines]
    rfl
  rw [positions]
  exact List.nodup_range'

theorem foldl_fill_of_perm {timelines : List (Timeline τ)} {arrived : List (Nat × Timeline τ)}
    (order : arrived.Perm (numbered timelines)) :
    arrived.foldl fill (List.replicate timelines.length none) = timelines.map some := by
  apply List.ext_getElem?
  intro position
  by_cases inside : position < timelines.length
  · have distinct : (arrived.map (·.1)).Nodup :=
      (order.map _).nodup_iff.2 (nodup_numbered timelines)
    have sent : (position, timelines[position]) ∈ numbered timelines := by
      apply List.mem_map.2
      refine ⟨(timelines[position], position), ?_, rfl⟩
      exact List.mem_zipIdx_iff_getElem?.2 (List.getElem?_eq_getElem inside)
    have room : position <
        (List.replicate timelines.length (none : Option (Timeline τ))).length := by
      rwa [List.length_replicate]
    rw [foldl_fill_of_mem distinct (order.mem_iff.2 sent) room, List.getElem?_map,
      List.getElem?_eq_getElem inside, Option.map_some]
  · have outside := Nat.le_of_not_lt inside
    rw [List.getElem?_eq_none, List.getElem?_eq_none]
    · rwa [List.length_map]
    · rwa [length_foldl_fill, List.length_replicate]

theorem collect_of_perm {keys : List κ} {timelines : List (Timeline τ)}
    {arrived : List (Nat × Timeline τ)} (fits : keys.length = timelines.length)
    (order : arrived.Perm (numbered timelines)) : collect keys arrived = keys.zip timelines := by
  have filled := foldl_fill_of_perm order
  rw [← fits] at filled
  simp [collect, filled, Function.comp_def]

variable [Time τ]

theorem timelines_eq_zip {n : Normalizer τ} {tracks : List (κ × List (Event τ))}
    {timelines : List (Timeline τ)}
    (applied : tracks.map (fun t => n.timeline? t.2) = timelines.map some) :
    n.timelines? tracks = some ((tracks.map (·.1)).zip timelines) := by
  have messages : n.messages? tracks = some (numbered timelines) := by
    rw [messages?, mapM_eq_some_iff.2 applied]
    rfl
  have fits : (tracks.map (·.1)).length = timelines.length := by
    simpa using congrArg List.length applied
  rw [timelines?, messages, Option.map_some, collect_of_perm fits (List.Perm.refl _)]

/-- However the workers take turns, as long as none of them fails: every slot is filled when all
messages have arrived, and the tracks come out in the order they came in, each key with the timeline
of its own events. Keys may repeat. -/
theorem tracks_kept_in_any_arrival (n : Normalizer τ) (tracks : List (κ × List (Event τ)))
    (working : ∀ t ∈ tracks, n.timeline? t.2 ≠ none) :
    ∃ messages, n.messages? tracks = some messages ∧
      messages.map (fun m => (m.1, some m.2)) =
        tracks.zipIdx.map (fun t => (t.2, n.timeline? t.1.2)) ∧
      ∀ arrived, arrived.Perm messages →
        (∀ slot ∈ arrived.foldl fill (List.replicate tracks.length none), slot ≠ none) ∧
        n.timelines? tracks = some (collect (tracks.map (·.1)) arrived) ∧
        (collect (tracks.map (·.1)) arrived).map (fun kept => (kept.1, some kept.2)) =
          tracks.map fun t => (t.1, n.timeline? t.2) := by
  obtain ⟨timelines, applied⟩ := exists_map_eq_map_some working
  have messages : n.messages? tracks = some (numbered timelines) := by
    rw [messages?, mapM_eq_some_iff.2 applied]
    rfl
  have fits : tracks.length = timelines.length := by
    simpa using congrArg List.length applied
  have keysFit : (tracks.map (·.1)).length = timelines.length := by
    rwa [List.length_map]
  refine ⟨numbered timelines, messages, ?_, ?_⟩
  · have positions := congrArg (fun made => made.zipIdx.map Prod.swap) applied
    simp only [List.zipIdx_map, List.map_map] at positions
    rw [numbered, List.map_map]
    exact positions.symm
  · intro arrived order
    have filled := foldl_fill_of_perm order
    have collected := collect_of_perm keysFit order
    refine ⟨?_, ?_, ?_⟩
    · rw [fits, filled]
      simp
    · rw [timelines?, messages, Option.map_some, collect_of_perm keysFit (List.Perm.refl _),
        collected]
    · rw [collected]
      calc ((tracks.map (·.1)).zip timelines).map (fun kept => (kept.1, some kept.2))
          = (tracks.map (·.1)).zip (timelines.map some) := List.zip_map_right.symm
        _ = (tracks.map (·.1)).zip (tracks.map fun t => n.timeline? t.2) := by rw [applied]
        _ = tracks.map fun t => (t.1, n.timeline? t.2) := List.zip_map' ..

def sharedKeys : List (String × List (Event Float)) :=
  [("lead", [⟨.noteOn, Float.ofNat 0, 60, defaultVelocity, none⟩,
      ⟨.noteOff, Float.ofNat 2, 60, defaultVelocity, none⟩]),
    ("bass", []),
    ("lead", [⟨.noteOn, Float.ofNat 1, 36, defaultVelocity, none⟩])]

theorem tracks_kept_in_reverse :
    let n : Normalizer Float := ⟨⟨Float.ofNat 240⟩, defaultTicksPerBeat, false⟩
    (∀ t ∈ sharedKeys, n.timeline? t.2 ≠ none) ∧
      ∃ messages, n.messages? sharedKeys = some messages ∧
        (collect (sharedKeys.map (·.1)) messages.reverse).map (fun kept => (kept.1, some kept.2)) =
          sharedKeys.map fun t => (t.1, n.timeline? t.2) := by
  intro n
  have working : ∀ t ∈ sharedKeys, n.timeline? t.2 ≠ none := by decide +kernel
  obtain ⟨messages, sent, _, kept⟩ := n.tracks_kept_in_any_arrival sharedKeys working
  obtain ⟨_, _, same⟩ := kept messages.reverse (List.reverse_perm messages)
  exact ⟨working, messages, sent, same⟩

end Cadenza.Normalizer
