import Cadenza.Score.Meaning
import Mathlib.Data.List.Forall2

/-!
# Laying out a score means what it says

The list of pending phrases is worked off in the order of the recursion over the links, with the
same times, and stops at the same failure. A phrase that several ways lead to is laid out once for
each of them, at the times of that way.
-/

namespace Cadenza

set_option autoImplicit false

variable {τ : Type}

namespace Score

section Followed

variable {ε α : Type}

theorem followed_by_ok_nil (layout : Except ε (List α)) : followedBy layout (.ok []) = layout := by
  cases layout with
  | error e => rfl
  | ok entries => simp [followedBy]

theorem ok_nil_followed_by (layout : Except ε (List α)) : followedBy (.ok []) layout = layout := by
  cases layout <;> rfl

theorem followed_by_assoc (first second third : Except ε (List α)) :
    followedBy (followedBy first second) third = followedBy first (followedBy second third) := by
  cases first with
  | error e => rfl
  | ok entries =>
      cases second with
      | error e => rfl
      | ok others =>
          cases third with
          | error e => rfl
          | ok last => simp [followedBy]

theorem followed_by_eq_ok {first later : Except ε (List α)} {entries : List α}
    (made : followedBy first later = .ok entries) :
    ∃ front back, first = .ok front ∧ later = .ok back ∧ entries = front ++ back := by
  cases first with
  | error e => cases made
  | ok front =>
      cases later with
      | error e => cases made
      | ok back => exact ⟨front, back, rfl, rfl, (Except.ok.inj made).symm⟩

theorem concat_layouts_append (first later : List (Except ε (List α))) :
    concatLayouts (first ++ later) = followedBy (concatLayouts first) (concatLayouts later) := by
  induction first with
  | nil => exact (ok_nil_followed_by _).symm
  | cons layout rest ih =>
      change followedBy layout (concatLayouts (rest ++ later)) =
        followedBy (followedBy layout (concatLayouts rest)) (concatLayouts later)
      rw [ih, followed_by_assoc]

end Followed

theorem unfolding_of_some {s : Score τ} {i : Nat} {p : Phrase τ} (found : s.phrase? i = some p) :
    s.unfolding i = i :: p.next.flatMap s.unfolding := by
  have next : followers s.phrases i = p.next := followers_of_some found
  rw [unfolding]
  simp only [found]
  rw [List.flatMap_subtype (g := s.unfolding) fun _ _ => rfl, List.unattach_attach, next]

theorem unfolding_of_none {s : Score τ} {i : Nat} (missing : s.phrase? i = none) :
    s.unfolding i = [] := by
  rw [unfolding]
  simp only [missing]

theorem ways_of_some {s : Score τ} {i : Nat} {p : Phrase τ} (found : s.phrase? i = some p) :
    s.ways i = [] :: p.next.zipIdx.flatMap fun link => (s.ways link.1).map (link.2 :: ·) := by
  have next : followers s.phrases i = p.next := followers_of_some found
  rw [ways]
  simp only [found]
  have plain : p.next.zipIdx =
      (followers s.phrases i).attach.zipIdx.map (Prod.map Subtype.val id) := by
    rw [← List.zipIdx_map, List.attach_map_subtype_val, next]
  rw [plain, List.flatMap_map]
  rfl

theorem ways_of_none {s : Score τ} {i : Nat} (missing : s.phrase? i = none) : s.ways i = [] := by
  rw [ways]
  simp only [missing]

/-- Pending phrases are walked one after the other, each with all that follow it. -/
theorem walk_from_eq (s : Score τ) (pending : List Nat) :
    s.walkFrom pending = pending.flatMap s.unfolding := by
  fun_induction walkFrom s pending with
  | case1 => rfl
  | case2 i rest missing ih =>
      rw [ih, List.flatMap_cons, unfolding_of_none missing, List.nil_append]
  | case3 i rest p found ih =>
      rw [ih, List.flatMap_cons, unfolding_of_some found, List.flatMap_append, List.cons_append]

theorem walk_eq_unfolding (s : Score τ) (i : Nat) : s.walk i = s.unfolding i := by
  rw [walk, walk_from_eq, List.flatMap_singleton]

variable [Time τ]

theorem meaning_of_none {s : Score τ} {i : Nat} (missing : s.phrase? i = none)
    (policy : DelayPolicy) (lastStart lastEnd : τ) :
    s.meaning policy i lastStart lastEnd = .ok [] := by
  rw [meaning]
  simp only [missing]

theorem meaning_of_some {s : Score τ} {i : Nat} {p : Phrase τ} (found : s.phrase? i = some p)
    (policy : DelayPolicy) (lastStart lastEnd : τ) :
    s.meaning policy i lastStart lastEnd =
      match p.place policy lastStart lastEnd with
      | .error e => .error e
      | .ok placed =>
          followedBy (.ok [placed.entry])
            (concatLayouts
              (p.next.map fun j => s.meaning policy j placed.start placed.finish)) := by
  have next : followers s.phrases i = p.next := followers_of_some found
  rw [meaning]
  simp only [found, Phrase.place]
  have anchored : (if p.anchor.isStart = true then lastStart else lastEnd) =
      if p.anchor = .start then lastStart else lastEnd := by
    cases p.anchor <;> rfl
  cases Cadenza.layOut policy p.track p.notes with
  | error e => rfl
  | ok placed =>
      cases policy.apply p.track p.delay with
      | error e => rfl
      | ok delay =>
          simp only [anchored]
          rw [List.map_subtype (g := fun j => s.meaning policy j _ _) fun _ _ => rfl,
            List.unattach_attach, next]
          rfl

theorem lay_out_from_of_none {s : Score τ} {policy : DelayPolicy} {first : Pending τ}
    (missing : s.phrase? first.phrase = none) (rest : List (Pending τ)) :
    s.layOutFrom policy (first :: rest) = s.layOutFrom policy rest := by
  rw [layOutFrom]
  split
  · rfl
  · rename_i p found
    rw [missing] at found
    cases found

/-- What one phrase adds to a layout. -/
theorem lay_out_from_of_some {s : Score τ} {first : Pending τ} {p : Phrase τ}
    (found : s.phrase? first.phrase = some p) (policy : DelayPolicy) (rest : List (Pending τ)) :
    s.layOutFrom policy (first :: rest) =
      (p.place policy first.lastStart first.lastEnd).bind fun placed =>
        (s.layOutFrom policy (p.next.map (⟨·, placed.start, placed.finish⟩) ++ rest)).bind
          fun entries => .ok (placed.entry :: entries) := by
  rw [layOutFrom]
  split
  · rename_i missing
    rw [missing] at found
    cases found
  · rename_i q same
    obtain rfl := Option.some.inj (found.symm.trans same)
    cases p.place policy first.lastStart first.lastEnd with
    | error e => rfl
    | ok placed =>
        simp only [Except.bind]
        cases s.layOutFrom policy (p.next.map (⟨·, placed.start, placed.finish⟩) ++ rest) <;> rfl

theorem lay_out_from_of_ok {s : Score τ} {policy : DelayPolicy} {first : Pending τ}
    {rest : List (Pending τ)} {p : Phrase τ} {placed : Placed τ} {entries : List (Entry τ)}
    (found : s.phrase? first.phrase = some p)
    (made : p.place policy first.lastStart first.lastEnd = .ok placed)
    (later : s.layOutFrom policy (p.next.map (⟨·, placed.start, placed.finish⟩) ++ rest) =
      .ok entries) :
    s.layOutFrom policy (first :: rest) = .ok (placed.entry :: entries) := by
  simp only [lay_out_from_of_some found, made, Except.bind, later]

def Pending.meant (s : Score τ) (policy : DelayPolicy) (q : Pending τ) :
    Except (LayoutError τ) (List (Entry τ)) :=
  s.meaning policy q.phrase q.lastStart q.lastEnd

/-- The followers of the phrase that is taken next go before all that was pending, as they do in
the recursion. -/
theorem concat_meant_of_place {s : Score τ} {policy : DelayPolicy} {first : Pending τ}
    {p : Phrase τ} {placed : Placed τ} (found : s.phrase? first.phrase = some p)
    (made : p.place policy first.lastStart first.lastEnd = .ok placed) (rest : List (Pending τ)) :
    concatLayouts ((first :: rest).map (Pending.meant s policy)) =
      followedBy (.ok [placed.entry]) (concatLayouts
        (((p.next.map fun j => Pending.mk j placed.start placed.finish) ++ rest).map
          (Pending.meant s policy))) := by
  have own : Pending.meant s policy first = followedBy (.ok [placed.entry])
      (concatLayouts (p.next.map fun j => s.meaning policy j placed.start placed.finish)) := by
    rw [Pending.meant, meaning_of_some found, made]
  have opened : (p.next.map fun j => Pending.mk j placed.start placed.finish).map
      (Pending.meant s policy) =
        p.next.map fun j => s.meaning policy j placed.start placed.finish := by
    rw [List.map_map]
    rfl
  rw [List.map_append, opened, concat_layouts_append, ← followed_by_assoc, ← own]
  rfl

/-- The pending phrases are laid out one after the other, each with all that follow it. -/
theorem lay_out_from_eq (s : Score τ) (policy : DelayPolicy) (pending : List (Pending τ)) :
    s.layOutFrom policy pending = concatLayouts (pending.map (Pending.meant s policy)) := by
  fun_induction layOutFrom s policy pending with
  | case1 => rfl
  | case2 first rest missing ih =>
      rw [ih, List.map_cons, Pending.meant, meaning_of_none missing]
      exact (ok_nil_followed_by _).symm
  | case3 first rest p found e failed =>
      rw [List.map_cons, Pending.meant, meaning_of_some found, failed]
      rfl
  | case4 first rest p found placed made e failed ih =>
      rw [concat_meant_of_place found made, ← ih, failed, followedBy]
  | case5 first rest p found placed made entries finished ih =>
      rw [concat_meant_of_place found made, ← ih, finished, followedBy, List.singleton_append]

/-- Every entry of a layout comes from placing a phrase that is reached. -/
theorem placed_of_lay_out_from {s : Score τ} {policy : DelayPolicy} {pending : List (Pending τ)}
    {entries : List (Entry τ)} (done : s.layOutFrom policy pending = .ok entries) {e : Entry τ}
    (member : e ∈ entries) :
    ∃ q ∈ pending, ∃ i p lastStart lastEnd placed, Reaches s.phrases q.phrase i ∧
      s.phrase? i = some p ∧ p.place policy lastStart lastEnd = .ok placed ∧ placed.entry = e := by
  fun_induction layOutFrom s policy pending generalizing entries with
  | case1 =>
      rw [← Except.ok.inj done] at member
      cases member
  | case2 first rest missing ih =>
      obtain ⟨q, later, reached⟩ := ih done member
      exact ⟨q, List.mem_cons_of_mem first later, reached⟩
  | case3 first rest p found e failed => cases done
  | case4 first rest p found placed made e failed ih => cases done
  | case5 first rest p found placed made others finished ih =>
      rw [← Except.ok.inj done] at member
      rcases List.mem_cons.1 member with same | other
      · exact ⟨first, List.mem_cons_self, first.phrase, p, first.lastStart, first.lastEnd, placed,
          Reaches.refl _, found, made, same.symm⟩
      · obtain ⟨q, qIn, i, r, start, finish, put, path, reached⟩ := ih finished other
        rcases List.mem_append.1 qIn with follower | later
        · obtain ⟨j, linked, rfl⟩ := List.mem_map.1 follower
          have link : j ∈ followers s.phrases first.phrase := by
            rw [followers_of_some found]
            exact linked
          exact ⟨first, List.mem_cons_self, i, r, start, finish, put, Reaches.step link path,
            reached⟩
        · exact ⟨q, List.mem_cons_of_mem first later, i, r, start, finish, put, path, reached⟩

theorem lay_out_eq_meaning (s : Score τ) (policy : DelayPolicy) (i : Nat) (lastStart lastEnd : τ) :
    s.layOut policy i lastStart lastEnd = s.meaning policy i lastStart lastEnd := by
  rw [layOut, lay_out_from_eq]
  exact followed_by_ok_nil _

end Score

end Cadenza
