import Cadenza.Proofs.Phrase.Pairs
import Cadenza.Timeline

/-!
# Sorting keeps notes closed

In a timeline every note that begins has to end later on, on the same voice. Inserting events one by
one does not keep this, but inserting the two events of a note does: the end goes no further left
than the beginning, and nothing else changes its order.
-/

namespace Cadenza

set_option autoImplicit false

variable {τ α : Type}

/-- In a list written backwards, every beginning has an end that comes later, unless its voice is
among those that are ended anyway. -/
def Closed (voice : Event τ → α) (ended : α → Prop) : List (Event τ) → Prop
  | [] => True
  | e :: earlier =>
      match e.kind with
      | .noteOn => ended (voice e) ∧ Closed voice ended earlier
      | .noteOff => Closed voice (fun v => v = voice e ∨ ended v) earlier

theorem closed_cons_on {voice : Event τ → α} {ended : α → Prop} {e : Event τ}
    {earlier : List (Event τ)} (begins : e.kind = .noteOn) :
    Closed voice ended (e :: earlier) ↔ ended (voice e) ∧ Closed voice ended earlier := by
  simp only [Closed, begins]

theorem closed_cons_off {voice : Event τ → α} {ended : α → Prop} {e : Event τ}
    {earlier : List (Event τ)} (ends : e.kind = .noteOff) :
    Closed voice ended (e :: earlier) ↔
      Closed voice (fun v => v = voice e ∨ ended v) earlier := by
  simp only [Closed, ends]

theorem Closed.mono {voice : Event τ → α} {ended more : α → Prop} {backwards : List (Event τ)}
    (closed : Closed voice ended backwards) (weaker : ∀ v, ended v → more v) :
    Closed voice more backwards := by
  induction backwards generalizing ended more with
  | nil => trivial
  | cons e earlier ih =>
      cases kind : e.kind with
      | noteOn =>
          rw [closed_cons_on kind] at closed ⊢
          exact ⟨weaker _ closed.1, ih closed.2 weaker⟩
      | noteOff =>
          rw [closed_cons_off kind] at closed ⊢
          refine ih closed ?_
          intro v before
          rcases before with same | old
          · exact Or.inl same
          · exact Or.inr (weaker v old)

theorem Closed.insert_on {voice : Event τ → α} {ended : α → Prop} {backwards : List (Event τ)}
    (closed : Closed voice ended backwards) (after : Event τ → Event τ → Bool) {e : Event τ}
    (begins : e.kind = .noteOn) (known : ended (voice e)) :
    Closed voice ended (insertBack after e backwards) := by
  induction backwards generalizing ended with
  | nil =>
      rw [insertBack, closed_cons_on begins]
      exact ⟨known, closed⟩
  | cons y earlier ih =>
      unfold insertBack
      by_cases passes : after y e = true
      · rw [if_pos passes]
        cases kind : y.kind with
        | noteOn =>
            rw [closed_cons_on kind] at closed ⊢
            exact ⟨closed.1, ih closed.2 known⟩
        | noteOff =>
            rw [closed_cons_off kind] at closed ⊢
            exact ih closed (Or.inr known)
      · rw [if_neg passes, closed_cons_on begins]
        exact ⟨known, closed⟩

/-- A note that is inserted with its end is closed, as long as the end is not before it. -/
theorem Closed.insert_pair {voice : Event τ → α} {ended : α → Prop} {backwards : List (Event τ)}
    (closed : Closed voice ended backwards) {after : Event τ → Event τ → Bool}
    {first last : Event τ} (begins : first.kind = .noteOn) (ends : last.kind = .noteOff)
    (same : voice last = voice first) (order : after first last = false) :
    Closed voice ended (insertBack after last (insertBack after first backwards)) := by
  -- Where the end goes, it ends the note that was just inserted, which stands further right.
  have here : ∀ {ended : α → Prop} {backwards : List (Event τ)}, Closed voice ended backwards →
      Closed voice ended (last :: insertBack after first backwards) := by
    intro ended backwards closed
    rw [closed_cons_off ends]
    have wider : Closed voice (fun v => v = voice last ∨ ended v) backwards :=
      closed.mono fun _ old => Or.inr old
    exact wider.insert_on after begins (Or.inl same.symm)
  induction backwards generalizing ended with
  | nil =>
      have alone := here closed
      simp only [insertBack, order, Bool.false_eq_true, ↓reduceIte]
      exact alone
  | cons y earlier ih =>
      by_cases passes : after y first = true
      · by_cases passesLast : after y last = true
        · simp only [insertBack, passes, passesLast, ↓reduceIte]
          cases kind : y.kind with
          | noteOn =>
              rw [closed_cons_on kind] at closed ⊢
              exact ⟨closed.1, ih closed.2⟩
          | noteOff =>
              rw [closed_cons_off kind] at closed ⊢
              exact ih closed
        · have placed := here closed
          simp only [insertBack, passes, passesLast, ↓reduceIte] at placed ⊢
          exact placed
      · have placed := here closed
        simp only [insertBack, passes, order, ↓reduceIte, Bool.false_eq_true] at placed ⊢
        exact placed

variable [Time τ]

/-- Sorting pairs closes every note. -/
theorem closed_insert_all {voice : Event τ → α} {ended : α → Prop} {sorted events : List (Event τ)}
    (voiced : ∀ x y : Event τ, x.key = y.key → x.track = y.track → voice x = voice y)
    (paired : Paired events) (closed : Closed voice ended sorted) :
    Closed voice ended (insertAll Event.after sorted events) := by
  induction paired generalizing sorted with
  | nil => exact closed
  | cons begins ends key track order _ ih =>
      exact ih (closed.insert_pair begins ends (voiced _ _ key track) (decide_eq_false order))

end Cadenza
