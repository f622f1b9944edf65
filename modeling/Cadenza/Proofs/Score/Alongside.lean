import Cadenza.Proofs.Score.Unfolding

/-!
# Two layouts side by side

Scores whose links match are worked off in the same order, whatever they hold. So it is enough to
compare how one phrase is placed in each of them: if related times give related times and entries,
or the same failure, then the same is true of the layouts as a whole.
-/

namespace Cadenza

set_option autoImplicit false

/-- Outcomes of two runs that go alongside: related results, or the same failure. A failure that is
excused, in either of the runs, ends the comparison. -/
inductive Alongside {ε α β : Type} (excused : ε → Prop) (R : α → β → Prop) :
    Except ε α → Except ε β → Prop where
  | ok {a : α} {b : β} (related : R a b) : Alongside excused R (.ok a) (.ok b)
  | error (e : ε) : Alongside excused R (.error e) (.error e)
  | first {e : ε} (excuse : excused e) (y : Except ε β) : Alongside excused R (.error e) y
  | second {e : ε} (excuse : excused e) (x : Except ε α) : Alongside excused R x (.error e)

namespace Alongside

variable {ε α β γ δ : Type} {excused : ε → Prop} {R : α → β → Prop} {S : γ → δ → Prop}

/-- A step that both runs take. -/
theorem same (x : Except ε α) : Alongside excused Eq x x := by
  cases x with
  | ok a => exact .ok rfl
  | error e => exact .error e

/-- One step after another. -/
theorem next {x : Except ε α} {y : Except ε β} {f : α → Except ε γ} {g : β → Except ε δ}
    (head : Alongside excused R x y)
    (tail : ∀ a b, R a b → Alongside excused S (f a) (g b)) :
    Alongside excused S (x.bind f) (y.bind g) := by
  cases head with
  | ok related => exact tail _ _ related
  | error e => exact .error e
  | first excuse => exact .first excuse _
  | second excuse => exact .second excuse _

/-- Where neither run fails in an excused way, there is nothing but what the comparison says. -/
theorem settled {x : Except ε α} {y : Except ε β} (outcomes : Alongside excused R x y)
    (plain : ∀ e, x = .error e → ¬ excused e) (plain' : ∀ e, y = .error e → ¬ excused e) :
    (∃ e, x = .error e ∧ y = .error e) ∨ ∃ a b, x = .ok a ∧ y = .ok b ∧ R a b := by
  cases outcomes with
  | ok related => exact .inr ⟨_, _, rfl, rfl, related⟩
  | error e => exact .inl ⟨e, rfl, rfl⟩
  | first excuse => exact absurd excuse (plain _ rfl)
  | second excuse => exact absurd excuse (plain' _ rfl)

end Alongside

variable {τ : Type}

structure Placed.Related (E : Entry τ → Entry τ → Prop) (T : τ → τ → Prop) (x y : Placed τ) :
    Prop where
  entry : E x.entry y.entry
  start : T x.start y.start
  finish : T x.finish y.finish

structure Score.Pending.Related (M : Nat → Nat → Prop) (T : τ → τ → Prop)
    (x y : Score.Pending τ) : Prop where
  phrase : M x.phrase y.phrase
  lastStart : T x.lastStart y.lastStart
  lastEnd : T x.lastEnd y.lastEnd

namespace Score

variable [Time τ]

/-- Two layouts go alongside if the phrases that match do, from wherever they are placed, and lead
to phrases that match. -/
theorem lay_out_from_alongside {s t : Score τ} {policy other : DelayPolicy}
    {excused : LayoutError τ → Prop} {M : Nat → Nat → Prop} {E : Entry τ → Entry τ → Prop}
    {T : τ → τ → Prop}
    (matched : ∀ i j, M i j → s.phrase? i = none ∧ t.phrase? j = none ∨
      ∃ p q, s.phrase? i = some p ∧ t.phrase? j = some q ∧ List.Forall₂ M p.next q.next ∧
        ∀ start finish start' finish', T start start' → T finish finish' →
          Alongside excused (Placed.Related E T) (p.place policy start finish)
            (q.place other start' finish'))
    {pending pending' : List (Pending τ)}
    (waiting : List.Forall₂ (Pending.Related M T) pending pending') :
    Alongside excused (List.Forall₂ E) (s.layOutFrom policy pending)
      (t.layOutFrom other pending') := by
  -- On the work left to the first layout; the second one takes what matches at every turn.
  induction work : s.load (pending.map Pending.phrase) using Nat.strongRecOn
    generalizing pending pending' with
  | ind left ih =>
      cases waiting with
      | nil =>
          rw [layOutFrom, layOutFrom]
          exact .ok .nil
      | @cons first first' rest rest' here later =>
          obtain ⟨missing, missing'⟩ | ⟨p, q, found, found', next, placed⟩ :=
            matched first.phrase first'.phrase here.phrase
          · rw [lay_out_from_of_none missing, lay_out_from_of_none missing']
            exact ih _ (work ▸ s.load_lt_of_pop first.phrase _) later rfl
          · rw [lay_out_from_of_some found, lay_out_from_of_some found']
            refine (placed _ _ _ _ here.lastStart here.lastEnd).next fun x y put => ?_
            have opened : List.Forall₂ (Pending.Related M T)
                (p.next.map (⟨·, x.start, x.finish⟩) ++ rest)
                (q.next.map (⟨·, y.start, y.finish⟩) ++ rest') := by
              refine List.rel_append ?_ later
              refine List.forall₂_map_left_iff.2 (List.forall₂_map_right_iff.2 ?_)
              exact next.imp fun _ _ link => ⟨link, put.start, put.finish⟩
            have less : s.load ((p.next.map (Pending.mk · x.start x.finish) ++ rest).map
                Pending.phrase) < left := by
              rw [← work]
              simpa [Function.comp_def] using load_lt_of_open found (rest.map Pending.phrase)
            refine (ih _ less opened rfl).next fun entries entries' others => ?_
            exact .ok (.cons put.entry others)

end Score

end Cadenza
