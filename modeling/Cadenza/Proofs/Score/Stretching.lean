import Cadenza.Proofs.Phrase.Placing
import Cadenza.Proofs.Score.Linking
import Cadenza.Proofs.Score.Unfolding
import Mathlib.Algebra.Order.Ring.Rat
import Mathlib.Tactic.Ring

/-!
# Layouts in stretched and shifted time

A score whose durations and delays are all stretched is laid out in stretched time. Lengths are
stretched but not shifted: within a phrase time starts at zero. Where the phrase is placed, and the
phrases after it, is stretched and shifted with the times it is placed after. A delay keeps its sign
as long as the factor is positive, so no policy sees a difference.
-/

namespace Cadenza

set_option autoImplicit false

section Changed

variable {ε ε' α α' β β' : Type}

/-- An outcome with its failure changed, or its result. -/
def changed (failure : ε → ε') (result : α → α') (outcome : Except ε α) : Except ε' α' :=
  (outcome.mapError failure).map result

/-- A step on a changed result that changes what the step does, after a step that was changed. -/
theorem changed_bind {failure : ε → ε'} (here : α → α') {there : β → β'} {f : α → Except ε β}
    {g : α' → Except ε' β'} (tail : ∀ a, g (here a) = changed failure there (f a))
    (x : Except ε α) :
    (changed failure here x).bind g = changed failure there (x.bind f) := by
  cases x with
  | error e => rfl
  | ok a => exact tail a

end Changed

def Note.stretch (k : Rat) (n : Note Rat) : Note Rat :=
  { n with duration := k * n.duration, delay := k * n.delay }

def Phrase.stretch (k : Rat) (p : Phrase Rat) : Phrase Rat :=
  { p with notes := p.notes.map (·.stretch k), delay := k * p.delay }

theorem followers_stretch (k : Rat) (phrases : List (Phrase Rat)) (i : Nat) :
    followers (phrases.map (·.stretch k)) i = followers phrases i := by
  rw [followers, followers, List.getElem?_map, Option.map_map]
  rfl

/-- Stretches all durations and delays of a score by a factor. -/
def Score.stretch (s : Score Rat) (k : Rat) : Score Rat where
  phrases := s.phrases.map (·.stretch k)
  acyclic := well_founded_of_followers s.acyclic fun i j link => by
    rwa [followers_stretch] at link

def LayoutError.stretch (k : Rat) : LayoutError Rat → LayoutError Rat
  | .negativeDelay track delay => .negativeDelay track (k * delay)
  | .overflow => .overflow

section MapTimes

variable {τ υ : Type}

def Entry.mapTimes (f : τ → υ) (e : Entry τ) : Entry υ :=
  ⟨e.track, e.events.map (·.mapTime f)⟩

def Placed.mapTimes (f : τ → υ) (x : Placed τ) : Placed υ :=
  ⟨x.entry.mapTimes f, f x.start, f x.finish⟩

def Score.Pending.mapTimes (f : τ → υ) (q : Score.Pending τ) : Score.Pending υ :=
  ⟨q.phrase, f q.lastStart, f q.lastEnd⟩

end MapTimes

section Stretched

variable {k : Rat}

/-- A stretched delay is as positive, and as negative, as it was. -/
theorem apply_stretch (positive : 0 < k) (policy : DelayPolicy) (track : TrackId) (delay : Rat) :
    policy.apply track (k * delay) =
      changed (LayoutError.stretch k) (k * ·) (policy.apply track delay) := by
  cases policy with
  | allow => rfl
  | clamp =>
      have same : (Time.zero < k * delay) ↔ Time.zero < delay := mul_pos_iff_of_pos_left positive
      simp only [DelayPolicy.apply, same]
      split
      · rfl
      · exact congrArg Except.ok (mul_zero k).symm
  | reject =>
      have same : delay < Time.zero ↔ k * delay < Time.zero := by
        rw [← mul_lt_mul_iff_of_pos_left positive, show k * Time.zero = Time.zero from mul_zero k]
      simp only [DelayPolicy.apply, same]
      split <;> rfl

theorem start_after_stretch (k : Rat) (n : Note Rat) (previous : Option Rat) (time delay : Rat) :
    (n.stretch k).startAfter (previous.map (k * ·)) (k * time) (k * delay) =
      k * n.startAfter previous time delay := by
  have anchored : (n.stretch k).anchor = n.anchor := rfl
  cases previous with
  | none => rfl
  | some duration =>
      simp only [Note.startAfter, Option.map_some, anchored]
      split <;> ring

def stretchedNotes (k : Rat) (laidOut : List (Event Rat) × Rat) : List (Event Rat) × Rat :=
  (laidOut.1.map (·.mapTime (k * ·)), k * laidOut.2)

theorem place_notes_stretch (positive : 0 < k) (policy : DelayPolicy) (track : TrackId)
    (notes : List (Note Rat)) (previous : Option Rat) (time : Rat) :
    placeNotes policy track (previous.map (k * ·)) (k * time) (notes.map (·.stretch k)) =
      changed (LayoutError.stretch k) (stretchedNotes k)
        (placeNotes policy track previous time notes) := by
  induction notes generalizing previous time with
  | nil => rfl
  | cons n rest ih =>
      rw [List.map_cons, place_notes_cons, place_notes_cons]
      change ((policy.apply track (k * n.delay)).bind _) = _
      rw [apply_stretch positive]
      refine changed_bind _ (fun delay => ?_) _
      have keys : (n.stretch k).keyOrOverflow =
          changed (LayoutError.stretch k) id (n.keyOrOverflow (τ := Rat)) := by
        unfold Note.keyOrOverflow
        change n.key?.elim _ _ = _
        cases n.key? <;> rfl
      rw [keys]
      refine changed_bind _ (fun key => ?_) _
      have ends : k * n.startAfter previous time delay + (n.stretch k).duration =
          k * (n.startAfter previous time delay + n.duration) := (mul_add k _ _).symm
      rw [start_after_stretch, ends]
      have later := ih (some n.duration) (n.startAfter previous time delay + n.duration)
      rw [Option.map_some] at later
      change ((placeNotes policy track (some (k * n.duration)) _ _).bind _) = _
      rw [later]
      exact changed_bind (stretchedNotes k) (fun _ => rfl) _

/-- Stretching within a phrase and then placing it at a stretched and shifted start comes to
stretching and shifting the placed phrase. -/
theorem placed_stretch (k c start : Rat) (track : TrackId) (laidOut : List (Event Rat) × Rat) :
    Placed.mk ⟨track, (stretchedNotes k laidOut).1.map (·.mapTime (· + (k * start + c)))⟩
        (k * start + c) (k * start + c + (stretchedNotes k laidOut).2) =
      Placed.mapTimes (k * · + c)
        ⟨⟨track, laidOut.1.map (·.mapTime (· + start))⟩, start, start + laidOut.2⟩ := by
  have times : ∀ t, k * t + (k * start + c) = k * (t + start) + c := fun t => by ring
  have finish : k * start + c + k * laidOut.2 = k * (start + laidOut.2) + c := by ring
  simp only [stretchedNotes, Placed.mapTimes, Entry.mapTimes, List.map_map, finish,
    Placed.mk.injEq, Entry.mk.injEq, true_and, and_true]
  refine List.map_congr_left fun e _ => ?_
  change e.withTime (k * e.time + (k * start + c)) = e.withTime (k * (e.time + start) + c)
  rw [times]

/-- A stretched phrase is placed after stretched and shifted times. -/
theorem place_stretch (positive : 0 < k) (c : Rat) (p : Phrase Rat) (policy : DelayPolicy)
    (lastStart lastEnd : Rat) :
    (p.stretch k).place policy (k * lastStart + c) (k * lastEnd + c) =
      changed (LayoutError.stretch k) (Placed.mapTimes (k * · + c))
        (p.place policy lastStart lastEnd) := by
  have notes := place_notes_stretch positive policy p.track p.notes none Time.zero
  rw [show k * Time.zero = Time.zero from mul_zero k] at notes
  rw [place_eq, place_eq]
  change (placeNotes policy p.track (Option.map (k * ·) none) Time.zero
    (p.notes.map (·.stretch k))).bind _ = _
  rw [notes]
  refine changed_bind _ (fun laidOut => ?_) _
  change (policy.apply p.track (k * p.delay)).bind _ = _
  rw [apply_stretch positive]
  refine changed_bind _ (fun delay => ?_) _
  have begun : (if p.anchor.isStart then k * lastStart + c else k * lastEnd + c) + k * delay =
      k * ((if p.anchor.isStart then lastStart else lastEnd) + delay) + c := by
    split <;> ring
  have anchored : (p.stretch k).anchor = p.anchor := rfl
  simp only [anchored, begun]
  exact congrArg Except.ok (placed_stretch k c _ p.track laidOut)

namespace Score

theorem phrase_of_stretch (s : Score Rat) (k : Rat) (i : Nat) :
    (s.stretch k).phrase? i = (s.phrase? i).map (·.stretch k) :=
  List.getElem?_map

theorem lay_out_from_stretch (positive : 0 < k) (c : Rat) (s : Score Rat) (policy : DelayPolicy)
    (pending : List (Pending Rat)) :
    (s.stretch k).layOutFrom policy (pending.map (·.mapTimes (k * · + c))) =
      changed (LayoutError.stretch k) (List.map (·.mapTimes (k * · + c)))
        (s.layOutFrom policy pending) := by
  -- On the work left: the stretched score leads from a phrase to the same followers.
  induction work : s.load (pending.map Pending.phrase) using Nat.strongRecOn
    generalizing pending with
  | ind left ih =>
      cases pending with
      | nil =>
          rw [List.map_nil, layOutFrom, layOutFrom]
          rfl
      | cons first rest =>
          cases found : s.phrase? first.phrase with
          | none =>
              have found' : (s.stretch k).phrase? (first.mapTimes (k * · + c)).phrase = none :=
                (phrase_of_stretch s k first.phrase).trans (by rw [found, Option.map_none])
              rw [List.map_cons, lay_out_from_of_none found', lay_out_from_of_none found]
              exact ih _ (work ▸ s.load_lt_of_pop first.phrase _) rest rfl
          | some p =>
              have found' : (s.stretch k).phrase? (first.mapTimes (k * · + c)).phrase =
                  some (p.stretch k) :=
                (phrase_of_stretch s k first.phrase).trans (by rw [found, Option.map_some])
              rw [List.map_cons, lay_out_from_of_some found', lay_out_from_of_some found]
              change ((p.stretch k).place policy (k * first.lastStart + c)
                (k * first.lastEnd + c)).bind _ = _
              rw [place_stretch positive]
              refine changed_bind _ (fun placed => ?_) _
              have less : s.load ((p.next.map (Pending.mk · placed.start placed.finish) ++
                  rest).map Pending.phrase) < left := by
                rw [← work]
                simpa [Function.comp_def] using load_lt_of_open found (rest.map Pending.phrase)
              have later := ih _ less _ rfl
              rw [List.map_append, List.map_map] at later
              change (layOutFrom (s.stretch k) policy
                (p.next.map (Pending.mapTimes (k * · + c) ∘
                  (Pending.mk · placed.start placed.finish)) ++ _)).bind _ = _
              rw [later]
              exact changed_bind (List.map (Entry.mapTimes (k * · + c)))
                (fun _ => rfl) _

/-- For every score, phrase and policy, every factor `k > 0` and every shift `c`. Multiply the
durations and delays of all notes and the delays of all phrases by `k`, and lay the score out after
the times `k * lastStart + c` and `k * lastEnd + c`. The outcome is that of the score laid out after
`lastStart` and `lastEnd`, with every time `t` of an event replaced by `k * t + c`; a layout that
fails still fails, for the same delay, which is told multiplied by `k`. -/
theorem layout_commutes_with_affine_time (s : Score Rat) (positive : 0 < k) (c : Rat)
    (policy : DelayPolicy) (i : Nat) (lastStart lastEnd : Rat) :
    (s.stretch k).layOut policy i (k * lastStart + c) (k * lastEnd + c) =
      ((s.layOut policy i lastStart lastEnd).mapError (LayoutError.stretch k)).map
        (List.map (Entry.mapTimes (k * · + c))) :=
  lay_out_from_stretch positive c s policy [⟨i, lastStart, lastEnd⟩]

def ground : Phrase Rat :=
  ⟨"ground", [⟨⟨Fin.last 11, 2⟩, defaultVelocity, 2, 1 / 4, .finish⟩], [1], 0, .finish⟩

def air : Phrase Rat :=
  ⟨"air", [⟨⟨Fin.last 11, 4⟩, defaultVelocity, 1 / 2, -1 / 3, .finish⟩,
    ⟨⟨Fin.last 11, 3⟩, defaultVelocity, 1, 1 / 2, .start⟩], [], 1, .start⟩

def airOverGround : Score Rat :=
  (((empty.add "ground" ground.notes).1.add "air" air.notes).1.setDelay 1 1).setAnchor 1 .start

theorem air_over_ground_stretched_and_shifted :
    ∃ s : Score Rat, airOverGround.link 0 1 = .ok s ∧ (0 : Rat) < 3 / 2 ∧
      s.layOut .allow 0 1 4 = .ok
        [⟨"ground", [⟨.noteOn, 17 / 4, 47, 64, none⟩, ⟨.noteOff, 25 / 4, 47, 64, none⟩]⟩,
          ⟨"air", [⟨.noteOn, 14 / 3, 71, 64, none⟩, ⟨.noteOff, 31 / 6, 71, 64, none⟩,
            ⟨.noteOn, 31 / 6, 59, 64, none⟩, ⟨.noteOff, 37 / 6, 59, 64, none⟩]⟩] ∧
      (s.stretch (3 / 2)).layOut .allow 0 (3 / 2 * 1 + -2) (3 / 2 * 4 + -2) = .ok
        [⟨"ground", [⟨.noteOn, 35 / 8, 47, 64, none⟩, ⟨.noteOff, 59 / 8, 47, 64, none⟩]⟩,
          ⟨"air", [⟨.noteOn, 5, 71, 64, none⟩, ⟨.noteOff, 23 / 4, 71, 64, none⟩,
            ⟨.noteOn, 23 / 4, 59, 64, none⟩, ⟨.noteOff, 29 / 4, 59, 64, none⟩]⟩] := by
  obtain ⟨s, made, phrases⟩ := link_of_leaf (s := airOverGround) (a := 0) (b := 1) rfl rfl nofun
  have found : s.phrase? 0 = some ground := by
    rw [phrase?, phrases]
    rfl
  have found' : s.phrase? 1 = some air := by
    rw [phrase?, phrases]
    rfl
  have placed : ground.place .allow 1 4 = .ok ⟨⟨"ground",
      [⟨.noteOn, 17 / 4, 47, 64, none⟩, ⟨.noteOff, 25 / 4, 47, 64, none⟩]⟩, 4, 25 / 4⟩ := by
    decide +kernel
  have placed' : air.place .allow 4 (25 / 4) = .ok ⟨⟨"air",
      [⟨.noteOn, 14 / 3, 71, 64, none⟩, ⟨.noteOff, 31 / 6, 71, 64, none⟩,
        ⟨.noteOn, 31 / 6, 59, 64, none⟩, ⟨.noteOff, 37 / 6, 59, 64, none⟩]⟩, 5, 37 / 6⟩ := by
    decide +kernel
  have noneLeft : s.layOutFrom .allow [] = .ok [] := by rw [layOutFrom]
  have plain : s.layOut .allow 0 1 4 = .ok [_, _] :=
    lay_out_from_of_ok found placed (lay_out_from_of_ok found' placed' noneLeft)
  refine ⟨s, made, by decide +kernel, plain, ?_⟩
  rw [s.layout_commutes_with_affine_time (by decide +kernel), plain]
  decide +kernel

end Score

end Stretched

end Cadenza
