import Cadenza.Proofs.Pitch
import Cadenza.Proofs.Score.Alongside
import Cadenza.Proofs.Score.Linking
import Cadenza.Proofs.Score.Refusing

/-!
# Transposing a score

Pitches play no part in when a note comes. A score with all notes moved by some semitones has the
same layout but for the keys, which are moved by just as many; and it comes back if all notes are
moved the other way.
-/

namespace Cadenza

set_option autoImplicit false

variable {τ : Type}

theorem mapM_eq_some_iff_forall₂ {α β : Type} {f : α → Option β} {xs : List α} {ys : List β} :
    xs.mapM f = some ys ↔ List.Forall₂ (fun x y => f x = some y) xs ys := by
  rw [mapM_eq_some_iff, ← List.forall₂_eq_eq_eq, List.forall₂_map_left_iff,
    List.forall₂_map_right_iff]

/-- Related lists end at the same place, and before it they are related. -/
theorem lookup_of_forall₂ {α β : Type} {R : α → β → Prop} {xs : List α} {ys : List β}
    (related : List.Forall₂ R xs ys) (i : Nat) :
    xs[i]? = none ∧ ys[i]? = none ∨ ∃ x y, xs[i]? = some x ∧ ys[i]? = some y ∧ R x y := by
  induction related generalizing i with
  | nil => exact .inl ⟨rfl, rfl⟩
  | @cons x y xs ys here others ih =>
      cases i with
      | zero => exact .inr ⟨x, y, rfl, rfl, here⟩
      | succ i => simpa only [List.getElem?_cons_succ] using ih i

def Phrase.mapNotes? (f : Note τ → Option (Note τ)) (p : Phrase τ) : Option (Phrase τ) :=
  (p.notes.mapM f).map fun notes => { p with notes }

theorem Phrase.map_notes_eq_some_iff {f : Note τ → Option (Note τ)} {p q : Phrase τ} :
    p.mapNotes? f = some q ↔
      List.Forall₂ (fun x y => f x = some y) p.notes q.notes ∧ q = { p with notes := q.notes } := by
  rw [Phrase.mapNotes?, Option.map_eq_some_iff]
  constructor
  · rintro ⟨notes, mapped, rfl⟩
    exact ⟨mapM_eq_some_iff_forall₂.1 mapped, rfl⟩
  · rintro ⟨mapped, same⟩
    exact ⟨q.notes, mapM_eq_some_iff_forall₂.2 mapped, same.symm⟩

theorem followers_of_map_notes {f : Note τ → Option (Note τ)} {phrases others : List (Phrase τ)}
    (mapped : phrases.mapM (Phrase.mapNotes? f) = some others) (i : Nat) :
    followers others i = followers phrases i := by
  obtain ⟨missing, missing'⟩ | ⟨p, q, found, found', changed⟩ :=
    lookup_of_forall₂ (mapM_eq_some_iff_forall₂.1 mapped) i
  · rw [followers_of_none missing, followers_of_none missing']
  · rw [followers_of_some found, followers_of_some found',
      (Phrase.map_notes_eq_some_iff.1 changed).2]

namespace Score

def mapNotes? (f : Note τ → Option (Note τ)) (s : Score τ) : Option (Score τ) :=
  match mapped : s.phrases.mapM (Phrase.mapNotes? f) with
  | none => none
  | some phrases => some
      { phrases
        acyclic := well_founded_of_followers s.acyclic fun i j link => by
          rwa [followers_of_map_notes mapped] at link }

def up? (s : Score τ) (semitones : Int32) : Option (Score τ) :=
  s.mapNotes? (·.up? semitones)

def down? (s : Score τ) (semitones : Int32) : Option (Score τ) :=
  s.mapNotes? (·.down? semitones)

theorem phrases_of_map_notes (f : Note τ → Option (Note τ)) (s : Score τ) :
    (s.mapNotes? f).map Score.phrases = s.phrases.mapM (Phrase.mapNotes? f) := by
  rw [mapNotes?]
  split
  · rename_i failed
    exact failed.symm
  · rename_i phrases mapped
    exact mapped.symm

theorem mapM_of_map_notes {f : Note τ → Option (Note τ)} {s t : Score τ}
    (mapped : s.mapNotes? f = some t) : s.phrases.mapM (Phrase.mapNotes? f) = some t.phrases := by
  rw [← phrases_of_map_notes, mapped, Option.map_some]

/-- A score is told by its phrases. -/
theorem phrases_injective : Function.Injective (Score.phrases : Score τ → List (Phrase τ)) := by
  rintro ⟨phrases, _⟩ ⟨_, _⟩ rfl
  rfl

end Score

section Back

variable {α β : Type} {bound : Prop}

/-- What is changed one by one comes back one by one, or one of it fails. -/
theorem mapM_back {f : α → Option β} {g : β → Option α}
    (back : ∀ x y, f x = some y → g y = some x ∨ g y = none ∧ bound) {xs : List α} {ys : List β}
    (mapped : xs.mapM f = some ys) :
    ys.mapM g = some xs ∨ ys.mapM g = none ∧ bound := by
  induction mapM_eq_some_iff_forall₂.1 mapped with
  | nil => exact .inl rfl
  | @cons x y xs ys here others ih =>
      rw [List.mapM_cons]
      obtain home | ⟨lost, bounded⟩ := back x y here
      · obtain homes | ⟨lost, bounded⟩ := ih (mapM_eq_some_iff_forall₂.2 others)
        · exact .inl (by rw [home, homes]; rfl)
        · exact .inr ⟨by rw [home, lost]; rfl, bounded⟩
      · exact .inr ⟨by rw [lost]; rfl, bounded⟩

variable {f g : Note τ → Option (Note τ)}
  (back : ∀ x y, f x = some y → g y = some x ∨ g y = none ∧ bound)

include back in
theorem Phrase.map_notes_back {p q : Phrase τ} (mapped : p.mapNotes? f = some q) :
    q.mapNotes? g = some p ∨ q.mapNotes? g = none ∧ bound := by
  obtain ⟨notes, changed, rfl⟩ := Option.map_eq_some_iff.1 mapped
  obtain home | ⟨lost, bounded⟩ := mapM_back back changed
  · exact .inl (by rw [Phrase.mapNotes?, home]; rfl)
  · exact .inr ⟨by rw [Phrase.mapNotes?, lost]; rfl, bounded⟩

include back in
theorem Score.map_notes_back {s t : Score τ} (mapped : s.mapNotes? f = some t) :
    t.mapNotes? g = some s ∨ t.mapNotes? g = none ∧ bound := by
  have again := Score.phrases_of_map_notes g t
  obtain home | ⟨lost, bounded⟩ :=
    mapM_back (fun p q => Phrase.map_notes_back back) (Score.mapM_of_map_notes mapped)
  · rw [home] at again
    obtain ⟨r, made, same⟩ := Option.map_eq_some_iff.1 again
    exact .inl (Score.phrases_injective same ▸ made)
  · rw [lost] at again
    exact .inr ⟨Option.map_eq_none_iff.1 again, bounded⟩

end Back

section Notes

variable {x y : Note τ} {n : Int32}

/-- Nothing but the pitch of a note is raised. -/
theorem Note.up_eq_some_iff :
    x.up? n = some y ↔ x.pitch.up? n = some y.pitch ∧ y = { x with pitch := y.pitch } := by
  rw [Note.up?, Option.map_eq_some_iff]
  constructor
  · rintro ⟨pitch, raised, rfl⟩
    exact ⟨raised, rfl⟩
  · rintro ⟨raised, same⟩
    exact ⟨y.pitch, raised, same.symm⟩

/-- A note that was raised is lowered to what it was; that overflows only for the twelve lowest
words. -/
theorem Note.down_of_up (raised : x.up? n = some y) :
    y.down? n = some x ∨ y.down? n = none ∧ n.toInt < Int32.minValue.toInt + 12 := by
  obtain ⟨moved, same⟩ := Note.up_eq_some_iff.1 raised
  rw [Note.down?]
  by_cases fits : y.pitch.pitchClass.val - n.toInt ≤ Int32.maxValue.toInt
  · left
    rw [(Pitch.down_of_up moved).2 fits, same]
    rfl
  · right
    have below := y.pitch.pitchClass.isLt
    have lost : y.pitch.down? n = none :=
      Option.eq_none_iff_forall_ne_some.2 fun q lowered => fits (Pitch.down_eq_some_iff.1 lowered).1
    rw [lost]
    rw [Int32.toInt_maxValue] at fits
    rw [Int32.toInt_minValue]
    exact ⟨rfl, by omega⟩

/-- The key is raised with the note, unless the one or the other overflows. -/
theorem Note.key_of_up (raised : x.up? n = some y) :
    Alongside (Eq .overflow) (fun key key' => key'.toInt = key.toInt + n.toInt)
      x.keyOrOverflow y.keyOrOverflow := by
  have exact := (Pitch.up_eq_some_iff.1 (Note.up_eq_some_iff.1 raised).1).2
  unfold Note.keyOrOverflow
  cases keyed : x.key? with
  | none => exact .first rfl _
  | some key =>
      cases keyed' : y.key? with
      | none => exact .second rfl _
      | some key' =>
          refine .ok ?_
          rw [Pitch.key_to_int keyed, Pitch.key_to_int keyed', exact]
          omega

end Notes

/-- An event like another one, with a key that is so many semitones higher. -/
structure Event.Raised (n : Int32) (e e' : Event τ) : Prop where
  same : e' = { e with key := e'.key }
  key : e'.key.toInt = e.key.toInt + n.toInt

structure Entry.Raised (n : Int32) (e e' : Entry τ) : Prop where
  track : e'.track = e.track
  events : List.Forall₂ (Event.Raised n) e.events e'.events

section Layouts

variable [Time τ] {n : Int32}

/-- Raised notes are placed where the notes are, unless a key overflows. -/
theorem place_notes_of_up (policy : DelayPolicy) (track : TrackId) {notes notes' : List (Note τ)}
    (raised : List.Forall₂ (fun x y => x.up? n = some y) notes notes') (previous : Option τ)
    (time : τ) :
    Alongside (Eq .overflow)
      (fun x y => List.Forall₂ (Event.Raised n) x.1 y.1 ∧ x.2 = y.2)
      (placeNotes policy track previous time notes)
      (placeNotes policy track previous time notes') := by
  induction raised generalizing previous time with
  | nil => exact .ok ⟨.nil, rfl⟩
  | @cons x y rest rest' here others ih =>
      obtain ⟨_, same⟩ := Note.up_eq_some_iff.1 here
      have delays : y.delay = x.delay := by rw [same]
      have starts : y.startAfter = x.startAfter := by rw [same]; rfl
      have durations : y.duration = x.duration := by rw [same]
      have loudness : y.velocity = x.velocity := by rw [same]
      rw [place_notes_cons, place_notes_cons, delays, starts, durations, loudness]
      -- Both read the same delay and so fail alike; if not, they differ in the key and go on from
      -- the same time.
      refine (Alongside.same _).next ?_
      rintro delay _ rfl
      refine (Note.key_of_up here).next fun key key' higher => ?_
      refine (ih _ _).next ?_
      rintro ⟨later, last⟩ ⟨later', _⟩ ⟨events, rfl⟩
      exact .ok ⟨.cons ⟨rfl, higher⟩ (.cons ⟨rfl, higher⟩ events), rfl⟩

omit [Time τ] in
theorem Event.Raised.map_time {e e' : Event τ} (raised : Event.Raised n e e') (f : τ → τ) :
    Event.Raised n (e.mapTime f) (e'.mapTime f) := by
  refine ⟨?_, raised.key⟩
  rw [raised.same]
  rfl

/-- A raised phrase is placed where the phrase is. -/
theorem place_of_up {p q : Phrase τ} (raised : p.mapNotes? (·.up? n) = some q)
    (policy : DelayPolicy) (lastStart lastEnd : τ) :
    Alongside (Eq .overflow) (Placed.Related (Entry.Raised n) Eq)
      (p.place policy lastStart lastEnd) (q.place policy lastStart lastEnd) := by
  obtain ⟨notes, same⟩ := Phrase.map_notes_eq_some_iff.1 raised
  have tracks : q.track = p.track := by rw [same]
  have delays : q.delay = p.delay := by rw [same]
  have anchors : q.anchor = p.anchor := by rw [same]
  rw [place_eq, place_eq, tracks, delays, anchors]
  -- The notes come before the delay of the phrase, here as there.
  refine (place_notes_of_up policy p.track notes none Time.zero).next ?_
  rintro ⟨events, duration⟩ ⟨events', _⟩ ⟨higher, rfl⟩
  refine (Alongside.same _).next ?_
  rintro delay _ rfl
  refine .ok ⟨⟨rfl, ?_⟩, rfl, rfl⟩
  exact List.forall₂_map_left_iff.2 (List.forall₂_map_right_iff.2
    (higher.imp fun _ _ one => one.map_time _))

namespace Score

variable {s t : Score τ}

theorem lay_out_of_up (raised : s.up? n = some t) (policy : DelayPolicy) (i : Nat)
    (lastStart lastEnd : τ) :
    Alongside (Eq .overflow) (List.Forall₂ (Entry.Raised n))
      (s.layOut policy i lastStart lastEnd) (t.layOut policy i lastStart lastEnd) := by
  have lookup := lookup_of_forall₂ (mapM_eq_some_iff_forall₂.1 (mapM_of_map_notes raised))
  refine lay_out_from_alongside (M := Eq) (T := Eq) ?_ (.cons ⟨rfl, rfl, rfl⟩ .nil)
  rintro j _ rfl
  refine (lookup j).imp_right fun ⟨p, q, found, found', higher⟩ =>
    ⟨p, q, found, found', ?_, ?_⟩
  · rw [(Phrase.map_notes_eq_some_iff.1 higher).2]
    exact List.forall₂_same.2 fun _ _ => rfl
  · rintro start finish _ _ rfl rfl
    exact place_of_up higher policy start finish

/-- Take any score whose notes can all be moved up by `n` semitones, which may be negative. From
every phrase, at all times and under each policy, the score that was moved has the layout of the
score, unless one of them overflows: the same failure, or the same entries but for the keys, which
are higher by exactly `n`. All notes moved down again give the score back, and with it its layouts;
that overflows for none but the twelve lowest words. -/
theorem transposing_moves_keys_only (raised : s.up? n = some t) :
    (∀ policy i lastStart lastEnd,
      s.layOut policy i lastStart lastEnd ≠ .error .overflow →
      t.layOut policy i lastStart lastEnd ≠ .error .overflow →
      (∃ e, s.layOut policy i lastStart lastEnd = .error e ∧
        t.layOut policy i lastStart lastEnd = .error e) ∨
      ∃ entries entries', s.layOut policy i lastStart lastEnd = .ok entries ∧
        t.layOut policy i lastStart lastEnd = .ok entries' ∧
        List.Forall₂ (Entry.Raised n) entries entries') ∧
    (t.down? n = some s ∨ t.down? n = none ∧ n.toInt < Int32.minValue.toInt + 12) := by
  constructor
  · intro policy i lastStart lastEnd fits fits'
    apply (lay_out_of_up raised policy i lastStart lastEnd).settled
    · rintro _ failed rfl
      exact fits failed
    · rintro _ failed rfl
      exact fits' failed
  · exact map_notes_back (fun _ _ => Note.down_of_up) raised

def canon : Score Float :=
  let lead : List (Note Float) := [⟨⟨⟨0, by decide⟩, 4⟩, defaultVelocity, 1, 0, .finish⟩,
    ⟨⟨⟨11, by decide⟩, 4⟩, defaultVelocity, 1, 1, .start⟩]
  let bass : List (Note Float) := [⟨⟨⟨7, by decide⟩, -1⟩, defaultVelocity, 2, -1, .finish⟩]
  ((empty.add "lead" lead).1.add "bass" bass).1

def canonDown : List (Phrase Float) :=
  [⟨"lead", [⟨⟨⟨7, by decide⟩, 2⟩, defaultVelocity, 1, 0, .finish⟩,
      ⟨⟨⟨6, by decide⟩, 3⟩, defaultVelocity, 1, 1, .start⟩], [1], 0, .finish⟩,
    ⟨"bass", [⟨⟨⟨2, by decide⟩, -2⟩, defaultVelocity, 2, -1, .finish⟩], [], 0, .finish⟩]

theorem transposed_canon :
    ∃ s t : Score Float, canon.link 0 1 = .ok s ∧ s.up? (-17) = some t ∧ t.phrases = canonDown ∧
      (∃ entries entries', s.layOut .allow 0 0 0 = .ok entries ∧
        t.layOut .allow 0 0 0 = .ok entries' ∧
        List.Forall₂ (Entry.Raised (-17)) entries entries') ∧
      t.down? (-17) = some s := by
  obtain ⟨s, made, phrases⟩ := link_of_leaf (s := canon) (a := 0) (b := 1) rfl rfl nofun
  have moved : (s.up? (-17)).map Score.phrases = some canonDown := by
    refine (phrases_of_map_notes (·.up? (-17)) s).trans ?_
    rw [phrases]
    rfl
  obtain ⟨t, raised, same⟩ := Option.map_eq_some_iff.1 moved
  have keyed : s.KeyedFrom 0 := by
    refine keyed_from_of_keyed ?_ 0
    rw [phrases]
    unfold Phrase.Keyed
    decide
  have keyed' : t.KeyedFrom 0 := by
    refine keyed_from_of_keyed ?_ 0
    rw [same]
    unfold Phrase.Keyed
    decide
  obtain ⟨entries, done⟩ := (settled_lay_out keyed .allow 0 0).ok_iff.2 rfl
  obtain ⟨entries', done'⟩ := (settled_lay_out keyed' .allow 0 0).ok_iff.2 rfl
  obtain ⟨layouts, back⟩ := transposing_moves_keys_only raised
  refine ⟨s, t, made, raised, same, ?_, ?_⟩
  · obtain ⟨e, failed, _⟩ | plain :=
      layouts .allow 0 0 0 (by rw [done]; nofun) (by rw [done']; nofun)
    · cases done.symm.trans failed
    · exact plain
  · exact back.resolve_right fun lost => absurd lost.2 (by decide)

end Score

end Layouts

end Cadenza
