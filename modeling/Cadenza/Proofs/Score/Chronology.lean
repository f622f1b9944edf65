import Cadenza.Proofs.Phrase.Rising
import Cadenza.Proofs.Score.Refusing
import Cadenza.Proofs.Score.Ways
import Cadenza.Proofs.Timeline.Forward

/-!
# Scores that run forward

Where negative delays are clamped or refused, each phrase begins at or after the end or the start of
the one it follows, whichever it is measured from. As none of them ends before it starts, time runs
forward down every way, and there is nothing before the beginning.
-/

namespace Cadenza.Score

set_option autoImplicit false

/-- No note of a phrase, or of what follows it, lasts a negative time. -/
def LastingFrom (s : Score Rat) (i : Nat) : Prop :=
  ∀ j p, Reaches s.phrases i j → s.phrase? j = some p → ∀ n ∈ p.notes, 0 ≤ n.duration

variable {s : Score Rat} {i : Nat}

theorem LastingFrom.of_reaches {j : Nat} (lasting : s.LastingFrom i)
    (path : Reaches s.phrases i j) : s.LastingFrom j :=
  fun k p further found => lasting k p (path.trans further) found

theorem LastingFrom.of_link {number j : Nat} {p : Phrase Rat} (lasting : s.LastingFrom i)
    (found : s.phrase? i = some p) (linked : p.next[number]? = some j) : s.LastingFrom j := by
  have link : j ∈ followers s.phrases i := by
    rw [followers_of_some found]
    exact List.mem_of_getElem? linked
  exact lasting.of_reaches (Reaches.step link (Reaches.refl j))

section Checked

variable {policy : DelayPolicy} (checked : policy ≠ .allow) {lastStart lastEnd : Rat}
  (order : lastStart ≤ lastEnd) {way : List Nat}

include checked order in
/-- The phrase at the end of a way does not start before what the way begins after. -/
theorem rising_along {placed : Placed Rat} (lasting : s.LastingFrom i)
    (reached : s.placedAlong policy i lastStart lastEnd way = some placed) :
    ∃ k p, s.phraseAlong i way = some k ∧ s.phrase? k = some p ∧ lastStart ≤ placed.start ∧
      placed.start ≤ placed.finish ∧ Rising placed.start p.notes placed.entry.events := by
  induction way generalizing i lastStart lastEnd with
  | nil =>
      obtain ⟨p, found, made⟩ := placed_along_nil_some reached
      obtain ⟨follows, lasts, rising⟩ :=
        rising_place checked made (lasting i p (Reaches.refl i) found)
      refine ⟨i, p, phrase_along_nil found, found, ?_, lasts, rising⟩
      split at follows
      · exact follows
      · exact order.trans follows
  | cons number way ih =>
      obtain ⟨p, first, j, found, made, linked, later⟩ := placed_along_cons_some reached
      obtain ⟨follows, lasts, _⟩ :=
        rising_place checked made (lasting i p (Reaches.refl i) found)
      obtain ⟨k, q, ended, present, after, others⟩ := ih lasts (lasting.of_link found linked) later
      refine ⟨k, q, ?_, present, ?_, others⟩
      · rwa [phrase_along_cons found linked]
      · split at follows
        · exact follows.trans after
        · exact (order.trans follows).trans after

include checked in
/-- A follower starts at or after what it is measured from, the end or the start of the phrase. -/
theorem follower_after {number k j : Nat} {p q : Phrase Rat} {placed child : Placed Rat}
    (lasting : s.LastingFrom i) (ended : s.phraseAlong i way = some k)
    (found : s.phrase? k = some p)
    (along : s.placedAlong policy i lastStart lastEnd way = some placed)
    (linked : p.next[number]? = some j) (present : s.phrase? j = some q)
    (reached : s.placedAlong policy i lastStart lastEnd (way ++ [number]) = some child) :
    (q.anchor = .finish → placed.finish ≤ child.start) ∧
      (q.anchor = .start → placed.start ≤ child.start) := by
  obtain ⟨k', p', j', placed', ended', found', linked', along', later⟩ :=
    placed_along_append reached
  obtain rfl := Option.some.inj (ended.symm.trans ended')
  obtain rfl := Option.some.inj (found.symm.trans found')
  obtain rfl := Option.some.inj (linked.symm.trans linked')
  obtain rfl := Option.some.inj (along.symm.trans along')
  obtain ⟨q', present', made⟩ := placed_along_nil_some later
  obtain rfl := Option.some.inj (present.symm.trans present')
  have below := (lasting.of_reaches (reaches_of_along ended)).of_link found linked
  obtain ⟨follows, _⟩ := rising_place checked made (below j q (Reaches.refl j) present)
  constructor <;> intro anchored <;> simpa [anchored, Anchor.isStart] using follows

include checked order in
/-- Going on down a way leads to phrases that start no earlier. -/
theorem start_le_along {more : List Nat} {first last : Placed Rat} (lasting : s.LastingFrom i)
    (here : s.placedAlong policy i lastStart lastEnd way = some first)
    (beyond : s.placedAlong policy i lastStart lastEnd (way ++ more) = some last) :
    first.start ≤ last.start := by
  cases more with
  | nil =>
      rw [List.append_nil, here] at beyond
      rw [Option.some.inj beyond]
  | cons number more =>
      obtain ⟨k, p, j, placed, ended, found, linked, along, later⟩ := placed_along_append beyond
      obtain rfl := Option.some.inj (here.symm.trans along)
      obtain ⟨_, _, _, _, _, lasts, _⟩ := rising_along checked order lasting here
      have below := (lasting.of_reaches (reaches_of_along ended)).of_link found linked
      obtain ⟨_, _, _, _, after, _⟩ := rising_along checked lasts below later
      exact after

end Checked

/-- Clamped or refused, delays keep time running forward, counted over the rationals and for notes
that do not last negative times. Every phrase lasts from its start to its end, and down the ways
from the first one at zero no start is earlier than the ones before; a follower comes at or after
the end or the start it is measured from. The notes of a phrase begin in turn, none before the
phrase, and end at or after they begin. So no event is before zero, and in the timelines of such
events no span is negative: counting ticks or nanoseconds, a count is only ever cut off at its upper
end. Clamped, the layout does not fail if the keys fit. -/
theorem phrases_run_forward (s : Score Rat) {i : Nat} {policy : DelayPolicy}
    (checked : policy ≠ .allow) (lasting : s.LastingFrom i) :
    (policy = .clamp → s.KeyedFrom i → ∃ entries, s.layOut policy i 0 0 = .ok entries) ∧
      ∀ entries, s.layOut policy i 0 0 = .ok entries →
        entries.map some = (s.ways i).map (s.entryAlong policy i 0 0) ∧
        (∀ way ∈ s.ways i, ∃ k p placed, s.phraseAlong i way = some k ∧ s.phrase? k = some p ∧
          s.placedAlong policy i 0 0 way = some placed ∧
          0 ≤ placed.start ∧ placed.start ≤ placed.finish ∧
          Rising placed.start p.notes placed.entry.events ∧
          ∀ number j q, p.next[number]? = some j → s.phrase? j = some q →
            ∃ child, s.placedAlong policy i 0 0 (way ++ [number]) = some child ∧
              (q.anchor = .finish → placed.finish ≤ child.start) ∧
              (q.anchor = .start → placed.start ≤ child.start)) ∧
        (∀ way more first last, s.placedAlong policy i 0 0 way = some first →
          s.placedAlong policy i 0 0 (way ++ more) = some last → first.start ≤ last.start) ∧
        (∀ entry ∈ entries, ∀ e ∈ entry.events, 0 ≤ e.time) ∧
        ∀ tempo : Tempo Rat, 0 < tempo.bpm → ∀ ticksPerBeat events,
          (∀ e ∈ events, ∃ entry ∈ entries, ∃ x ∈ entry.events, e.time = x.time) →
          ∃ timeline, normalize? tempo events = some timeline ∧ ∀ e ∈ timeline, 0 ≤ e.time ∧
            (0 ≤ e.time * tempo.ticksPerSecond ticksPerBeat ∧
              (tempo.ticksOfSeconds ticksPerBeat e.time).toNat =
                min (nearest .toEven (e.time * tempo.ticksPerSecond ticksPerBeat)) maxCount) ∧
            (ClockTime.ofSeconds e.time).nanos.toNat =
              min (nearest .awayFromZero (e.time * ClockTime.nanosPerSecond)) maxCount := by
  constructor
  · rintro rfl keyed
    exact (settled_lay_out keyed .clamp 0 0).ok_iff.2 rfl
  intro entries done
  have along := meaning_along s policy i (lay_out_eq_meaning s policy i 0 0 ▸ done)
  have begun : ∀ entry ∈ entries, ∀ e ∈ entry.events, 0 ≤ e.time := by
    intro entry member e inside
    obtain ⟨way, placed, reached, rfl⟩ := placed_of_mem_entries along member
    obtain ⟨_, _, _, _, after, _, rising⟩ := rising_along checked (le_refl 0) lasting reached
    exact after.trans (rising.le_time e inside)
  refine ⟨along, ?_, ?_, begun, ?_⟩
  · intro way member
    obtain ⟨placed, reached⟩ := placed_of_mem_ways along member
    obtain ⟨k, p, ended, found, after, lasts, rising⟩ :=
      rising_along checked (le_refl 0) lasting reached
    refine ⟨k, p, placed, ended, found, reached, after, lasts, rising, ?_⟩
    intro number j q linked present
    have further : way ++ [number] ∈ s.ways i := by
      apply (mem_ways_iff s i _).2
      rw [phrase_along_append ended found linked]
      exact ⟨j, phrase_along_nil present⟩
    obtain ⟨child, beyond⟩ := placed_of_mem_ways along further
    exact ⟨child, beyond,
      follower_after checked lasting ended found reached linked present beyond⟩
  · intro way more first last here beyond
    exact start_le_along checked (le_refl 0) lasting here beyond
  · intro tempo runs ticksPerBeat events given
    have late : ∀ e ∈ events, 0 ≤ e.time := by
      intro e member
      obtain ⟨entry, entryIn, x, inside, same⟩ := given e member
      rw [same]
      exact begun entry entryIn x inside
    obtain ⟨timeline, made, nonneg⟩ := normalize_nonneg runs late
    refine ⟨timeline, made, ?_⟩
    intro e member
    have span := nonneg e member
    exact ⟨span, ticks_of_nonneg runs ticksPerBeat span, nanos_of_nonneg span⟩

def hastyBass : Score Rat :=
  let lead : List (Note Rat) := [⟨⟨Fin.last 11, 4⟩, defaultVelocity, 1, -1, .finish⟩,
    ⟨⟨Fin.last 11, 4⟩, defaultVelocity, 1, -1 / 2, .start⟩]
  let bass : List (Note Rat) := [⟨⟨Fin.last 11, 2⟩, defaultVelocity, 2, 0, .finish⟩]
  (((empty.add "lead" lead).1.add "bass" bass).1.setDelay 1 (-2)).setAnchor 1 .start

theorem hasty_bass_runs_forward :
    ∃ s : Score Rat, hastyBass.link 0 1 = .ok s ∧ s.LastingFrom 0 ∧ s.KeyedFrom 0 ∧
      ∃ entries, s.layOut .clamp 0 0 0 = .ok entries ∧
        (∀ entry ∈ entries, ∀ e ∈ entry.events, 0 ≤ e.time) ∧
        (∃ lead bass, s.placedAlong .clamp 0 0 0 [] = some lead ∧
          s.placedAlong .clamp 0 0 0 [0] = some bass ∧ lead.start ≤ bass.start) ∧
        ∃ timeline, normalize? Tempo.default (entries.flatMap (·.events)) = some timeline ∧
          ∀ e ∈ timeline, 0 ≤ e.time := by
  obtain ⟨s, made, phrases⟩ := link_of_leaf (s := hastyBass) (a := 0) (b := 1) rfl rfl nofun
  have listed : ∀ p ∈ s.phrases, ∀ n ∈ p.notes, 0 ≤ n.duration ∧ n.key? ≠ none := by
    rw [phrases]
    decide
  have lasting : s.LastingFrom 0 :=
    fun j p _ found n member => (listed p (List.mem_of_getElem? found) n member).1
  have keyed : s.KeyedFrom 0 :=
    fun j p _ found n member => (listed p (List.mem_of_getElem? found) n member).2
  have checked : DelayPolicy.clamp ≠ .allow := by decide
  obtain ⟨clamped, forward⟩ := s.phrases_run_forward checked lasting
  obtain ⟨entries, done⟩ := clamped rfl keyed
  obtain ⟨_, placed, starts, begun, spans⟩ := forward entries done
  have first : s.phraseAlong 0 [] = some 0 := by
    rw [phraseAlong, phrase?, phrases]
    rfl
  have second : s.phraseAlong 0 [0] = some 1 := by
    simp only [phraseAlong, followers, phrase?, phrases]
    rfl
  obtain ⟨_, _, lead, _, _, leads, _⟩ := placed [] ((mem_ways_iff s 0 []).2 ⟨0, first⟩)
  obtain ⟨_, _, bass, _, _, follows, _⟩ := placed [0] ((mem_ways_iff s 0 [0]).2 ⟨1, second⟩)
  have later := starts [] [0] lead bass leads follows
  have own : ∀ e ∈ entries.flatMap (·.events), ∃ entry ∈ entries, ∃ x ∈ entry.events,
      e.time = x.time := by
    intro e member
    obtain ⟨entry, entryIn, inside⟩ := List.mem_flatMap.1 member
    exact ⟨entry, entryIn, e, inside, rfl⟩
  obtain ⟨timeline, normal, counted⟩ :=
    spans Tempo.default (by decide) defaultTicksPerBeat _ own
  exact ⟨s, made, lasting, keyed, entries, done, begun, ⟨lead, bass, leads, follows, later⟩,
    timeline, normal, fun e member => (counted e member).1⟩

end Cadenza.Score
