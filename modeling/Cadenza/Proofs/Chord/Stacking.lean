import Cadenza.Proofs.Outcome
import Cadenza.Proofs.Pitch
import Cadenza.Proofs.Sorting.Filtering
import Mathlib.Data.List.Forall2

/-!
# Triads in order

A triad is stacked on its tonic from the lowest pitch to the highest, so sorting its pitches leaves
them as they are: all it can do is fail, where a MIDI number overflows. Only then are they brought
into one octave, and nothing sorts them again. From the sixth class on the fifth belongs to the next
octave, and ends up below the tonic.
-/

namespace Cadenza

set_option autoImplicit false

namespace Chord

open Pitch

variable {tonic third high : Pitch} {quality : Quality} {pitches sorted : List Pitch}

/-- The MIDI numbers of pitches are theirs one by one. -/
theorem numbers_of_keys {keys : List Int32} (made : pitches.mapM key? = some keys) :
    keys.map Int32.toInt = pitches.map (·.semitones + 12) :=
  map_of_mapM (fun _ _ => key_to_int) made

/-- MIDI numbers stand in the order of their pitches. -/
theorem keys_in_order_iff {keys : List Int32} (made : pitches.mapM key? = some keys)
    {R : Int → Int → Prop} (shift : ∀ a b, R (a + 12) (b + 12) ↔ R a b) :
    keys.Pairwise (fun low high => R low.toInt high.toInt) ↔
      pitches.Pairwise fun low high => R low.semitones high.semitones := by
  rw [← List.pairwise_map, numbers_of_keys made, List.pairwise_map]
  simp only [shift]

/-- Pitches and the MIDI numbers that they are sorted under. -/
theorem parts_of_keyed {keyed : List (Int32 × Pitch)}
    (made : (pitches.mapM fun p => p.key?.map fun key => (key, p)) = some keyed) :
    keyed.map (·.2) = pitches ∧ ∀ e ∈ keyed, e.2.key? = some e.1 := by
  constructor
  · rw [map_of_mapM (g := id) _ made, List.map_id]
    intro p e own
    obtain ⟨key, _, rfl⟩ := Option.map_eq_some_iff.1 own
    rfl
  · intro e member
    obtain ⟨p, _, own⟩ := source_of_mem_mapM made member
    obtain ⟨key, told, rfl⟩ := Option.map_eq_some_iff.1 own
    exact told

/-- Pitches that rise are sorted as they stand, unless a MIDI number overflows. -/
theorem sort_pitches_of_rising
    (rising : pitches.Pairwise fun lower higher => lower.semitones ≤ higher.semitones) :
    sortPitches? pitches = some sorted ↔ sorted = pitches ∧ ∀ p ∈ pitches, p.key? ≠ none := by
  have fails : ∀ p : Pitch, (p.key?.map fun key => (key, p)) ≠ none ↔ p.key? ≠ none :=
    fun p => not_congr Option.map_eq_none_iff
  have still : ∀ keyed : List (Int32 × Pitch),
      (pitches.mapM fun p => p.key?.map fun key => (key, p)) = some keyed →
      (sortStable (fun later earlier => decide (earlier.1 < later.1)) keyed).map (·.2) =
        pitches := by
    intro keyed made
    obtain ⟨same, own⟩ := parts_of_keyed made
    rw [sort_stable_of_in_order, same]
    rw [← same, List.pairwise_map] at rising
    refine rising.imp_of_mem fun {lower higher} first second le => ?_
    have low := key_to_int (own lower first)
    have up := key_to_int (own higher second)
    rw [decide_eq_false_iff_not, Int32.lt_iff_toInt_lt]
    omega
  simp only [← fails, ← exists_mapM_iff, sortPitches?, Option.bind_eq_bind,
    Option.bind_eq_some_iff, Option.some.injEq]
  constructor
  · rintro ⟨keyed, made, rfl⟩
    exact ⟨still keyed made, keyed, made⟩
  · rintro ⟨rfl, keyed, made⟩
    exact ⟨keyed, made, still keyed made⟩

/-- The third and the fifth of a triad, told by the semitones above its tonic. -/
structure Stacked (tonic : Pitch) (quality : Quality) (third high : Pitch) : Prop where
  third : third.semitones = tonic.semitones + if quality = .minor then 3 else 4
  fifth : high.semitones = tonic.semitones + 7

/-- The MIDI numbers of a triad on this tonic do not overflow, whatever its quality: neither that of
the C below the tonic, from which it is counted, nor that of the fifth. -/
def Keyed (tonic : Pitch) : Prop :=
  Int32.minValue.toInt ≤ 12 * (tonic.octave.toInt + 1) ∧
    tonic.semitones + 7 + 12 ≤ Int32.maxValue.toInt

instance (tonic : Pitch) : Decidable (Keyed tonic) :=
  inferInstanceAs (Decidable (_ ∧ _))

theorem third_to_int (quality : Quality) :
    quality.third.toInt = if quality = .minor then 3 else 4 := by
  cases quality <;> decide

/-- Every class leaves room for a triad in its word. -/
theorem stacked_iff :
    tonic.up? quality.third = some third ∧ tonic.up? fifth = some high ↔
      Stacked tonic quality third high := by
  have room := Int32.toInt_maxValue
  have few : (if quality = .minor then (3 : Int) else 4) ≤ 4 := by split <;> decide
  have seven : fifth.toInt = 7 := by decide
  rw [up_eq_some_iff, up_eq_some_iff, third_to_int, seven]
  constructor
  · rintro ⟨⟨_, first⟩, _, second⟩
    exact ⟨first, second⟩
  · rintro ⟨first, second⟩
    exact ⟨⟨by omega, first⟩, by omega, second⟩

namespace Stacked

variable (stacked : Stacked tonic quality third high)

include stacked

theorem bounds : tonic.semitones + 3 ≤ third.semitones ∧ third.semitones ≤ tonic.semitones + 4 := by
  have exact := stacked.third
  split at exact <;> omega

theorem rises :
    [tonic, third, high].Pairwise fun lower higher => lower.semitones < higher.semitones := by
  obtain ⟨low, up⟩ := stacked.bounds
  have top := stacked.fifth
  simp only [List.pairwise_cons, List.forall_mem_cons, List.not_mem_nil, false_implies,
    implies_true, List.Pairwise.nil, and_true]
  omega

theorem keyed_iff : (∀ p ∈ [tonic, third, high], p.key? ≠ none) ↔ Keyed tonic := by
  obtain ⟨low, up⟩ := stacked.bounds
  have top := stacked.fifth
  simp only [List.forall_mem_cons, List.not_mem_nil, false_implies, implies_true, and_true,
    key_ne_none_iff, Keyed]
  simp only [semitones] at *
  omega

/-- A pitch of a triad that is brought into the tonic's octave has a MIDI number too. -/
theorem keyed_in_octave (keyed : Keyed tonic) :
    ∀ p ∈ [tonic, third, high], (p.withOctave tonic.octave).key? ≠ none := by
  obtain ⟨low, up⟩ := stacked.bounds
  have top := stacked.fifth
  simp only [List.forall_mem_cons, List.not_mem_nil, false_implies, implies_true, and_true,
    key_ne_none_iff, withOctave]
  simp only [Keyed, semitones] at *
  omega

theorem numbers_rise {keys : List Int32} (made : [tonic, third, high].mapM key? = some keys) :
    keys.Pairwise (· < ·) ∧ ∃ key, tonic.key? = some key ∧
      keys.map Int32.toInt =
        [key.toInt, key.toInt + (if quality = .minor then 3 else 4), key.toInt + 7] := by
  obtain ⟨key, told⟩ := Option.ne_none_iff_exists'.1
    (exists_mapM_iff.1 ⟨keys, made⟩ tonic List.mem_cons_self)
  refine ⟨?_, key, told, ?_⟩
  · simp only [Int32.lt_iff_toInt_lt]
    exact (keys_in_order_iff made fun _ _ => Int.add_lt_add_iff_right 12).2 stacked.rises
  · have first := key_to_int told
    rw [numbers_of_keys made]
    simp only [List.map_cons, List.map_nil, stacked.third, stacked.fifth, first, List.cons.injEq,
      and_true, true_and]
    omega

/-- In one octave a triad rises as long as the fifth was in it before. -/
theorem numbers_rise_in_octave_iff {keys : List Int32}
    (made : ([tonic, third, high].map (·.withOctave tonic.octave)).mapM key? = some keys) :
    keys.Pairwise (· ≤ ·) ↔ tonic.pitchClass.val ≤ 4 := by
  obtain ⟨low, up⟩ := stacked.bounds
  have top := stacked.fifth
  simp only [Int32.le_iff_toInt_le]
  rw [keys_in_order_iff made fun _ _ => Int.add_le_add_iff_right 12]
  simp only [semitones] at low up top
  simp only [withOctave, semitones, List.map_cons, List.map_nil, List.pairwise_cons,
    List.forall_mem_cons, List.not_mem_nil, false_implies, implies_true, List.Pairwise.nil,
    and_true]
  omega

end Stacked

theorem exists_stacked_iff (quality : Quality) : (∃ third high, Stacked tonic quality third high) ↔
    tonic.octave ≠ Int32.maxValue ∨ tonic.pitchClass.val ≤ 4 := by
  have parts : (∃ third high, Stacked tonic quality third high) ↔
      (∃ third : Pitch, third.semitones = tonic.semitones + if quality = .minor then 3 else 4) ∧
        ∃ high : Pitch, high.semitones = tonic.semitones + 7 :=
    ⟨fun ⟨third, high, stacked⟩ => ⟨⟨third, stacked.third⟩, high, stacked.fifth⟩,
      fun ⟨⟨third, first⟩, high, second⟩ => ⟨third, high, first, second⟩⟩
  have least := tonic.octave.le_toInt
  have greatest := tonic.octave.toInt_lt
  rw [parts, exists_pitch_iff, exists_pitch_iff, Ne, ← Int32.toInt_inj, Int32.toInt_minValue,
    Int32.toInt_maxValue]
  simp only [semitones]
  split <;> omega

theorem Keyed.exists_stacked (keyed : Keyed tonic) (quality : Quality) :
    ∃ third high, Stacked tonic quality third high := by
  apply (exists_stacked_iff quality).2
  left
  intro top
  simp only [Keyed, semitones, top, Int32.toInt_maxValue] at keyed
  omega

/-- Sorting a triad gives the triad, or nothing. -/
theorem arranged_iff (stacked : Stacked tonic quality third high) {sorts : Bool} :
    (if sorts then sortPitches? [tonic, third, high] else some [tonic, third, high]) =
      some pitches ↔ pitches = [tonic, third, high] ∧ (sorts = true → Keyed tonic) := by
  cases sorts with
  | false => simp [eq_comm]
  | true =>
      rw [if_pos rfl, sort_pitches_of_rising (stacked.rises.imp Int.le_of_lt), stacked.keyed_iff]
      simp

/-- What a triad is built of, and when it overflows. -/
theorem build_eq_some_iff {sorts normalized : Bool} {chord : Chord} :
    build? tonic quality ⟨sorts, normalized⟩ = some chord ↔
      ∃ third high, Stacked tonic quality third high ∧ (sorts = true → Keyed tonic) ∧
        chord = ⟨tonic, quality, if normalized then
          [tonic, third, high].map (·.withOctave tonic.octave) else [tonic, third, high]⟩ := by
  have parts : build? tonic quality ⟨sorts, normalized⟩ =
      (tonic.up? quality.third).bind fun third => (tonic.up? fifth).bind fun high =>
        (if sorts then sortPitches? [tonic, third, high] else some [tonic, third, high]).bind
          fun pitches => some ⟨tonic, quality, if normalized then
            pitches.map (·.withOctave tonic.octave) else pitches⟩ := by
    cases sorts <;> rfl
  simp only [parts, Option.bind_eq_some_iff, Option.some.injEq]
  constructor
  · rintro ⟨third, first, high, second, pitches, sorted, rfl⟩
    have stacked := stacked_iff.1 ⟨first, second⟩
    obtain ⟨rfl, keyed⟩ := (arranged_iff stacked).1 sorted
    exact ⟨third, high, stacked, keyed, rfl⟩
  · rintro ⟨third, high, stacked, keyed, rfl⟩
    obtain ⟨first, second⟩ := stacked_iff.2 stacked
    exact ⟨third, first, high, second, _, (arranged_iff stacked).2 ⟨rfl, keyed⟩, rfl⟩

/-- No word overflows where a triad is built on this tonic: its MIDI numbers are words if it is
sorted, and if not, the octave of its fifth is one. -/
def Fits (tonic : Pitch) (options : ChordOptions) : Prop :=
  if options.sorted then Keyed tonic
  else tonic.octave ≠ Int32.maxValue ∨ tonic.pitchClass.val ≤ 4

instance (tonic : Pitch) (options : ChordOptions) : Decidable (Fits tonic options) :=
  inferInstanceAs (Decidable (if options.sorted then Keyed tonic
    else tonic.octave ≠ Int32.maxValue ∨ tonic.pitchClass.val ≤ 4))

theorem exists_build_iff {options : ChordOptions} :
    (∃ chord, build? tonic quality options = some chord) ↔ Fits tonic options := by
  obtain ⟨sorts, normalized⟩ := options
  have built : (∃ chord, build? tonic quality ⟨sorts, normalized⟩ = some chord) ↔
      (∃ third high, Stacked tonic quality third high) ∧ (sorts = true → Keyed tonic) := by
    constructor
    · rintro ⟨chord, made⟩
      obtain ⟨third, high, stacked, keyed, _⟩ := build_eq_some_iff.1 made
      exact ⟨⟨third, high, stacked⟩, keyed⟩
    · rintro ⟨⟨third, high, stacked⟩, keyed⟩
      exact ⟨_, build_eq_some_iff.2 ⟨third, high, stacked, keyed, rfl⟩⟩
  rw [built]
  cases sorts with
  | false =>
      rw [exists_stacked_iff]
      exact and_iff_left nofun
  | true =>
      constructor
      · exact fun both => both.2 rfl
      · exact fun keyed => ⟨keyed.exists_stacked quality, fun _ => keyed⟩

theorem build_eq_none_iff {options : ChordOptions} :
    build? tonic quality options = none ↔ ¬ Fits tonic options := by
  have built : (∃ chord, build? tonic quality options = some chord) ↔ Fits tonic options :=
    exists_build_iff
  rw [← built, ← Option.ne_none_iff_exists', not_not]

/-- Sorting is of no use for a triad, and does no harm where no MIDI number overflows. -/
theorem sorted_eq_unsorted (keyed : Keyed tonic) (quality : Quality) (normalized : Bool) :
    build? tonic quality ⟨true, normalized⟩ = build? tonic quality ⟨false, normalized⟩ := by
  obtain ⟨third, high, stacked⟩ := keyed.exists_stacked quality
  have plain : build? tonic quality ⟨false, normalized⟩ = some _ :=
    build_eq_some_iff.2 ⟨third, high, stacked, nofun, rfl⟩
  rw [plain]
  exact build_eq_some_iff.2 ⟨third, high, stacked, fun _ => keyed, rfl⟩

/-- Sorting has no effect on a triad. Whatever its tonic, a sorted triad is built if and only if no
MIDI number overflows, and an unsorted one if and only if no octave does; where both are built they
are the same. The pitches are the tonic, its third and its fifth in this order, as sorting them
leaves them. Without normalization their MIDI numbers rise by the steps of the triad. With it each
pitch keeps its class and goes into the octave of the tonic, and the MIDI numbers are in order if
and only if the class of the tonic is at most 4. -/
theorem triads_come_sorted (tonic : Pitch) (quality : Quality) (normalized : Bool) :
    ((∃ chord, build? tonic quality ⟨false, normalized⟩ = some chord) ↔
      tonic.octave ≠ Int32.maxValue ∨ tonic.pitchClass.val ≤ 4) ∧
    ((∃ chord, build? tonic quality ⟨true, normalized⟩ = some chord) ↔ Keyed tonic) ∧
    (Keyed tonic →
      build? tonic quality ⟨true, normalized⟩ = build? tonic quality ⟨false, normalized⟩) ∧
    ∀ sorts chord, build? tonic quality ⟨sorts, normalized⟩ = some chord →
      chord.tonic = tonic ∧ chord.quality = quality ∧
      ∃ third high, Stacked tonic quality third high ∧
        (Keyed tonic → sortPitches? [tonic, third, high] = some [tonic, third, high]) ∧
        (normalized = false → chord.pitches = [tonic, third, high]) ∧
        (normalized = true → List.Forall₂
          (fun p folded => folded.pitchClass = p.pitchClass ∧ folded.octave = tonic.octave)
          [tonic, third, high] chord.pitches) ∧
        (Keyed tonic → ∃ keys, chord.pitches.mapM key? = some keys) ∧
        ∀ keys, chord.pitches.mapM key? = some keys →
          (normalized = false → keys.Pairwise (· < ·) ∧ ∃ key, tonic.key? = some key ∧
            keys.map Int32.toInt =
              [key.toInt, key.toInt + (if quality = .minor then 3 else 4), key.toInt + 7]) ∧
          (normalized = true → (keys.Pairwise (· ≤ ·) ↔ tonic.pitchClass.val ≤ 4)) := by
  refine ⟨exists_build_iff, exists_build_iff,
    fun keyed => sorted_eq_unsorted keyed quality normalized, ?_⟩
  · intro sorts chord built
    obtain ⟨third, high, stacked, _, rfl⟩ := build_eq_some_iff.1 built
    have rising := stacked.rises.imp Int.le_of_lt
    refine ⟨rfl, rfl, third, high, stacked, ?_, ?_, ?_, ?_, ?_⟩
    · intro keyed
      exact (sort_pitches_of_rising rising).2 ⟨rfl, stacked.keyed_iff.2 keyed⟩
    · rintro rfl
      rfl
    · rintro rfl
      simp [withOctave]
    · intro keyed
      cases normalized with
      | false => exact exists_mapM_iff.2 (stacked.keyed_iff.2 keyed)
      | true => exact exists_mapM_iff.2 (List.forall_mem_map.2 (stacked.keyed_in_octave keyed))
    · intro keys made
      constructor
      · rintro rfl
        exact stacked.numbers_rise made
      · rintro rfl
        exact stacked.numbers_rise_in_octave_iff made

example : build? ⟨7, 3⟩ .major .default =
    some ⟨⟨7, 3⟩, .major, [⟨7, 3⟩, ⟨11, 3⟩, ⟨2, 3⟩]⟩ := by decide

end Chord

end Cadenza
