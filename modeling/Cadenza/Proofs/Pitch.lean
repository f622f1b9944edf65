import Cadenza.Chord

/-!
# Counting in semitones

A pitch is told by its semitones, and moving it adds to them. Whatever the words between allow, a
class that is carried into the octave where it belongs leaves their number as it is. So a pitch that
was moved and is moved back is the same one again, and where a word overflows there is no pitch at
all.
-/

namespace Cadenza

set_option autoImplicit false

namespace Pitch

variable {p q : Pitch} {n : Int32}

theorem semitones_injective (same : p.semitones = q.semitones) : p = q := by
  obtain ⟨c, octave⟩ := p
  obtain ⟨c', octave'⟩ := q
  simp only [semitones] at same
  have classes : c = c' := Fin.ext (by omega)
  have octaves : octave = octave' := Int32.toInt_inj.1 (by omega)
  rw [classes, octaves]

/-- A class of any size goes where its semitones are. -/
theorem of_class_eq_some_iff {c octave : Int32} :
    ofClass? c octave = some p ↔ p.semitones = 12 * octave.toInt + c.toInt := by
  rw [ofClass?, Option.map_eq_some_iff]
  constructor
  · rintro ⟨carried, fits, rfl⟩
    have exact := word?_eq_some_iff.1 fits
    simp only [semitones, Fin.ofNat]
    omega
  · intro same
    have octaves : p.octave.toInt = octave.toInt + c.toInt / 12 := by
      simp only [semitones] at same
      omega
    refine ⟨p.octave, word?_eq_some_iff.2 octaves, ?_⟩
    apply semitones_injective
    simp only [semitones, Fin.ofNat] at same ⊢
    omega

/-- A pitch goes up by the semitones asked for, unless adding them to its class overflows or no
pitch is so high or so low. -/
theorem up_eq_some_iff : p.up? n = some q ↔
    p.pitchClass.val + n.toInt ≤ Int32.maxValue.toInt ∧
      q.semitones = p.semitones + n.toInt := by
  have least := n.le_toInt
  simp only [up?, Option.bind_eq_bind, Option.bind_eq_some_iff, of_class_eq_some_iff,
    word?_eq_some_iff]
  constructor
  · rintro ⟨raised, exact, same⟩
    have greatest := raised.toInt_lt
    rw [Int32.toInt_maxValue]
    simp only [semitones] at same ⊢
    omega
  · rintro ⟨fits, same⟩
    rw [Int32.toInt_maxValue] at fits
    obtain ⟨raised, exact⟩ : ∃ raised : Int32, raised.toInt = p.pitchClass.val + n.toInt :=
      ⟨_, Int32.toInt_ofInt_of_le (by omega) (by omega)⟩
    refine ⟨raised, exact, ?_⟩
    simp only [semitones] at same ⊢
    omega

/-- Down is up the other way. The least word has no opposite, and a class overflows with it. -/
theorem down_eq_some_iff : p.down? n = some q ↔
    p.pitchClass.val - n.toInt ≤ Int32.maxValue.toInt ∧
      q.semitones = p.semitones - n.toInt := by
  have greatest := n.toInt_lt
  simp only [down?, Option.bind_eq_bind, Option.bind_eq_some_iff, up_eq_some_iff,
    word?_eq_some_iff]
  constructor
  · rintro ⟨opposite, exact, fits, same⟩
    omega
  · rintro ⟨fits, same⟩
    rw [Int32.toInt_maxValue] at fits ⊢
    obtain ⟨opposite, exact⟩ : ∃ opposite : Int32, opposite.toInt = -n.toInt :=
      ⟨_, Int32.toInt_ofInt_of_le (by omega) (by omega)⟩
    exact ⟨opposite, exact, by omega, by omega⟩

/-- What was raised comes back down, unless the class overflows on the way. -/
theorem down_of_up (raised : p.up? n = some q) :
    q.down? n = some p ↔ q.pitchClass.val - n.toInt ≤ Int32.maxValue.toInt := by
  obtain ⟨_, same⟩ := up_eq_some_iff.1 raised
  rw [down_eq_some_iff]
  exact and_iff_left (by omega)

/-- The MIDI number counts the semitones from the C of octave -1, unless that of the octave's own C or
of the pitch overflows. -/
theorem key_eq_some_iff {key : Int32} : p.key? = some key ↔
    Int32.minValue.toInt ≤ 12 * (p.octave.toInt + 1) ∧ key.toInt = p.semitones + 12 := by
  have greatest := key.toInt_lt
  simp only [key?, Option.bind_eq_bind, Option.bind_eq_some_iff, word?_eq_some_iff, semitones]
  constructor
  · rintro ⟨above, first, base, second, last⟩
    have least := base.le_toInt
    rw [Int32.toInt_minValue]
    omega
  · rintro ⟨low, same⟩
    rw [Int32.toInt_minValue] at low
    obtain ⟨above, first⟩ : ∃ above : Int32, above.toInt = p.octave.toInt + 1 :=
      ⟨_, Int32.toInt_ofInt_of_le (by omega) (by omega)⟩
    obtain ⟨base, second⟩ : ∃ base : Int32, base.toInt = above.toInt * 12 :=
      ⟨_, Int32.toInt_ofInt_of_le (by omega) (by omega)⟩
    exact ⟨above, first, base, second, by omega⟩

theorem key_to_int {key : Int32} (keyed : p.key? = some key) : key.toInt = p.semitones + 12 :=
  (key_eq_some_iff.1 keyed).2

theorem key_ne_none_iff : p.key? ≠ none ↔
    Int32.minValue.toInt ≤ 12 * (p.octave.toInt + 1) ∧
      p.semitones + 12 ≤ Int32.maxValue.toInt := by
  rw [Option.ne_none_iff_exists']
  constructor
  · rintro ⟨key, keyed⟩
    obtain ⟨low, same⟩ := key_eq_some_iff.1 keyed
    have greatest := key.toInt_lt
    rw [Int32.toInt_maxValue]
    exact ⟨low, by omega⟩
  · rintro ⟨low, fits⟩
    obtain ⟨key, same⟩ : ∃ key : Int32, key.toInt = p.semitones + 12 := by
      rw [Int32.toInt_minValue] at low
      rw [Int32.toInt_maxValue] at fits
      simp only [semitones] at fits ⊢
      exact ⟨_, Int32.toInt_ofInt_of_le (by omega) (by omega)⟩
    exact ⟨key, key_eq_some_iff.2 ⟨low, same⟩⟩

/-- There is nothing above a pitch if its class overflows, or else the octave that the semitones
belong to. -/
theorem up_eq_none_iff : p.up? n = none ↔
    Int32.maxValue.toInt < p.pitchClass.val + n.toInt ∨
      word? ((p.semitones + n.toInt) / 12) = none := by
  have least := n.le_toInt
  have greatest := Int32.toInt_maxValue
  cases raised : word? (p.pitchClass.val + n.toInt) with
  | none =>
      have outside := word?_eq_none_iff.1 raised
      have high : Int32.maxValue.toInt < p.pitchClass.val + n.toInt := by
        rw [Int32.toInt_minValue] at outside
        omega
      simp [up?, raised, high]
  | some r =>
      have exact := word?_eq_some_iff.1 raised
      have below := r.toInt_lt
      have low : ¬ Int32.maxValue.toInt < p.pitchClass.val + n.toInt := by omega
      have octave : p.octave.toInt + r.toInt / 12 = (p.semitones + n.toInt) / 12 := by
        simp only [semitones]
        omega
      simp [up?, raised, ofClass?, octave, low]

theorem down_eq_none_iff : p.down? n = none ↔ n = Int32.minValue ∨ p.up? (-n) = none := by
  by_cases least : n = Int32.minValue
  · subst least
    exact iff_of_true rfl (Or.inl rfl)
  · have bound := n.le_toInt
    have proper : n.toInt ≠ Int32.minValue.toInt := fun same => least (Int32.toInt_inj.1 same)
    have opposite : word? (-n.toInt) = some (-n) := by
      rw [Int32.toInt_minValue] at proper
      rw [word?_eq_some_iff, Int32.toInt_neg, Int.bmod_def]
      have greatest := n.toInt_lt
      omega
    simp [down?, opposite, least]

/-- The names tell the classes apart, so each of them is found. -/
theorem pitch_class_eq_some_iff {name : String} {c : PitchClass} :
    pitchClass? name = some c ↔ (name, c) ∈ pitchNames := by
  have found : ∀ e ∈ pitchNames, pitchClass? e.1 = some e.2 := by decide
  constructor
  · intro known
    obtain ⟨e, search, rfl⟩ := Option.map_eq_some_iff.1 known
    have hit := List.find?_some search
    exact beq_iff_eq.1 hit ▸ List.mem_of_find?_eq_some search
  · exact found (name, c)

theorem of_name_eq_ok_iff {name : String} {octave : Int32} :
    ofName name octave = .ok p ↔ (name, p.pitchClass) ∈ pitchNames ∧ p.octave = octave := by
  obtain ⟨c, o⟩ := p
  rw [ofName]
  cases known : pitchClass? name with
  | none =>
      have unknown : (name, c) ∉ pitchNames := fun listed => by
        rw [pitch_class_eq_some_iff.2 listed] at known
        cases known
      simp [unknown]
  | some found =>
      have only : (name, c) ∈ pitchNames ↔ found = c := by
        rw [← pitch_class_eq_some_iff, known, Option.some.injEq]
      simp [only, eq_comm]

/-- The ways to come by a pitch, each with the semitones that it should count. -/
inductive Obtained : Pitch → Int → Prop where
  | ofClass {c octave : Int32} {p : Pitch} (made : ofClass? c octave = some p) :
      Obtained p (12 * octave.toInt + c.toInt)
  | ofName {name : String} {c : PitchClass} {octave : Int32} {p : Pitch}
      (listed : (name, c) ∈ pitchNames) (made : ofName name octave = .ok p) :
      Obtained p (12 * octave.toInt + c.val)
  | withOctave (p : Pitch) (octave : Int32) :
      Obtained (p.withOctave octave) (12 * octave.toInt + p.pitchClass.val)
  | up {p q : Pitch} {n : Int32} (made : p.up? n = some q) : Obtained q (p.semitones + n.toInt)
  | down {p q : Pitch} {n : Int32} (made : p.down? n = some q) :
      Obtained q (p.semitones - n.toInt)

theorem Obtained.semitones_eq {k : Int} (obtained : Obtained p k) : p.semitones = k := by
  cases obtained with
  | ofClass made => exact of_class_eq_some_iff.1 made
  | ofName listed made =>
      obtain ⟨own, rfl⟩ := of_name_eq_ok_iff.1 made
      have same := (pitch_class_eq_some_iff.2 own).symm.trans (pitch_class_eq_some_iff.2 listed)
      rw [semitones, Option.some.inj same]
  | withOctave p octave => rfl
  | up made => exact (up_eq_some_iff.1 made).2
  | down made => exact (down_eq_some_iff.1 made).2

/-- A pitch splits its semitones into octaves and a class below twelve. -/
theorem parts_of_semitones {k : Int} (counted : p.semitones = k) :
    (p.pitchClass.val : Int) = k % 12 ∧ p.octave.toInt = k / 12 := by
  simp only [semitones] at counted
  omega

/-- There is a pitch wherever its octave is a word. -/
theorem exists_pitch_iff {k : Int} : (∃ p : Pitch, p.semitones = k) ↔
    Int32.minValue.toInt ≤ k / 12 ∧ k / 12 ≤ Int32.maxValue.toInt := by
  rw [Int32.toInt_minValue, Int32.toInt_maxValue]
  constructor
  · rintro ⟨p, counted⟩
    obtain ⟨_, octave⟩ := parts_of_semitones counted
    have least := p.octave.le_toInt
    have greatest := p.octave.toInt_lt
    omega
  · rintro ⟨low, fits⟩
    obtain ⟨octave, exact⟩ : ∃ octave : Int32, octave.toInt = k / 12 :=
      ⟨_, Int32.toInt_ofInt_of_le (by omega) (by omega)⟩
    refine ⟨⟨Fin.ofNat 12 (k % 12).toNat, octave⟩, ?_⟩
    simp only [semitones, Fin.ofNat]
    omega

/-- All arithmetic on pitches is integer arithmetic on semitones. However a pitch is obtained, its
class is the remainder of the semitones asked for and its octave is their quotient by twelve. Two
classes of any size in any octaves make the same pitch if and only if they count the same, and
pitches are the same if and only if their MIDI numbers are. These numbers go up and down with the
pitch, two moves are one move by their sum, and what was raised comes back down. No operation wraps
around: nothing is above a pitch if the class overflows a word or the octave it belongs to is no
word, and nothing is below it if the opposite of the move is no word or nothing is there that way
up. -/
theorem moves_count_semitones :
    (∀ p k, Obtained p k → (p.pitchClass.val : Int) = k % 12 ∧ p.octave.toInt = k / 12) ∧
    (∀ c octave c' octave' p p', ofClass? c octave = some p → ofClass? c' octave' = some p' →
      (p = p' ↔ 12 * octave.toInt + c.toInt = 12 * octave'.toInt + c'.toInt)) ∧
    (∀ (p q : Pitch) key key', p.key? = some key → q.key? = some key' → (p = q ↔ key = key')) ∧
    (∀ (p q : Pitch) n key key', p.key? = some key → q.key? = some key' →
      (p.up? n = some q → key'.toInt = key.toInt + n.toInt) ∧
      (p.down? n = some q → key'.toInt = key.toInt - n.toInt)) ∧
    (∀ (p q r r' : Pitch) m n sum, p.up? m = some q → q.up? n = some r →
      word? (m.toInt + n.toInt) = some sum → p.up? sum = some r' → r = r') ∧
    (∀ (p q r : Pitch) n, p.up? n = some q → q.down? n = some r → r = p) ∧
    (∀ (p : Pitch) n, p.up? n = none ↔ Int32.maxValue.toInt < p.pitchClass.val + n.toInt ∨
      ¬ (Int32.minValue.toInt ≤ (p.semitones + n.toInt) / 12 ∧
        (p.semitones + n.toInt) / 12 ≤ Int32.maxValue.toInt)) ∧
    ∀ (p : Pitch) n, p.down? n = none ↔ n = Int32.minValue ∨ p.up? (-n) = none := by
  refine ⟨?_, ?_, ?_, ?_, ?_, ?_, ?_, fun _ _ => down_eq_none_iff⟩
  · exact fun p k obtained => parts_of_semitones obtained.semitones_eq
  · intro c octave c' octave' p p' made made'
    rw [← of_class_eq_some_iff.1 made, ← of_class_eq_some_iff.1 made']
    exact ⟨congrArg semitones, semitones_injective⟩
  · intro p q key key' keyed keyed'
    rw [← Int32.toInt_inj, key_to_int keyed, key_to_int keyed', Int.add_left_inj]
    exact ⟨congrArg semitones, semitones_injective⟩
  · intro p q n key key' keyed keyed'
    have before := key_to_int keyed
    have after := key_to_int keyed'
    constructor
    · intro raised
      have moved := (up_eq_some_iff.1 raised).2
      omega
    · intro lowered
      have moved := (down_eq_some_iff.1 lowered).2
      omega
  · intro p q r r' m n sum first second whole once
    apply semitones_injective
    rw [(up_eq_some_iff.1 second).2, (up_eq_some_iff.1 first).2, (up_eq_some_iff.1 once).2,
      word?_eq_some_iff.1 whole, Int.add_assoc]
  · intro p q r n raised lowered
    apply semitones_injective
    rw [(down_eq_some_iff.1 lowered).2, (up_eq_some_iff.1 raised).2, Int.add_sub_cancel]
  · intro p n
    rw [up_eq_none_iff, word?_eq_none_iff]
    omega

/-- From a B to the C above it and to the D, and back. -/
theorem moves_from_b :
    let b : Pitch := ⟨11, 4⟩
    let c : Pitch := ⟨0, 5⟩
    let d : Pitch := ⟨2, 5⟩
    b.key? = some 71 ∧ c.key? = some 72 ∧ b.up? 1 = some c ∧ c.up? 2 = some d ∧
      (b = c ↔ (71 : Int32) = 72) ∧ (72 : Int32).toInt = (71 : Int32).toInt + (1 : Int32).toInt ∧
      (∀ r, b.up? 3 = some r → d = r) ∧ (∀ r, c.down? 1 = some r → r = b) ∧
      (∀ p, ofClass? (-1) 5 = some p → (p = b ↔ (12 * 5 + -1 : Int) = 12 * 4 + 11)) ∧
      (⟨11, Int32.maxValue⟩ : Pitch).up? 1 = none := by
  intro b c d
  obtain ⟨_, classes, keys, moves, sums, back, overflows, _⟩ := moves_count_semitones
  have first : b.key? = some 71 := by decide
  have second : c.key? = some 72 := by decide
  have raised : b.up? 1 = some c := by decide
  have further : c.up? 2 = some d := by decide
  refine ⟨first, second, raised, further, keys b c 71 72 first second,
    (moves b c 1 71 72 first second).1 raised, ?_, ?_, ?_, ?_⟩
  · exact fun r => sums b c d r 1 2 3 raised further rfl
  · exact fun r => back b c r 1 raised
  · exact fun p made => classes (-1) 5 11 4 p b made rfl
  · exact (overflows _ 1).2 (Or.inr (by decide))

end Pitch

end Cadenza
