import Cadenza.Proofs.Chord.Stacking

/-!
# Reading chords

The texts of chords have a grammar of their own: the name of a pitch, and `m` behind it for a minor
chord. A text is cut after its head, which is its first character with the accidentals behind it. No
letter is lost that way, as no name goes on with anything else, and what is read is what the grammar
says.
-/

namespace Cadenza

set_option autoImplicit false

def Quality.suffix : Quality → String
  | .major => ""
  | .minor => "m"

namespace Chord

/-- A text that is the name of a pitch with the suffix of a quality. -/
structure Spells (spec name : String) (quality : Quality) : Prop where
  listed : name ∈ pitchNames.map (·.1)
  spelled : spec = name ++ quality.suffix

variable {spec name : String} {quality : Quality}

theorem quality_eq_some_iff {text : String} :
    quality? text = some quality ↔ text = quality.suffix := by
  unfold quality?
  split
  · cases quality <;> decide
  · cases quality <;> decide
  · rename_i major minor
    refine iff_of_false nofun ?_
    cases quality with
    | major => exact major
    | minor => exact minor

/-- Every name is its own head, and a suffix is the tail behind it. -/
theorem parts_of_spelled (spells : Spells spec name quality) :
    head spec = name ∧ tail spec = quality.suffix := by
  obtain ⟨listed, rfl⟩ := spells
  obtain ⟨e, known, rfl⟩ := List.mem_map.1 listed
  have major : ∀ e ∈ pitchNames, head (e.1 ++ "") = e.1 ∧ tail (e.1 ++ "") = "" := by decide
  have minor : ∀ e ∈ pitchNames, head (e.1 ++ "m") = e.1 ∧ tail (e.1 ++ "m") = "m" := by decide
  cases quality with
  | major => exact major e known
  | minor => exact minor e known

theorem spelled_of_parts (listed : head spec ∈ pitchNames.map (·.1))
    (suffix : tail spec = quality.suffix) : Spells spec (head spec) quality :=
  ⟨listed, by rw [← suffix, head_append_tail]⟩

theorem of_name_of_listed (listed : name ∈ pitchNames.map (·.1)) (octave : Int32) :
    ∃ tonic, Pitch.ofName name octave = .ok tonic := by
  obtain ⟨⟨_, c⟩, known, rfl⟩ := List.mem_map.1 listed
  exact ⟨⟨c, octave⟩, Pitch.of_name_eq_ok_iff.2 ⟨known, rfl⟩⟩

theorem of_name_of_not_listed (unknown : name ∉ pitchNames.map (·.1)) (octave : Int32) :
    Pitch.ofName name octave = .error ⟨name⟩ := by
  unfold Pitch.ofName
  split
  · rename_i c known
    exact absurd (List.mem_map_of_mem (Pitch.pitch_class_eq_some_iff.1 known)) unknown
  · rfl

theorem split_name_eq (spec : String) : splitName spec = (head spec, tail spec) :=
  Option.get_of_eq_some _ (split_at_name_end spec)

variable {octave : Int32} {options : ChordOptions}

section Spelled

variable (spells : Spells spec name quality) {tonic : Pitch}
  (named : Pitch.ofName name octave = .ok tonic)

include spells named

theorem parse_of_spells : parse spec octave options =
    (build? tonic quality options).elim (.error .overflow) .ok := by
  obtain ⟨same, suffix⟩ := parts_of_spelled spells
  simp only [parse, split_name_eq, quality_eq_some_iff.2 suffix, same, named]
  cases build? tonic quality options <;> rfl

theorem parse_of_fits (fits : Fits tonic options) :
    ∃ chord, build? tonic quality options = some chord ∧ parse spec octave options = .ok chord := by
  obtain ⟨chord, built⟩ := exists_build_iff.2 fits
  refine ⟨chord, built, ?_⟩
  rw [parse_of_spells spells named, built]
  rfl

theorem parse_of_not_fits (overflows : ¬ Fits tonic options) :
    build? tonic quality options = none ∧ parse spec octave options = .error .overflow := by
  have none : build? tonic quality options = none := build_eq_none_iff.2 overflows
  refine ⟨none, ?_⟩
  rw [parse_of_spells spells named, none]
  rfl

end Spelled

theorem parse_of_unknown (unknown : head spec ∉ pitchNames.map (·.1)) (quality : Quality)
    (suffix : tail spec = quality.suffix) :
    parse spec octave options = .error (.unknownPitchName ⟨head spec⟩) := by
  simp only [parse, split_name_eq, quality_eq_some_iff.2 suffix, of_name_of_not_listed unknown]

theorem parse_of_unsupported (unsupported : ∀ quality : Quality, tail spec ≠ quality.suffix) :
    parse spec octave options = .error (.malformed ⟨spec, .unsupportedQuality (tail spec)⟩) := by
  have none : quality? (tail spec) = none := by
    rw [Option.eq_none_iff_forall_ne_some]
    exact fun quality known => unsupported quality (quality_eq_some_iff.1 known)
  simp only [parse, split_name_eq, none]

theorem refused_of_not_spells (other : ∀ name quality, ¬ Spells spec name quality) :
    (tail spec = "" ∨ tail spec = "m" →
      parse spec octave options = .error (.unknownPitchName ⟨head spec⟩)) ∧
    (tail spec ≠ "" → tail spec ≠ "m" →
      parse spec octave options = .error (.malformed ⟨spec, .unsupportedQuality (tail spec)⟩)) := by
  have unknown (quality : Quality) (suffix : tail spec = quality.suffix) :
      head spec ∉ pitchNames.map (·.1) := fun listed =>
    other _ quality (spelled_of_parts listed suffix)
  constructor
  · rintro (major | minor)
    · exact parse_of_unknown (unknown .major major) .major major
    · exact parse_of_unknown (unknown .minor minor) .minor minor
  · intro notMajor notMinor
    apply parse_of_unsupported
    rintro (_ | _)
    · exact notMajor
    · exact notMinor

theorem spells_of_accepted (accepted : (∃ chord, parse spec octave options = .ok chord) ∨
    parse spec octave options = .error .overflow) :
    ∃ name quality tonic, Spells spec name quality ∧ Pitch.ofName name octave = .ok tonic := by
  simp only [parse, split_name_eq] at accepted
  cases suffix : quality? (tail spec) with
  | none => simp [suffix] at accepted
  | some quality =>
      cases named : Pitch.ofName (head spec) octave with
      | error e => simp [suffix, named] at accepted
      | ok tonic =>
          obtain ⟨known, _⟩ := Pitch.of_name_eq_ok_iff.1 named
          have listed := List.mem_map_of_mem (f := (·.1)) known
          exact ⟨_, quality, tonic, spelled_of_parts listed (quality_eq_some_iff.1 suffix), named⟩

theorem accepted_iff : (∃ chord, parse spec octave options = .ok chord) ↔
    ∃ name quality tonic, Spells spec name quality ∧ Pitch.ofName name octave = .ok tonic ∧
      Fits tonic options := by
  constructor
  · intro accepted
    obtain ⟨name, quality, tonic, spells, named⟩ := spells_of_accepted (Or.inl accepted)
    refine ⟨name, quality, tonic, spells, named, ?_⟩
    by_contra overflows
    obtain ⟨chord, read⟩ := accepted
    rw [(parse_of_not_fits spells named overflows).2] at read
    cases read
  · rintro ⟨name, quality, tonic, spells, named, fits⟩
    obtain ⟨chord, _, read⟩ := parse_of_fits spells named fits
    exact ⟨chord, read⟩

theorem overflow_iff : parse spec octave options = .error .overflow ↔
    ∃ name quality tonic, Spells spec name quality ∧ Pitch.ofName name octave = .ok tonic ∧
      ¬ Fits tonic options := by
  constructor
  · intro overflow
    obtain ⟨name, quality, tonic, spells, named⟩ := spells_of_accepted (Or.inr overflow)
    refine ⟨name, quality, tonic, spells, named, fun fits => ?_⟩
    obtain ⟨chord, _, read⟩ := parse_of_fits spells named fits
    rw [overflow] at read
    cases read
  · rintro ⟨name, quality, tonic, spells, named, overflows⟩
    exact (parse_of_not_fits spells named overflows).2

/-- Whatever characters a text holds, it is cut after its first one and the accidentals that follow
it. A chord is read if the text is the name of a pitch, alone or with `m` behind it, and no word
overflows where a triad with these options is built on that pitch; it is the triad of that pitch and
quality. Reading overflows if the text is such a name and a word does. No other text is read. If
nothing or `m` stands behind its head, that head is told as unknown, and otherwise the whole text is
told as malformed, with what stands behind the head, even if the head is no name either. -/
theorem chords_read_by_grammar (spec : String) (octave : Int32) (options : ChordOptions) :
    Text.splitAt? spec (nameEnd spec) = some (head spec, tail spec) ∧
    ((∃ chord, parse spec octave options = .ok chord) ↔
      ∃ name quality tonic, Spells spec name quality ∧ Pitch.ofName name octave = .ok tonic ∧
        Fits tonic options) ∧
    (parse spec octave options = .error .overflow ↔
      ∃ name quality tonic, Spells spec name quality ∧ Pitch.ofName name octave = .ok tonic ∧
        ¬ Fits tonic options) ∧
    (∀ name quality, Spells spec name quality → ∃ tonic, Pitch.ofName name octave = .ok tonic ∧
      (Fits tonic options → ∃ chord, build? tonic quality options = some chord ∧
        parse spec octave options = .ok chord) ∧
      (¬ Fits tonic options → build? tonic quality options = none ∧
        parse spec octave options = .error .overflow)) ∧
    ((∀ name quality, ¬ Spells spec name quality) →
      (tail spec = "" ∨ tail spec = "m" →
        parse spec octave options = .error (.unknownPitchName ⟨head spec⟩)) ∧
      (tail spec ≠ "" → tail spec ≠ "m" →
        ∃ e, parse spec octave options = .error (.malformed e) ∧ e.spec = spec ∧
          e.fault.text = "unsupported quality " ++ Text.quoted (tail spec))) := by
  refine ⟨split_at_name_end spec, accepted_iff, overflow_iff, ?_, ?_⟩
  · intro name quality spells
    obtain ⟨tonic, named⟩ := of_name_of_listed spells.listed octave
    exact ⟨tonic, named, parse_of_fits spells named, parse_of_not_fits spells named⟩
  · intro other
    obtain ⟨unknown, unsupported⟩ := refused_of_not_spells other
    refine ⟨unknown, fun notMajor notMinor => ⟨_, unsupported notMajor notMinor, rfl, ?_⟩⟩
    rfl

/-- A minor chord is read, one on the highest B overflows, and a letter too many is no name. -/
theorem read_of_three_texts :
    parse "Bbm" 3 .default = .ok ⟨⟨10, 3⟩, .minor, [⟨10, 3⟩, ⟨1, 3⟩, ⟨5, 3⟩]⟩ ∧
      parse "B" Int32.maxValue .default = .error .overflow ∧
      parse "Bbbm" 3 .default = .error (.unknownPitchName ⟨"Bbb"⟩) := by
  have minor : Spells "Bbm" "Bb" .minor := ⟨by decide, rfl⟩
  have highest : Spells "B" "B" .major := ⟨by decide, rfl⟩
  have noName (name : String) (quality : Quality) : ¬ Spells "Bbbm" name quality := by
    intro spells
    have known := spells.listed
    rw [← (parts_of_spelled spells).1] at known
    revert known
    decide
  refine ⟨?_, ?_, ?_⟩
  · obtain ⟨_, _, _, reads, _⟩ := chords_read_by_grammar "Bbm" 3 .default
    obtain ⟨tonic, named, fits, _⟩ := reads "Bb" .minor minor
    obtain rfl : (⟨10, 3⟩ : Pitch) = tonic := Except.ok.inj named
    obtain ⟨chord, built, read⟩ := fits (by decide)
    rw [read]
    exact congrArg Except.ok (Option.some.inj built).symm
  · obtain ⟨_, _, _, reads, _⟩ := chords_read_by_grammar "B" Int32.maxValue .default
    obtain ⟨tonic, named, _, overflows⟩ := reads "B" .major highest
    obtain rfl : (⟨11, Int32.maxValue⟩ : Pitch) = tonic := Except.ok.inj named
    exact (overflows (by decide)).2
  · obtain ⟨_, _, _, _, refused⟩ := chords_read_by_grammar "Bbbm" 3 .default
    exact (refused noName).1 (Or.inr (by decide))

-- Accidentals all belong to the head, so it is the name that is unknown here.
example : head "Bbbm" = "Bbb" ∧ tail "Bbbm" = "m" := by decide

end Chord

end Cadenza
