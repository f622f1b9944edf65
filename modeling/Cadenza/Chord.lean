import Cadenza.Pitch
import Cadenza.Sorting
import Cadenza.Text

/-!
# Triads

A chord is a triad on a tonic: the tonic itself, its third and its fifth. It is written as a pitch
name, followed by `m` for a minor one.
-/

namespace Cadenza

set_option autoImplicit false

def defaultOctave : Int32 := 3

inductive Quality where
  | major
  | minor
  deriving DecidableEq, Repr

def Quality.third : Quality → Int32
  | .major => 4
  | .minor => 3

def fifth : Int32 := 7

/-- How the pitches of a triad are arranged: in rising order, and all in the tonic's octave. -/
structure ChordOptions where
  sorted : Bool
  normalized : Bool
  deriving DecidableEq, Repr

def ChordOptions.default : ChordOptions :=
  ⟨true, true⟩

structure Chord where
  tonic : Pitch
  quality : Quality
  pitches : List Pitch
  deriving DecidableEq, Repr

inductive ChordFault where
  | unsupportedQuality (suffix : String)
  | indexOutOfRange (index count : Nat)
  | noValue (position : Nat)
  deriving DecidableEq, Repr

def ChordFault.text : ChordFault → String
  | .unsupportedQuality suffix => s!"unsupported quality {Text.quoted suffix}"
  | .indexOutOfRange index count => s!"index {index} is out of {count} pitches"
  | .noValue position => s!"no value for note {position}"

/-- A chord that cannot be built: `spec` is its text, or the parameter at fault. -/
structure MalformedChord where
  spec : String
  fault : ChordFault
  deriving DecidableEq, Repr

def MalformedChord.message (e : MalformedChord) : String :=
  s!"Malformed chord spec {Text.quoted e.spec}: {e.fault.text}"

structure UnknownPitchName where
  name : String
  deriving DecidableEq, Repr

def UnknownPitchName.message (e : UnknownPitchName) : String :=
  s!"Unknown pitch name: {Text.quoted e.name}"

def Pitch.ofName (name : String) (octave : Int32) : Except UnknownPitchName Pitch :=
  match pitchClass? name with
  | some pitchClass => .ok ⟨pitchClass, octave⟩
  | none => .error ⟨name⟩

/-- Why a text gives no chord; `overflow` when a pitch does not fit its words. -/
inductive ChordError where
  | unknownPitchName (e : UnknownPitchName)
  | malformed (e : MalformedChord)
  | overflow
  deriving DecidableEq, Repr

namespace Chord

def sortPitches? (pitches : List Pitch) : Option (List Pitch) := do
  let keyed ← pitches.mapM fun p => p.key?.map fun key => (key, p)
  some ((sortStable (fun later earlier => decide (earlier.1 < later.1)) keyed).map (·.2))

/-- The triad on a tonic; nothing if one of its pitches overflows. The pitches are sorted before
they are brought into one octave. -/
def build? (tonic : Pitch) (quality : Quality) (options : ChordOptions) : Option Chord := do
  let third ← tonic.up? quality.third
  let high ← tonic.up? fifth
  let pitches := [tonic, third, high]
  let arranged ← if options.sorted then sortPitches? pitches else some pitches
  let folded := if options.normalized then arranged.map (·.withOctave tonic.octave) else arranged
  some ⟨tonic, quality, folded⟩

def isAccidental (c : Char) : Bool :=
  c == '#' || c == 'b'

/-- Where the name at the front of a text ends, in bytes: at the next character after the first that
is no accidental. -/
def nameEnd (spec : String) : Nat :=
  (((Text.charOffsets 0 spec.toList).drop 1).find? fun o => !isAccidental o.2).elim
    spec.utf8ByteSize (·.1)

/-- The first character of a text and the accidentals that follow it. -/
def head (spec : String) : String :=
  String.ofList (spec.toList.take 1 ++ (spec.toList.drop 1).takeWhile isAccidental)

def tail (spec : String) : String :=
  String.ofList ((spec.toList.drop 1).dropWhile isAccidental)

theorem head_append_tail (spec : String) : head spec ++ tail spec = spec := by
  rw [head, tail, ← String.ofList_append, List.append_assoc, List.takeWhile_append_dropWhile,
    List.take_append_drop, String.ofList_toList]

theorem name_end_eq (spec : String) : nameEnd spec = (head spec).utf8ByteSize := by
  cases text : spec.toList with
  | nil =>
      rw [← String.ofList_toList (s := spec), text]
      rfl
  | cons c rest =>
      have size : spec.utf8ByteSize = c.utf8Size + (String.ofList rest).utf8ByteSize := by
        rw [← Text.byte_size_cons, ← text, String.ofList_toList]
      have behind : (Text.charOffsets 0 (c :: rest)).drop 1 =
          Text.charOffsets c.utf8Size rest := by
        rw [Text.charOffsets, Nat.zero_add, List.drop_one, List.tail_cons]
      rw [nameEnd, head, text, size, behind, Text.offset_of_first_refused]
      exact (Text.byte_size_cons c _).symm

/-- Whatever characters a text holds, its name ends between two of them. -/
theorem split_at_name_end (spec : String) :
    Text.splitAt? spec (nameEnd spec) = some (head spec, tail spec) := by
  have split := Text.split_at_append (head spec) (tail spec)
  rwa [head_append_tail, ← name_end_eq] at split

def splitName (spec : String) : String × String :=
  (Text.splitAt? spec (nameEnd spec)).get (by rw [split_at_name_end]; rfl)

def quality? : String → Option Quality
  | "" => some .major
  | "m" => some .minor
  | _ => none

/-- Reads a chord. An unsupported quality is refused before the name is looked up. -/
def parse (spec : String) (octave : Int32) (options : ChordOptions) : Except ChordError Chord :=
  let parts := splitName spec
  match quality? parts.2 with
  | none => .error (.malformed ⟨spec, .unsupportedQuality parts.2⟩)
  | some quality =>
      match Pitch.ofName parts.1 octave with
      | .error e => .error (.unknownPitchName e)
      | .ok tonic =>
          match build? tonic quality options with
          | none => .error .overflow
          | some chord => .ok chord

end Chord

end Cadenza
