import Cadenza.Text

/-!
# MIDI messages

A message is one status byte, which names its kind and its channel, and one or two data bytes of
seven bits.
-/

namespace Cadenza.Midi

set_option autoImplicit false

structure OutOfRange where
  what : String
  value : Int
  deriving DecidableEq, Repr

def OutOfRange.message (e : OutOfRange) : String :=
  s!"MIDI {e.what} {e.value} is out of the 0..=127 range"

def dataByte (what : String) (value : Int) : Except OutOfRange UInt8 :=
  if 0 ≤ value ∧ value ≤ 127 then .ok (UInt8.ofNat value.toNat) else .error ⟨what, value⟩

/-- The fields are any bytes; the encoding cuts them to size. -/
inductive Message where
  | noteOff (channel key velocity : UInt8)
  | noteOn (channel key velocity : UInt8)
  | programChange (channel value : UInt8)
  | allNotesOff (channel : UInt8)
  deriving DecidableEq, Repr

namespace Message

def checkedNoteOn (channel : UInt8) (key : Int32) (velocity : UInt8) :
    Except OutOfRange Message := do
  let key ← dataByte "key" key.toInt
  let velocity ← dataByte "velocity" velocity.toNat
  .ok (.noteOn channel key velocity)

def checkedNoteOff (channel : UInt8) (key : Int32) (velocity : UInt8) :
    Except OutOfRange Message := do
  let key ← dataByte "key" key.toInt
  let velocity ← dataByte "velocity" velocity.toNat
  .ok (.noteOff channel key velocity)

def checkedProgram (channel value : UInt8) : Except OutOfRange Message := do
  let value ← dataByte "program" value.toNat
  .ok (.programChange channel value)

def status (kind channel : UInt8) : UInt8 :=
  kind <<< 4 ||| (channel &&& 0x0f)

def sevenBits (value : UInt8) : UInt8 :=
  value &&& 0x7f

/-- What is written for a message. All notes off is the control change 123. -/
def bytes : Message → List UInt8
  | .noteOff channel key velocity => [status 8 channel, sevenBits key, sevenBits velocity]
  | .noteOn channel key velocity => [status 9 channel, sevenBits key, sevenBits velocity]
  | .programChange channel value => [status 12 channel, sevenBits value]
  | .allNotesOff channel => [status 11 channel, 123, 0]

def size : Message → Nat
  | .noteOff .. => 3
  | .noteOn .. => 3
  | .programChange .. => 2
  | .allNotesOff .. => 3

def overwrite? (data buffer : List UInt8) : Option (List UInt8) :=
  if data.length ≤ buffer.length then some (data ++ buffer.drop data.length) else none

def write? (m : Message) (buffer : List UInt8) : Option (List UInt8) :=
  overwrite? m.bytes buffer

theorem length_bytes (m : Message) : m.bytes.length = m.size := by
  cases m <;> rfl

theorem write_eq (m : Message) (buffer : List UInt8) :
    m.write? buffer =
      if m.size ≤ buffer.length then some (m.bytes ++ buffer.drop m.size) else none := by
  rw [write?, overwrite?, length_bytes]

/-- A buffer of the size of a message has room for it and for nothing else. -/
theorem write_alone (m : Message) : m.write? (List.replicate m.size 0) = some m.bytes := by
  rw [write_eq, List.length_replicate, if_pos (Nat.le_refl _), List.drop_replicate, Nat.sub_self,
    List.replicate_zero, List.append_nil]

def encode (m : Message) : List UInt8 :=
  (m.write? (List.replicate m.size 0)).get (by rw [write_alone]; rfl)

theorem encode_eq (m : Message) : m.encode = m.bytes :=
  Option.get_of_eq_some _ m.write_alone

end Message

end Cadenza.Midi
