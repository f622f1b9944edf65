import Cadenza.Journal
import Cadenza.Midi.Message
import Cadenza.Text

/-!
# Synths

A playback tells a synth what to do by calls, one channel for each track. A synth is what it makes
of a call: what can be heard of it, and what it reports.
-/

namespace Cadenza

set_option autoImplicit false

/-- Channels are track positions, keys are not yet checked against the range of MIDI. -/
inductive SynthCall where
  | programSelect (channel : Nat) (instrument : UInt8)
  | noteOn (channel : Nat) (key : Int32) (velocity : UInt8)
  | noteOff (channel : Nat) (key : Int32)
  | allNotesOff (channel : Nat)
  deriving DecidableEq, Repr

inductive Sound where
  | call (c : SynthCall)
  | bytes (data : List UInt8)
  deriving DecidableEq, Repr

structure Response where
  sounds : List Sound
  records : List Record
  deriving DecidableEq, Repr

abbrev Synth := SynthCall → Response

namespace Synth

def recorder : Synth := fun c =>
  ⟨[.call c], []⟩

/-- Passes every call on but does nothing to silence a channel. -/
def plain : Synth := fun c =>
  match c with
  | .allNotesOff _ => ⟨[], []⟩
  | c => ⟨[.call c], []⟩

/-- MIDI has sixteen channels, tracks beyond them share. -/
def midiChannels : Nat := 16

def midiChannel (channel : Nat) : UInt8 :=
  UInt8.ofNat (channel % midiChannels)

def channelRecords (channel : Nat) : List Record :=
  if midiChannels ≤ channel then [Record.sharedChannel channel (channel % midiChannels)] else []

def channelOf : SynthCall → Nat
  | .programSelect channel _ => channel
  | .noteOn channel _ _ => channel
  | .noteOff channel _ => channel
  | .allNotesOff channel => channel

def midiMessage : SynthCall → Except Midi.OutOfRange Midi.Message
  | .programSelect channel instrument =>
      Midi.Message.checkedProgram (midiChannel channel) instrument
  | .noteOn channel key velocity =>
      Midi.Message.checkedNoteOn (midiChannel channel) key velocity
  | .noteOff channel key => Midi.Message.checkedNoteOff (midiChannel channel) key 0
  | .allNotesOff channel => .ok (.allNotesOff (midiChannel channel))

/-- Sends the bytes of each call; a call out of range is dropped, not moved to another key. -/
def midi : Synth := fun c =>
  match midiMessage c with
  | .ok message => ⟨[.bytes message.encode], channelRecords (channelOf c)⟩
  | .error e => ⟨[], channelRecords (channelOf c) ++ [Record.dropped e.message]⟩

def journal : Synth := fun c =>
  let channel := Text.padLeft '0' 2 (toString (channelOf c))
  let text := match c with
    | .programSelect _ instrument => s!"[{channel}] program {instrument.toNat}"
    | .noteOn _ key velocity =>
        let key := Text.padLeft ' ' 3 (toString key.toInt)
        let velocity := Text.padLeft ' ' 3 (toString velocity.toNat)
        s!"[{channel}] on  {key} {velocity}"
    | .noteOff _ key =>
        let key := Text.padLeft ' ' 3 (toString key.toInt)
        s!"[{channel}] off {key}"
    | .allNotesOff _ => s!"[{channel}] all notes off"
  ⟨[], [⟨.info, text⟩]⟩

end Synth

end Cadenza
