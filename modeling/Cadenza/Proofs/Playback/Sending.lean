import Cadenza.Proofs.Playback.Driving
import Cadenza.Proofs.Playback.Range

/-!
# What is sent for a playback

A call that fits in MIDI is sent as one message whose bytes are the values of the call: the checks
that make the message let nothing pass that the encoding would cut. All calls of a playback fit but
for the instruments, which nobody asks before it.
-/

namespace Cadenza

set_option autoImplicit false

namespace SynthCall

def Fits : SynthCall → Prop
  | .noteOn _ key velocity => Midi.SevenBits key.toInt ∧ Midi.SevenBits velocity.toNat
  | .noteOff _ key => Midi.SevenBits key.toInt
  | _ => True

/-- Whether something is sent for a call that fits: only a program may be too high. -/
def isSent : SynthCall → Bool
  | .programSelect _ instrument => decide (instrument.toNat ≤ 127)
  | _ => true

def wire : SynthCall → List Int
  | .programSelect track instrument => [(0xC0 ||| track % 16 : Nat), instrument.toNat]
  | .noteOn track key velocity => [(0x90 ||| track % 16 : Nat), key.toInt, velocity.toNat]
  | .noteOff track key => [(0x80 ||| track % 16 : Nat), key.toInt, 0]
  | .allNotesOff track => [(0xB0 ||| track % 16 : Nat), 123, 0]

end SynthCall

def byteValues (data : List UInt8) : List Int :=
  data.map fun b => (b.toNat : Int)

namespace Midi

theorem status_value : ∀ kind < 16, ∀ channel < 16,
    (Message.status (UInt8.ofNat kind) (UInt8.ofNat channel)).toNat = kind <<< 4 ||| channel := by
  decide

theorem seven_bits_value : ∀ n < 128, (Message.sevenBits (UInt8.ofNat n)).toNat = n := by
  decide

/-- A checked value is a data byte that the encoding leaves as it is. -/
theorem data_byte_of_seven_bits (what : String) {value : Int} (fits : SevenBits value) :
    ∃ b, dataByte what value = .ok b ∧ ((Message.sevenBits b).toNat : Int) = value := by
  refine ⟨_, if_pos fits, ?_⟩
  obtain ⟨low, high⟩ := fits
  rw [seven_bits_value value.toNat (by omega), Int.toNat_of_nonneg low]

end Midi

theorem status_of_track (kind : Nat) (below : kind < 16) (track : Nat) :
    (Midi.Message.status (UInt8.ofNat kind) (Synth.midiChannel track)).toNat =
      kind <<< 4 ||| track % 16 :=
  Midi.status_value kind below (track % 16) (Nat.mod_lt track (by decide))

/-- The message of a call that fits has the values of the call. -/
theorem message_of_fits {c : SynthCall} (fits : c.Fits) (sent : c.isSent = true) :
    ∃ m, Synth.midiMessage c = .ok m ∧ byteValues m.encode = c.wire := by
  cases c with
  | programSelect track instrument =>
      have low : Midi.SevenBits instrument.toNat :=
        ⟨Int.natCast_nonneg _, Int.ofNat_le.2 (of_decide_eq_true sent)⟩
      obtain ⟨i, made, kept⟩ := Midi.data_byte_of_seven_bits "program" low
      refine ⟨.programChange (Synth.midiChannel track) i, ?_, ?_⟩
      · simp only [Synth.midiMessage, Midi.Message.checkedProgram, made]
        rfl
      · have status := congrArg Int.ofNat (status_of_track 12 (by decide) track)
        exact congrArg₂ (fun x y => [x, y]) status kept
  | noteOn track key velocity =>
      obtain ⟨keyFits, velocityFits⟩ := fits
      obtain ⟨k, keyMade, keyKept⟩ := Midi.data_byte_of_seven_bits "key" keyFits
      obtain ⟨v, velocityMade, velocityKept⟩ := Midi.data_byte_of_seven_bits "velocity" velocityFits
      refine ⟨.noteOn (Synth.midiChannel track) k v, ?_, ?_⟩
      · simp only [Synth.midiMessage, Midi.Message.checkedNoteOn, keyMade, velocityMade]
        rfl
      · have status := congrArg Int.ofNat (status_of_track 9 (by decide) track)
        have data := congrArg₂ (fun x y => [x, y]) keyKept velocityKept
        exact congrArg₂ List.cons status data
  | noteOff track key =>
      obtain ⟨k, keyMade, keyKept⟩ := Midi.data_byte_of_seven_bits "key" fits
      refine ⟨.noteOff (Synth.midiChannel track) k 0, ?_, ?_⟩
      · simp only [Synth.midiMessage, Midi.Message.checkedNoteOff, keyMade]
        rfl
      · have status := congrArg Int.ofNat (status_of_track 8 (by decide) track)
        exact congrArg₂ (fun x y => [x, y, 0]) status keyKept
  | allNotesOff track =>
      refine ⟨_, rfl, ?_⟩
      have status := congrArg Int.ofNat (status_of_track 11 (by decide) track)
      exact congrArg (fun x => [x, 123, 0]) status

/-- For a call that fits one message of its own values is sent, or nothing if it selects a program
that is too high. -/
theorem sounds_of_midi {c : SynthCall} (fits : c.Fits) :
    (c.isSent = true → ∃ data, (Synth.midi c).sounds = [.bytes data] ∧ byteValues data = c.wire) ∧
      (c.isSent = false → (Synth.midi c).sounds = []) := by
  constructor
  · intro sent
    obtain ⟨m, made, values⟩ := message_of_fits fits sent
    refine ⟨m.encode, ?_, values⟩
    simp only [Synth.midi, made]
  · intro silent
    cases c with
    | programSelect track instrument =>
        have high : ¬ Midi.SevenBits instrument.toNat := fun low =>
          of_decide_eq_false silent (Int.ofNat_le.1 low.2)
        have failed : Midi.dataByte "program" instrument.toNat =
            .error ⟨"program", instrument.toNat⟩ := if_neg high
        simp only [Synth.midi, Synth.midiMessage, Midi.Message.checkedProgram, failed]
        rfl
    | _ => cases silent

/-- What is kept between a synth that passes every call on and one that sends messages: for the same
calls one message each, but for the programs that are too high. -/
def SentFor (passed sent : List Sound) : Prop :=
  ∃ (calls : List SynthCall) (messages : List (List UInt8)),
    passed = calls.map .call ∧ sent = messages.map .bytes ∧ (∀ c ∈ calls, c.Fits) ∧
      messages.map byteValues = (calls.filter SynthCall.isSent).map SynthCall.wire

theorem kept_sent_for {c : SynthCall} (fits : c.Fits) :
    Kept Synth.recorder.sink Synth.midi.sink SentFor c := by
  rintro passed sent ⟨calls, messages, rfl, rfl, known, values⟩
  have all : ∀ d ∈ calls ++ [c], d.Fits := by
    intro d member
    rcases List.mem_append.1 member with old | new
    · exact known d old
    · exact List.mem_singleton.1 new ▸ fits
  have grown : Synth.recorder.sink (calls.map .call) c = (calls ++ [c]).map .call := by
    rw [List.map_append]
    rfl
  obtain ⟨heard, unheard⟩ := sounds_of_midi fits
  cases sends : c.isSent with
  | true =>
      obtain ⟨data, sounds, wire⟩ := heard sends
      refine ⟨calls ++ [c], messages ++ [data], grown, ?_, all, ?_⟩
      · rw [Synth.sink, sounds, List.map_append]
        rfl
      · rw [List.map_append, List.filter_append, List.map_append, values,
          List.filter_cons_of_pos sends]
        exact congrArg (_ ++ [·]) wire
  | false =>
      refine ⟨calls ++ [c], messages, grown, ?_, all, ?_⟩
      · rw [Synth.sink, unheard sends, List.append_nil]
      · rw [List.filter_append, List.filter_cons_of_neg (by simp [sends]), List.filter_nil,
          List.append_nil, values]

theorem foldl_recorder (calls : List SynthCall) (out : List Sound) :
    calls.foldl Synth.recorder.sink out = out ++ calls.map .call := by
  induction calls generalizing out with
  | nil => exact (List.append_nil out).symm
  | cons c rest ih =>
      rw [List.foldl_cons, ih, Synth.sink, List.append_assoc]
      rfl

variable {τ ρ : Type}

theorem fits_call {e : Event τ} (fits : e.Fits) : e.call.Fits := by
  cases kind : e.kind with
  | noteOn =>
      simp only [Event.call, kind]
      exact fits
  | noteOff =>
      simp only [Event.call, kind]
      exact fits.1

variable [Time τ]

theorem fits_calls_for {p : Player τ} {tracks : List (CompiledTrack τ)} {timeline : List (Event τ)}
    (made : p.timeline tracks = .ok timeline) : ∀ c ∈ callsFor tracks timeline, c.Fits := by
  intro c member
  rcases List.mem_append.1 member with early | silence
  · rcases List.mem_append.1 early with program | note
    · obtain ⟨t, _, rfl⟩ := List.mem_map.1 program
      trivial
    · obtain ⟨e, inside, rfl⟩ := List.mem_map.1 note
      exact fits_call (Player.fits_of_timeline made e inside)
  · obtain ⟨t, _, rfl⟩ := List.mem_map.1 silence
    trivial

/-- Any tracks are played on a synth that sends messages as on one that keeps the calls: with the
same result, and with the same waits, as the sleeper is left the same, whatever it makes of them.
What is sent is one message for each call, in order, whose bytes are the values of the call on the
channel of its track, as if nothing had been checked or cut. Only for a program above 127 nothing is
sent, every note fits. The result and the calls are those that `play` tells of the answers of the
sleeper. -/
theorem Player.messages_sent_for_calls (p : Player τ) (sleep : ρ → ClockTime → Bool × ρ)
    (tracks : List (CompiledTrack τ)) (sleeper : ρ) :
    let passed := p.drive Synth.recorder.sink sleep tracks [] sleeper
    let sent := p.drive Synth.midi.sink sleep tracks [] sleeper
    sent.result = passed.result ∧ sent.sleeper = passed.sleeper ∧
      ∃ (calls : List SynthCall) (messages : List (List UInt8)),
        passed.synth = calls.map .call ∧ sent.synth = messages.map .bytes ∧
        messages.map byteValues = (calls.filter SynthCall.isSent).map SynthCall.wire ∧
        (∀ c ∈ calls, c.Fits) ∧
        passed.result = (p.play tracks (p.answers sleep tracks sleeper)).map Performance.tally ∧
        ∀ done, p.play tracks (p.answers sleep tracks sleeper) = .ok done → calls = done.calls := by
  intro passed sent
  have start : SentFor [] [] := ⟨[], [], rfl, rfl, by simp, rfl⟩
  obtain ⟨results, sleepers, calls, messages, calledFor, sentFor, fits, values⟩ :=
    p.drive_alike sleep tracks sleeper start
      fun timeline made c member => kept_sent_for (fits_calls_for made c member)
  obtain ⟨told, taken⟩ := p.drive_told Synth.recorder.sink sleep tracks [] sleeper
  refine ⟨results.symm, sleepers.symm, calls, messages, calledFor, sentFor, values, fits, told, ?_⟩
  intro done played
  have same : calls.map Sound.call = done.calls.map Sound.call := by
    rw [← calledFor, taken done played, foldl_recorder, List.nil_append]
  exact List.map_injective_iff.2 (fun _ _ => Sound.call.inj) same

end Cadenza
