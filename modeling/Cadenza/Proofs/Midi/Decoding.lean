import Cadenza.Midi.Message

/-!
# Reading messages back

Only the first byte of a message has its high bit set. The upper half of that byte tells the kind of
the message, and with it how many bytes follow, so messages that were sent one behind the other can
be read back, as long as the encoding cut nothing off their fields.
-/

namespace Cadenza.Midi

set_option autoImplicit false

theorem or_and_byte (a b mask : UInt8) : (a ||| b) &&& mask = a &&& mask ||| b &&& mask := by
  apply UInt8.toNat_inj.1
  simp only [UInt8.toNat_and, UInt8.toNat_or, Nat.and_or_distrib_right]

namespace Message

/-- A mask meets the kind of a message and its channel apart. -/
theorem status_and (kind channel mask : UInt8) :
    status kind channel &&& mask = kind <<< 4 &&& mask ||| channel &&& (0x0f &&& mask) := by
  rw [status, or_and_byte, UInt8.and_assoc]

theorem upper_of_status (kind channel mask : UInt8) (above : 0x0f &&& mask = 0) :
    status kind channel &&& mask = kind <<< 4 &&& mask := by
  rw [status_and, above, UInt8.and_zero, UInt8.or_zero]

/-- Masking does nothing to a byte that fits. -/
theorem channel_of_fits {channel : UInt8} (fits : channel < 16) : channel &&& 0x0f = channel :=
  UInt8.toNat_inj.1 (Nat.and_two_pow_sub_one_of_lt_two_pow (n := 4) fits)

theorem seven_bits_of_fits {value : UInt8} (fits : value < 128) : sevenBits value = value :=
  UInt8.toNat_inj.1 (Nat.and_two_pow_sub_one_of_lt_two_pow (n := 7) fits)

theorem channel_of_status (kind : UInt8) {channel : UInt8} (empty : kind <<< 4 &&& 0x0f = 0)
    (fits : channel < 16) : status kind channel &&& 0x0f = channel := by
  rw [status_and, empty, UInt8.and_self, UInt8.zero_or, channel_of_fits fits]

theorem high_of_seven_bits (value : UInt8) : sevenBits value &&& 0x80 = 0 := by
  rw [sevenBits, UInt8.and_assoc]
  exact UInt8.and_zero

/-- A message that the encoding cuts nothing off. -/
def Fits : Message → Prop
  | .noteOff channel key velocity => channel < 16 ∧ key < 128 ∧ velocity < 128
  | .noteOn channel key velocity => channel < 16 ∧ key < 128 ∧ velocity < 128
  | .programChange channel value => channel < 16 ∧ value < 128
  | .allNotesOff channel => channel < 16

def read? : List UInt8 → Option (Message × List UInt8)
  | first :: second :: rest =>
      let kind := first &&& 0xf0
      let channel := first &&& 0x0f
      if kind = 0xc0 then some (.programChange channel second, rest)
      else
        match rest with
        | [] => none
        | third :: rest =>
            if kind = 0x80 then some (.noteOff channel second third, rest)
            else if kind = 0x90 then some (.noteOn channel second third, rest)
            else if kind = 0xb0 ∧ second = 123 ∧ third = 0 then some (.allNotesOff channel, rest)
            else none
  | _ => none

theorem read_encode {m : Message} (fits : m.Fits) (rest : List UInt8) :
    read? (m.encode ++ rest) = some (m, rest) := by
  rw [encode_eq]
  cases m with
  | noteOff channel key velocity =>
      obtain ⟨channelFits, keyFits, velocityFits⟩ := fits
      have kind : status 8 channel &&& 0xf0 = 0x80 := upper_of_status 8 channel 0xf0 rfl
      simp only [bytes, List.cons_append, List.nil_append, read?, kind,
        channel_of_status 8 rfl channelFits, seven_bits_of_fits keyFits,
        seven_bits_of_fits velocityFits]
      rfl
  | noteOn channel key velocity =>
      obtain ⟨channelFits, keyFits, velocityFits⟩ := fits
      have kind : status 9 channel &&& 0xf0 = 0x90 := upper_of_status 9 channel 0xf0 rfl
      simp only [bytes, List.cons_append, List.nil_append, read?, kind,
        channel_of_status 9 rfl channelFits, seven_bits_of_fits keyFits,
        seven_bits_of_fits velocityFits]
      rfl
  | programChange channel value =>
      obtain ⟨channelFits, valueFits⟩ := fits
      have kind : status 12 channel &&& 0xf0 = 0xc0 := upper_of_status 12 channel 0xf0 rfl
      simp only [bytes, List.cons_append, List.nil_append, read?, kind,
        channel_of_status 12 rfl channelFits, seven_bits_of_fits valueFits]
      rfl
  | allNotesOff channel =>
      have channelFits : channel < 16 := fits
      have kind : status 11 channel &&& 0xf0 = 0xb0 := upper_of_status 11 channel 0xf0 rfl
      simp only [bytes, List.cons_append, List.nil_append, read?, kind,
        channel_of_status 11 rfl channelFits]
      rfl

/-- Messages that fit are told by their bytes, whatever follows them. -/
theorem encode_append_inj {m m' : Message} (fits : m.Fits) (fits' : m'.Fits)
    {rest rest' : List UInt8} (same : m.encode ++ rest = m'.encode ++ rest') :
    m = m' ∧ rest = rest' := by
  have read := read_encode fits rest
  rw [same, read_encode fits' rest', Option.some.injEq, Prod.mk.injEq] at read
  exact ⟨read.1.symm, read.2.symm⟩

theorem encode_parts (m : Message) : ∃ first data, m.encode = first :: data ∧
    first &&& 0x80 = 0x80 ∧ ∀ b ∈ data, b &&& 0x80 = 0 := by
  have high (kind channel : UInt8) (set : kind <<< 4 &&& 0x80 = 0x80) :
      status kind channel &&& 0x80 = 0x80 := by
    rw [upper_of_status kind channel 0x80 rfl, set]
  rw [encode_eq]
  cases m with
  | noteOff channel key velocity =>
      refine ⟨_, _, rfl, high 8 channel rfl, ?_⟩
      simp [high_of_seven_bits]
  | noteOn channel key velocity =>
      refine ⟨_, _, rfl, high 9 channel rfl, ?_⟩
      simp [high_of_seven_bits]
  | programChange channel value =>
      refine ⟨_, _, rfl, high 12 channel rfl, ?_⟩
      simp [high_of_seven_bits]
  | allNotesOff channel =>
      refine ⟨_, _, rfl, high 11 channel rfl, ?_⟩
      exact List.forall_mem_cons.2 ⟨rfl, List.forall_mem_singleton.2 rfl⟩

theorem eq_of_sent {messages messages' : List Message} (fits : ∀ m ∈ messages, m.Fits)
    (fits' : ∀ m ∈ messages', m.Fits)
    (same : messages.flatMap encode = messages'.flatMap encode) : messages = messages' := by
  induction messages generalizing messages' with
  | nil =>
      cases messages' with
      | nil => rfl
      | cons m' rest' =>
          obtain ⟨first, data, starts, _⟩ := m'.encode_parts
          rw [List.flatMap_nil, List.flatMap_cons, starts] at same
          cases same
  | cons m rest ih =>
      cases messages' with
      | nil =>
          obtain ⟨first, data, starts, _⟩ := m.encode_parts
          rw [List.flatMap_nil, List.flatMap_cons, starts] at same
          cases same
      | cons m' rest' =>
          rw [List.forall_mem_cons] at fits fits'
          rw [List.flatMap_cons, List.flatMap_cons] at same
          obtain ⟨rfl, behind⟩ := encode_append_inj fits.1 fits'.1 same
          rw [ih fits.2 fits'.2 behind]

/-- Messages sent one behind the other are told by the bytes that were sent, if the channels have
four bits and the data seven. Any message, whatever its fields, takes as many bytes as its size
says. The first of them has its high bit set and no other has. Written to a buffer that has room for
it, a message puts these bytes to the front and leaves the rest as it was; a smaller buffer is
refused. -/
theorem messages_told_by_bytes :
    (∀ messages messages' : List Message, (∀ m ∈ messages, m.Fits) → (∀ m ∈ messages', m.Fits) →
      messages.flatMap encode = messages'.flatMap encode → messages = messages') ∧
    ∀ m : Message, m.encode.length = m.size ∧
      (∃ first data, m.encode = first :: data ∧ first &&& 0x80 = 0x80 ∧
        ∀ b ∈ data, b &&& 0x80 = 0) ∧
      ∀ buffer, m.write? buffer =
        if m.size ≤ buffer.length then some (m.encode ++ buffer.drop m.size) else none := by
  refine ⟨fun _ _ => eq_of_sent, fun m => ⟨?_, m.encode_parts, fun buffer => ?_⟩⟩
  · rw [encode_eq, length_bytes]
  · rw [write_eq, encode_eq]

end Message

end Cadenza.Midi
