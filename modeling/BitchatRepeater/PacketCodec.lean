import BitchatRepeater.MessageCodec

/-!
# Packets on the wire

`Frame` is a complete packet: a header, the bytes the header declares, and a
signature if it announces one. Reading the bytes of a frame, with any padding
behind them, gives its parts back. What `writePacket` puts out for a packet is a
header for what it writes as payload, that payload, the signature behind a
length byte, and a zero. Output of 65536 bytes or more is seen by a reader only
up to its length modulo 65536.
-/

namespace BitchatRepeater

open Lib Tracker ProtocolProcessor BinaryWriter

-- ---------------------------------------------------------------------------
-- Headers
-- ---------------------------------------------------------------------------

namespace ProtocolProcessor.Header

def bytes (h : Header) : Bytes :=
  1 :: h.type :: h.ttl :: split64 h.timestampMs ++ h.packetFlags :: split16 h.payloadLength ++
    split64 h.sender ++ flagged (hasFlag h.packetFlags packetFlagHasRecipient) (split64 h.recipient)

def Proper (h : Header) : Prop :=
  hasFlag h.packetFlags packetFlagHasRecipient = false → h.recipient = 0

theorem length_bytes (h : Header) :
    h.bytes.length = 22 + flaggedLength (hasFlag h.packetFlags packetFlagHasRecipient) 8 := by
  simp only [bytes, List.length_append, List.length_cons, length_split64, length_split16,
    length_flagged]

theorem length_bytes_le (h : Header) : 22 ≤ h.bytes.length ∧ h.bytes.length ≤ 30 := by
  rw [length_bytes, flaggedLength]
  split <;> omega

end ProtocolProcessor.Header

section Reading
variable {r : BinaryReader} {rest : Bytes} {h : Header}

theorem readHeader_at (hp : h.Proper) (ha : r.At (h.bytes.tail ++ rest)) :
    ∃ r', readHeader r = (h, r') ∧ r'.At rest := by
  simp only [Header.bytes, List.cons_append, List.tail_cons, List.append_assoc] at ha
  obtain ⟨r₁, h₁, a₁⟩ := ha.readUint8
  obtain ⟨r₂, h₂, a₂⟩ := a₁.readUint8
  obtain ⟨r₃, h₃, a₃⟩ := a₂.readUint64
  obtain ⟨r₄, h₄, a₄⟩ := a₃.readUint8
  obtain ⟨r₅, h₅, a₅⟩ := a₄.readUint16
  obtain ⟨r₆, h₆, a₆⟩ := a₅.readUint64
  cases hf : hasFlag h.packetFlags packetFlagHasRecipient with
  | true =>
    simp only [hf, flagged, if_true] at a₆
    obtain ⟨r₇, h₇, a₇⟩ := a₆.readUint64
    refine ⟨r₇, ?_, a₇⟩
    simp only [readHeader, h₁, h₂, h₃, h₄, h₅, h₆, hf, if_true, h₇]
  | false =>
    simp only [hf, flagged, Bool.false_eq_true, if_false, List.nil_append] at a₆
    refine ⟨r₆, ?_, a₆⟩
    simp only [readHeader, h₁, h₂, h₃, h₄, h₅, h₆, hf, Bool.false_eq_true, if_false, ← hp hf]

def seen (buffer : Bytes) : Bytes := buffer.take (buffer.length % 2 ^ 16)

theorem at_seen (buffer : Bytes) : (BinaryReader.new 0 buffer).At (seen buffer) := by
  have hlt : buffer.length % 2 ^ 16 < 2 ^ 16 := Nat.mod_lt _ (by decide)
  have hle := Nat.mod_le buffer.length (2 ^ 16)
  refine ⟨[], buffer.drop (buffer.length % 2 ^ 16), ?_, rfl, ?_, hlt⟩
  · simp [seen, BinaryReader.new]
  · simp only [seen, BinaryReader.new, List.length_nil, List.length_take, Nat.zero_add]
    omega

theorem seen_eq {buffer : Bytes} (h : buffer.length < 2 ^ 16) : seen buffer = buffer := by
  rw [seen, Nat.mod_eq_of_lt h, List.take_length]

theorem seen_append {front back : Bytes} (h : front.length ≤ (front ++ back).length % 2 ^ 16) :
    seen (front ++ back) = front ++ back.take ((front ++ back).length % 2 ^ 16 - front.length) := by
  rw [seen, List.take_append, List.take_of_length_le h]

theorem readPacket_at (inflate : Bytes → Option Bytes) {buffer : Bytes} (hp : h.Proper)
    (ha : (BinaryReader.new offset buffer).At (h.bytes ++ rest)) :
    ∃ r, r.At rest ∧ readPacket inflate offset buffer = readBody inflate h r := by
  have hb : h.bytes = 1 :: h.bytes.tail := rfl
  rw [hb, List.cons_append] at ha
  obtain ⟨r₁, h₁, a₁⟩ := ha.readUint8
  obtain ⟨r₂, h₂, a₂⟩ := readHeader_at hp a₁
  refine ⟨r₂, a₂, ?_⟩
  simp only [readPacket, h₁, ne_eq, not_true_eq_false, if_false, h₂]

theorem readPacket_header_at (inflate : Bytes → Option Bytes) {buffer : Bytes} (hp : h.Proper)
    (hs : seen buffer = h.bytes ++ rest) :
    ∃ r, r.At rest ∧ readPacket inflate 0 buffer = readBody inflate h r :=
  readPacket_at inflate hp (hs ▸ at_seen buffer)

theorem readPacket_toHeader (hp : h.Proper) (hs : seen buffer = h.bytes ++ rest)
    (hr : readPacket inflate 0 buffer = .packet p) : p.toHeader = h := by
  obtain ⟨-, hh, -⟩ := readPacket_header hr
  have ha := at_seen buffer
  rw [hs] at ha
  have ha' : (BinaryReader.new 0 buffer).At (1 :: (h.bytes.tail ++ rest)) := ha
  obtain ⟨r₁, h₁, a₁⟩ := ha'.readUint8
  obtain ⟨r₂, h₂, -⟩ := readHeader_at hp a₁
  simp only [h₁, h₂] at hh
  exact hh

end Reading

-- ---------------------------------------------------------------------------
-- Frames
-- ---------------------------------------------------------------------------

/-- A complete packet: the declared bytes and the announced signature are there. -/
structure Frame where
  header : Header
  body : Bytes
  signature : Bytes
  proper : header.Proper
  declared : body.length = header.payloadLength.toNat
  signed : signature.length = flaggedLength (hasFlag header.packetFlags packetFlagHasSignature) 64

namespace Frame

def bytes (f : Frame) : Bytes := f.header.bytes ++ f.body ++ f.signature

theorem bytes_append (f : Frame) (padding : Bytes) :
    f.bytes ++ padding = f.header.bytes ++ (f.body ++ (f.signature ++ padding)) := by
  simp [bytes]

def isSigned (f : Frame) : Bool := hasFlag f.header.packetFlags packetFlagHasSignature

theorem length_signature (f : Frame) (h : f.isSigned) : f.signature.length = 64 :=
  f.signed.trans (if_pos h)

def isCompressed (f : Frame) : Bool := hasFlag f.header.packetFlags packetFlagIsCompressed

def incoming (f : Frame) (payload : Bytes) : Incoming :=
  { f.header with payload := payload, signature := f.signature }

theorem readSignature_at (f : Frame) {r : BinaryReader} {rest : Bytes}
    (ha : r.At (f.signature ++ rest)) (payload : Bytes) :
    readSignature f.header payload r = .packet (f.incoming payload) := by
  have hs := f.signed
  cases hf : hasFlag f.header.packetFlags packetFlagHasSignature with
  | true =>
    obtain ⟨r', hr, -⟩ := ha.readData
    rw [hf] at hs
    rw [hs] at hr
    simp only [readSignature, hf, if_true]
    rw [show flaggedLength true 64 = 64 from rfl] at hr
    rw [hr]
    rfl
  | false =>
    rw [hf] at hs
    have hnil : f.signature = [] := List.length_eq_zero_iff.mp hs
    simp only [readSignature, hf, Bool.false_eq_true, if_false, incoming, hnil]

theorem readBody_plain (f : Frame) (hc : f.isCompressed = false) {r : BinaryReader}
    {padding : Bytes}
    (ha : r.At (f.body ++ (f.signature ++ padding))) (inflate : Bytes → Option Bytes) :
    readBody inflate f.header r = .packet (f.incoming f.body) := by
  obtain ⟨r', hd, ha'⟩ := ha.readData
  have hp : readPayload inflate f.header r = some (f.body, r') := by
    rw [readPayload, if_neg (by simpa [isCompressed] using hc), ← f.declared, hd]
  rw [readBody, hp]
  exact f.readSignature_at ha' f.body

theorem readPacket_plain (f : Frame) (hc : f.isCompressed = false) (padding : Bytes)
    (hl : (f.bytes ++ padding).length < 2 ^ 16) (inflate : Bytes → Option Bytes) :
    readPacket inflate 0 (f.bytes ++ padding) = .packet (f.incoming f.body) := by
  have hs : seen (f.bytes ++ padding) = f.header.bytes ++ (f.body ++ (f.signature ++ padding)) := by
    rw [seen_eq hl, f.bytes_append]
  obtain ⟨r, ha, hr⟩ := readPacket_header_at inflate f.proper hs
  rw [hr]
  exact f.readBody_plain hc ha inflate

theorem toNat_sub_two {n : UInt16} (h : 2 ≤ n.toNat) : (n - 2).toNat = n.toNat - 2 :=
  UInt16.toNat_sub_of_le n 2 (UInt16.le_iff_toNat_le.mpr h)

theorem toNat_sub_two_wraps {n : UInt16} (h : n.toNat < 2) : (n - 2).toNat = n.toNat + 65534 := by
  rw [UInt16.toNat_sub]
  have : (2 : UInt16).toNat = 2 := rfl
  omega

theorem readBody_compressed (f : Frame) (hc : f.isCompressed) (hb : f.body = split16 size ++ z)
    {r : BinaryReader} {padding : Bytes} (ha : r.At (f.body ++ (f.signature ++ padding)))
    (inflate : Bytes → Option Bytes) :
    readBody inflate f.header r = .packet (f.incoming (decompressed inflate z size.toNat)) := by
  rw [hb, List.append_assoc] at ha
  obtain ⟨r₁, h₁, a₁⟩ := ha.readUint16
  obtain ⟨r₂, h₂, a₂⟩ := a₁.readData
  have hlen : (f.header.payloadLength - 2).toNat = z.length := by
    have hd := f.declared
    rw [hb, List.length_append, length_split16] at hd
    rw [toNat_sub_two (by omega)]
    omega
  have hp : readPayload inflate f.header r = some (decompressed inflate z size.toNat, r₂) := by
    rw [readPayload, if_pos (by simpa [isCompressed] using hc)]
    simp only [h₁, hlen, h₂, Option.map_some]
  rw [readBody, hp]
  exact f.readSignature_at a₂ _

theorem readPacket_compressed (f : Frame) (hc : f.isCompressed) (hb : f.body = split16 size ++ z)
    (padding : Bytes) (hl : (f.bytes ++ padding).length < 2 ^ 16) (inflate : Bytes → Option Bytes) :
    readPacket inflate 0 (f.bytes ++ padding) =
      .packet (f.incoming (decompressed inflate z size.toNat)) := by
  have hs : seen (f.bytes ++ padding) = f.header.bytes ++ (f.body ++ (f.signature ++ padding)) := by
    rw [seen_eq hl, f.bytes_append]
  obtain ⟨r, ha, hr⟩ := readPacket_header_at inflate f.proper hs
  rw [hr]
  exact f.readBody_compressed hc hb ha inflate

end Frame

-- ---------------------------------------------------------------------------
-- Short buffers
-- ---------------------------------------------------------------------------

section Size
variable {r : BinaryReader}

@[simp] theorem bufferSize_readUint8 : r.readUint8.2.bufferSize = r.bufferSize := by
  unfold BinaryReader.readUint8
  split <;> rfl

@[simp] theorem bufferSize_readUint16 : r.readUint16.2.bufferSize = r.bufferSize := by
  unfold BinaryReader.readUint16
  split <;> rfl

@[simp] theorem bufferSize_readUint64 : r.readUint64.2.bufferSize = r.bufferSize := by
  unfold BinaryReader.readUint64
  split <;> rfl

theorem bufferSize_readData (h : r.readData n = some (s, r')) :
    r'.bufferSize = r.bufferSize ∧ n ≤ r.bufferSize := by
  unfold BinaryReader.readData at h
  split at h
  · cases h
  · cases h
    exact ⟨rfl, by omega⟩

theorem bufferSize_readHeader : (readHeader r).2.bufferSize = r.bufferSize := by
  simp only [readHeader]
  split <;> simp

theorem bufferSize_readPayload (h : readPayload inflate header r = some (payload, r')) :
    r'.bufferSize = r.bufferSize := by
  simp only [readPayload] at h
  split at h
  · obtain ⟨body, hb, he⟩ := Option.map_eq_some_iff.mp h
    have hr := (bufferSize_readData hb).1
    rw [bufferSize_readUint16] at hr
    exact (Prod.mk.inj he).2 ▸ hr
  · exact (bufferSize_readData h).1

theorem readPacket_signature_le (h : readPacket inflate 0 buffer = .packet p)
    (hs : p.signature.length = 64) : 64 ≤ buffer.length % 2 ^ 16 := by
  simp only [readPacket, readBody] at h
  split at h
  · cases h
  · split at h
    · cases h
    next payload r hp =>
      have hr := bufferSize_readPayload hp
      rw [bufferSize_readHeader, bufferSize_readUint8] at hr
      unfold readSignature at h
      split at h
      · split at h
        · cases h
        next hd =>
          have hle := (bufferSize_readData hd).2
          rw [hr] at hle
          exact hle
      · rw [← ReadOutcome.packet.inj h] at hs
        simp at hs

theorem Frame.readPacket_wrapped (f : Frame) (hc : f.isCompressed = false)
    (hp : f.signature.length + padding.length ≤ 66) (hl : 2 ^ 16 ≤ (f.bytes ++ padding).length)
    (h : readPacket inflate 0 (f.bytes ++ padding) = .packet p) : p.signature.length ≠ 64 := by
  intro hs
  have hle := readPacket_signature_le h hs
  have hbody := f.declared ▸ f.header.payloadLength.toNat_lt
  have hheader := f.header.length_bytes_le
  rw [f.bytes_append] at h hl hle
  have hlen : (f.header.bytes ++ (f.body ++ (f.signature ++ padding))).length =
      f.header.bytes.length + f.body.length + (f.signature.length + padding.length) := by
    simp only [List.length_append]
    omega
  -- the header is seen whole, the payload is not
  have hseen := seen_append (by omega :
    f.header.bytes.length ≤
      (f.header.bytes ++ (f.body ++ (f.signature ++ padding))).length % 2 ^ 16)
  obtain ⟨r, ha, hr⟩ := readPacket_header_at inflate f.proper hseen
  have hnone : readPayload inflate f.header r = none := by
    rw [readPayload, if_neg (by simpa [isCompressed] using hc)]
    refine ha.readData_short ?_
    rw [List.length_take, ← f.declared]
    omega
  rw [hr, readBody, hnone] at h
  cases h

section Cut
variable {r : BinaryReader} {h : Header}

theorem tail_bytes (h : Header) : ∃ rest, h.bytes.tail =
    h.type :: h.ttl :: split64 h.timestampMs ++
    (h.packetFlags :: split16 h.payloadLength ++ rest) := by
  refine ⟨split64 h.sender ++
    flagged (hasFlag h.packetFlags packetFlagHasRecipient) (split64 h.recipient), ?_⟩
  simp [Header.bytes]

/-- Of a header that breaks off before its timestamp is complete, a timestamp of
zero is read, and then a byte of the timestamp as flags. -/
theorem readHeader_cut_timestamp (ha : r.At ((h.type :: h.ttl :: split64 h.timestampMs).take j))
    (hj : j < 10)
    (ht : (readHeader r).1.timestampMs = h.timestampMs) : (readHeader r).1.packetFlags = 0 := by
  rcases j with _ | _ | j
  · have h₁ := ha.readUint8_nil
    have h₂ := ha.readUint64_short (by simp)
    simp only [readHeader, h₁, h₂]
  · obtain ⟨r₁, h₁, a₁⟩ := ha.readUint8
    have h₂ := a₁.readUint8_nil
    have h₃ := a₁.readUint64_short (by simp)
    simp only [readHeader, h₁, h₂, h₃]
  · obtain ⟨r₁, h₁, a₁⟩ := ha.readUint8
    obtain ⟨r₂, h₂, a₂⟩ := a₁.readUint8
    have h₃ := a₂.readUint64_short (by simp; omega)
    simp only [readHeader, h₁, h₂, h₃] at ht ⊢
    rw [← ht] at a₂
    cases j with
    | zero => rw [a₂.readUint8_nil]
    | succ j =>
      obtain ⟨r₄, h₄, -⟩ := a₂.readUint8
      rw [h₄]
      rfl

theorem readHeader_cut_length
    (ha : r.At (h.type :: h.ttl :: split64 h.timestampMs ++
      (h.packetFlags :: split16 h.payloadLength ++ rest).take j)) :
    (readHeader r).1.packetFlags = 0 ∨ (readHeader r).1.payloadLength = 0 ∨
      (readHeader r).1.payloadLength = h.payloadLength := by
  obtain ⟨r₁, h₁, a₁⟩ := ha.readUint8
  obtain ⟨r₂, h₂, a₂⟩ := a₁.readUint8
  obtain ⟨r₃, h₃, a₃⟩ := a₂.readUint64
  match j with
  | 0 =>
    left
    simp only [readHeader, h₁, h₂, h₃, a₃.readUint8_nil]
  | 1 | 2 =>
    right; left
    obtain ⟨r₄, h₄, a₄⟩ := a₃.readUint8
    simp only [readHeader, h₁, h₂, h₃, h₄, a₄.readUint16_short (by simp)]
  | j + 3 =>
    right; right
    obtain ⟨r₄, h₄, a₄⟩ := a₃.readUint8
    obtain ⟨r₅, h₅, -⟩ := BinaryReader.At.readUint16 a₄
    simp only [readHeader, h₁, h₂, h₃, h₄, h₅]

theorem readHeader_cut (ha : r.At (h.bytes.tail.take j))
    (ht : (readHeader r).1.timestampMs = h.timestampMs) :
    (readHeader r).1.packetFlags = 0 ∨ (readHeader r).1.payloadLength = 0 ∨
      (readHeader r).1.payloadLength = h.payloadLength := by
  obtain ⟨rest, hr⟩ := tail_bytes h
  rw [hr] at ha
  by_cases hj : j < 10
  · rw [List.take_append_of_le_length (by simpa using hj.le)] at ha
    exact .inl (readHeader_cut_timestamp ha hj ht)
  · obtain ⟨i, rfl⟩ : ∃ i, j = (h.type :: h.ttl :: split64 h.timestampMs).length + i :=
      ⟨j - 10, by simp; omega⟩
    rw [List.take_length_add_append] at ha
    exact readHeader_cut_length ha

end Cut

theorem readPacket_compressed_le (h : readPacket inflate 0 buffer = .packet p)
    (hc : hasFlag p.packetFlags packetFlagIsCompressed) :
    (p.payloadLength - 2).toNat ≤ buffer.length % 2 ^ 16 := by
  obtain ⟨-, -, r, hr⟩ := readPacket_header h
  simp only [readPayload, hc, if_true] at hr
  obtain ⟨body, hb, -⟩ := Option.map_eq_some_iff.mp hr
  have hle := (bufferSize_readData hb).2
  rwa [bufferSize_readUint16, bufferSize_readHeader, bufferSize_readUint8] at hle

theorem Frame.readPacket_compressed_empty (f : Frame) (hc : f.isCompressed) (hb : f.body.length < 2)
    (hl : (f.bytes ++ padding).length < 2 ^ 15) :
    readPacket inflate 0 (f.bytes ++ padding) ≠ .packet p := by
  intro h
  have hseen : seen (f.bytes ++ padding) = f.header.bytes ++
      (f.body ++ (f.signature ++ padding)) := by
    rw [seen_eq (by omega), f.bytes_append]
  have hp := readPacket_toHeader f.proper hseen h
  have hle := readPacket_compressed_le h (by rw [hp]; exact hc)
  rw [hp] at hle
  have hlong : 65534 ≤ (f.header.payloadLength - 2).toNat := by
    rw [UInt16.toNat_sub, ← f.declared, show (2 : UInt16).toNat = 2 from rfl]
    omega
  omega

theorem readPacket_cut {header : Header} (h : readPacket inflate 0 buffer = .packet p)
    (hs : seen buffer = header.bytes.take k) (ht : p.timestampMs = header.timestampMs) :
    p.packetFlags = 0 ∨ p.payloadLength = 0 ∨ p.payloadLength = header.payloadLength := by
  obtain ⟨hv, hp, -⟩ := readPacket_header h
  have ha := at_seen buffer
  rw [hs] at ha
  cases k with
  | zero =>
    rw [ha.readUint8_nil] at hv
    simp at hv
  | succ j =>
    have ha' : (BinaryReader.new 0 buffer).At (1 :: header.bytes.tail.take j) := ha
    obtain ⟨r, hr, har⟩ := ha'.readUint8
    simp only [hr] at hp
    have hcut := readHeader_cut har (by rw [← hp]; exact ht)
    rwa [← hp] at hcut

/-- A compressed frame is not recognised in an output that is too long for the
reader's size. -/
theorem Frame.readPacket_compressed_wrapped (f : Frame) (hc : f.isCompressed)
    (hs : f.signature = [])
    (hl : 2 ^ 16 ≤ (f.bytes ++ [0]).length) (h : readPacket inflate 0 (f.bytes ++ [0]) = .packet p)
    (ht : p.timestampMs = f.header.timestampMs) : p.packetFlags ≠ f.header.packetFlags := by
  intro hf
  have hle := readPacket_compressed_le h (hf ▸ hc)
  have hbody := f.declared ▸ f.header.payloadLength.toNat_lt
  have hheader := f.header.length_bytes_le
  rw [f.bytes_append, hs, List.nil_append] at h hl hle
  have hlen : (f.header.bytes ++ (f.body ++ [0])).length =
      f.header.bytes.length + f.body.length + 1 := by
    simp only [List.length_append, List.length_singleton]
    omega
  have hseen : seen (f.header.bytes ++ (f.body ++ [0])) =
      f.header.bytes.take ((f.header.bytes ++ (f.body ++ [0])).length % 2 ^ 16) :=
    List.take_append_of_le_length (by omega)
  -- so the declared length is not read, or it is longer than what is there
  rcases readPacket_cut h hseen ht with h₀ | h₀ | h₀
  · rw [isCompressed, ← hf, h₀] at hc
    exact absurd hc (by decide)
  · have hwrap : (p.payloadLength - 2).toNat = 65534 := by
      rw [h₀]
      rfl
    omega
  · have hlong : (p.payloadLength - 2).toNat = f.body.length - 2 := by
      rw [h₀, toNat_sub_two (by rw [← f.declared]; omega), ← f.declared]
    omega

end Size

-- ---------------------------------------------------------------------------
-- Writing
-- ---------------------------------------------------------------------------

def writtenHeader (base : PacketBase) (length : Nat) : Header :=
  { type := base.packetType, ttl := base.packetTtl - 1, timestampMs := base.packetTimestamp,
    packetFlags := base.packetFlags, payloadLength := UInt16.ofNat length,
    sender := base.packetSenderId, recipient := base.packetRecipientId }

theorem writePacket_eq {peers : Peers} {packet : Packet} {e : Bytes}
    (hw : ProtocolWriter.writePayload peers packet = some e) :
    ProtocolWriter.writePacket peers packet =
      some ((writtenHeader packet.base (min 65535 e.length)).bytes ++ e.take 65535 ++
        ProtocolWriter.writeSignature packet.base ++ [0]) := by
  have he : writeData e (min 65535 e.length) = e.take 65535 := by
    rw [writeData, Nat.mod_eq_of_lt (by omega)]
    simp
  rw [ProtocolWriter.writePacket, hw, Option.map_some]
  simp only [he, writeUint8, writeUint64_eq, writeUint16_eq, Header.bytes, writtenHeader, flagged,
    PacketBase.hasPacketRecipient, List.append_assoc, List.cons_append, List.nil_append]
  rfl

end BitchatRepeater
