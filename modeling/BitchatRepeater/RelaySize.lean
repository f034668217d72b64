import BitchatRepeater.EncryptedContent
import BitchatRepeater.MessageGrammar
import BitchatRepeater.Relay

/-!
# The size of a relayed packet

A packet is not sent on as it came but written anew, with a zero behind it. What
goes out is as long as what came in without the bytes around the packet, but for
that zero, and for what the writer adds to a signature and to a compressed payload.
-/

namespace BitchatRepeater

open Lib Tracker ProtocolProcessor BinaryWriter

variable {t u t' : Tracker} {packet : Packet} {p : Incoming}

-- ---------------------------------------------------------------------------
-- What comes in
-- ---------------------------------------------------------------------------

def Frame.payload (f : Frame) (inflate : Bytes → Option Bytes) : Bytes :=
  if f.isCompressed then
    decompressed inflate (f.body.drop 2) (join16 (f.body.getD 0 0) (f.body.getD 1 0)).toNat
  else f.body

/-- No part of the packet breaks off. -/
structure Frame.Complete (f : Frame) (inflate : Bytes → Option Bytes) : Prop where
  size : f.isCompressed → 2 ≤ f.body.length
  message : f.header.type = PacketType.typeMessage.code → BeginsWithMessage (f.payload inflate)

-- a header that breaks off is stored, to be written in full
example : (processWrite .bare .idle { announceAddr := 1 } (.entry 1) {} 0 [1, 5, 3, 0]).2 =
    [.storedNew 0 (.entry 1)] := by
  decide +kernel

/-- What the writer may add. -/
def Frame.growth (f : Frame) (inflate : Bytes → Option Bytes) : Nat :=
  1 + flaggedLength f.isSigned 1 + ((f.payload inflate).length - f.body.length)

theorem Frame.growth_plain (f : Frame) (inflate : Bytes → Option Bytes) (hs : f.isSigned = false)
    (hc : f.isCompressed = false) : f.growth inflate = 1 := by
  simp [growth, payload, flaggedLength, hs, hc]

/-- `processWrite` stores what it finds at the offset as new, and `packet` is the object stored. -/
def StoredNew (P : Platform) (ambient : Ambient) (t : Tracker) (origin : ConnPtr)
    (connection : BleConnection) (offset : UInt16) (buffer : Bytes) (packet : Packet) : Prop :=
  ∃ u a, processWrite P ambient t origin connection offset buffer = (u, [.storedNew a origin]) ∧
    (a, packet) ∈ u.stored

theorem Frame.readPacket_complete {f : Frame} (hf : f.Complete inflate) (front padding : Bytes)
    (hl : (front ++ (f.bytes ++ padding)).length < 2 ^ 16) :
    readPacket inflate (UInt16.ofNat front.length) (front ++ (f.bytes ++ padding)) =
      .packet (f.incoming (f.payload inflate)) := by
  have hstart := BinaryReader.at_new_offset hl
  rw [f.bytes_append] at hstart
  obtain ⟨r, ha, hr⟩ := readPacket_at inflate f.proper hstart
  rw [f.bytes_append, hr]
  cases hc : f.isCompressed with
  | false =>
    rw [f.readBody_plain hc ha inflate, payload, hc]
    rfl
  | true =>
    obtain ⟨size, z, hb⟩ := exists_split16 (hf.size hc)
    have hpayload : f.payload inflate = decompressed inflate z size.toNat := by
      have hsize : join16 (f.body.getD 0 0) (f.body.getD 1 0) = size := by
        rw [hb]
        exact join16_split size
      rw [payload, if_pos hc, hsize, hb]
      rfl
    rw [f.readBody_compressed hc hb ha inflate, hpayload]

theorem Frame.length_payload (f : Frame) (inflate : Bytes → Option Bytes) :
    (f.payload inflate).length < 2 ^ 16 := by
  have hbody := f.length_body_lt
  unfold payload
  split
  · refine length_decompressed_lt ?_ (UInt16.toNat_lt _)
    rw [List.length_drop]
    omega
  · exact hbody

-- ---------------------------------------------------------------------------
-- Messages
-- ---------------------------------------------------------------------------

section Messages
variable {peers : Peers} {m m₀ : Message}

theorem length_writeMessagePayload (h : m.Sound)
    (hw : ProtocolWriter.writeMessagePayload peers m = some e) :
    e.length = m.writtenLength ∧ (m.hasSenderPeerID → m.senderPeer.isSome) := by
  by_cases hf : m.hasSenderPeerID
  · cases hid : ProtocolWriter.senderPeerId peers m with
    | none =>
      simp [ProtocolWriter.writeMessagePayload, ProtocolWriter.writeSenderPeer, hf, hid] at hw
    | some id =>
      rw [writeMessagePayload_eq h _ (writeSenderPeer_eq fun _ => hid)] at hw
      obtain rfl := Option.some.inj hw
      refine ⟨length_toWire h id, fun _ => ?_⟩
      cases hp : m.senderPeer with
      | none => simp [ProtocolWriter.senderPeerId, hp] at hid
      | some _ => rfl
  · rw [writeMessagePayload_eq h (peerText 0) (writeSenderPeer_eq fun h => absurd h hf)] at hw
    obtain rfl := Option.some.inj hw
    exact ⟨length_toWire h 0, fun h => absurd h hf⟩

end Messages

theorem BeginsWithMessage.length_written {payload : Bytes} {peers ps ps' : Peers} {m m₀ : Message}
    (h : BeginsWithMessage payload) (hl : payload.length < 2 ^ 16) (hm : m₀.Fresh)
    (hr : processMessage ps m₀ payload = (ps', some m))
    (hw : ProtocolWriter.writeMessagePayload peers m = some e) : e.length ≤ payload.length := by
  obtain ⟨w, rest, rfl⟩ := h
  obtain ⟨hlen, hp⟩ := length_writeMessagePayload (processMessage_sound hm hr).1 hw
  rw [processMessage_encode_append w rest hl] at hr
  cases hr
  have hle := w.writtenLength_le hm hp
  rw [hlen, List.length_append]
  exact hle.trans (Nat.le_add_right _ _)

-- ---------------------------------------------------------------------------
-- What goes out
-- ---------------------------------------------------------------------------

theorem ProtocolProcessor.Stores.length_writePayload {peers : Peers}
    (h : Stores P origin p t t' a packet u) (hl : p.payload.length < 2 ^ 16)
    (hc : p.type = PacketType.typeMessage.code → BeginsWithMessage p.payload)
    (hw : ProtocolWriter.writePayload peers packet = some e) : e.length ≤ p.payload.length := by
  cases h with
  | message hp hr hn =>
    have hb : (Packet.message _).base.packetType = PacketType.typeMessage.code :=
      (congrArg PacketBase.packetType (processMessage_base hr)).trans rfl
    simp only [ProtocolWriter.writePayload, hb, PacketType.ofCode?_code] at hw
    exact (hc hp).length_written hl p.fresh_message hr hw
  | passAlong hp _ hn =>
    have hne : p.type ≠ PacketType.typeMessage.code := by
      obtain ⟨type, hc, hpass⟩ := hp
      rw [← hc]
      intro he
      cases PacketType.code_inj he
      cases hpass
    rw [writePayload_passAlong hne] at hw
    cases hw
    exact List.length_take_le' _ _

theorem assertFailed_send (h : .assertFailed ∈
    (t.sendPacketToConnection a packet target connection).2) :
    ∃ out, ProtocolWriter.writePacket t.peers packet = some out ∧
    connection.btMtu.toNat < out.length := by
  unfold sendPacketToConnection at h
  split at h
  · simp at h
  next out hw =>
    refine ⟨out, hw, ?_⟩
    by_contra hle
    simp [hle] at h

/-- What goes out for a packet that came in complete is no longer than the buffer it
came in, without the bytes around the packet but with those the writer may add: with
neither a signature nor compression that is one. A connection with an MTU as large
takes it without the assertion failing. -/
theorem relay_size_le (P : Platform) (ambient : Ambient) (t : Tracker) (origin : ConnPtr)
    (connection : BleConnection) (front padding : Bytes) (f : Frame) (packet : Packet)
    (hl : (front ++ (f.bytes ++ padding)).length < 2 ^ 16) (hf : f.Complete P.inflate)
    (hs : StoredNew P ambient t origin connection (UInt16.ofNat front.length)
      (front ++ (f.bytes ++ padding)) packet) :
    (∀ peers out, ProtocolWriter.writePacket peers packet = some out →
      out.length + (front.length + padding.length) ≤
        (front ++ (f.bytes ++ padding)).length + f.growth P.inflate) ∧
    ∀ (later : Tracker) (a : Addr) (target : ConnPtr) (c : BleConnection),
      (front ++ (f.bytes ++ padding)).length + f.growth P.inflate ≤
        c.btMtu.toNat + (front.length + padding.length) →
      .assertFailed ∉ (later.sendPacketToConnection a packet target c).2 := by
  obtain ⟨u, a, he, hm⟩ := hs
  obtain ⟨t', _, -, hstores⟩ :=
    stores_of_storedNew he hm (Frame.readPacket_complete hf front padding hl)
  have hsize (peers : Peers) (out : Bytes) (ho : ProtocolWriter.writePacket peers packet =
    some out) :
      out.length + (front.length + padding.length) ≤
        (front ++ (f.bytes ++ padding)).length + f.growth P.inflate := by
    obtain ⟨e, hw, rfl⟩ := hstores.writePacket_some ho
    have he : e.length ≤ (f.payload P.inflate).length :=
      hstores.length_writePayload (f.length_payload P.inflate) hf.message hw
    have hsigned : flaggedLength f.isSigned 65 =
        f.signature.length + flaggedLength f.isSigned 1 := by
      rw [f.signed]
      cases hg : f.isSigned <;> simp_all [Frame.isSigned, flaggedLength]
    rw [f.length_relayed, hsigned, Frame.growth, f.bytes_append]
    simp only [List.length_append]
    omega
  refine ⟨hsize, fun later a target c hfit hassert => ?_⟩
  obtain ⟨out, ho, hlong⟩ := assertFailed_send hassert
  have hle := hsize later.peers out ho
  omega

/-- One byte of padding makes room for the zero. -/
theorem padded_no_longer :
    StoredNew .bare .idle { announceAddr := 1 } (.entry 1) {} 0 (fragmentFrame.bytes ++ [0xFF])
      fragmentPacket ∧
    (∀ peers out, ProtocolWriter.writePacket peers fragmentPacket = some out →
      out.length ≤ (fragmentFrame.bytes ++ [0xFF]).length) ∧
    ∀ (later : Tracker) (a : Addr) (target : ConnPtr) (c : BleConnection),
      (fragmentFrame.bytes ++ [0xFF]).length ≤ c.btMtu.toNat →
      .assertFailed ∉ (later.sendPacketToConnection a fragmentPacket target c).2 := by
  have hs : StoredNew .bare .idle { announceAddr := 1 } (.entry 1) {} 0
    (fragmentFrame.bytes ++ [0xFF])
      fragmentPacket :=
    ⟨afterFirst .bare (fragmentFrame.bytes ++ [0xFF]), 0,
      Prod.ext rfl (by decide +kernel), by decide +kernel⟩
  have hfragment : fragmentFrame.Complete Platform.bare.inflate :=
    ⟨fun h => absurd h (by decide), fun h => absurd h (by decide)⟩
  obtain ⟨hsize, hassert⟩ := relay_size_le .bare .idle { announceAddr := 1 } (.entry 1) {} [] [0xFF]
    fragmentFrame fragmentPacket (by decide) hfragment hs
  rw [fragmentFrame.growth_plain _ rfl rfl] at hsize hassert
  exact ⟨hs, fun peers out ho => Nat.le_of_succ_le_succ (hsize peers out ho),
    fun later a target c hfit => hassert later a target c (Nat.succ_le_succ hfit)⟩

/-- Without padding, the zero is one byte too many. -/
theorem unpadded_outgrows :
    StoredNew .bare .idle (run (step .bare) { announceAddr := 1 } []).1 (.entry 1) {} 0
      fragmentFrame.bytes
      fragmentPacket ∧
    (∃ out, ProtocolWriter.writePacket (afterFirst .bare fragmentFrame.bytes).peers fragmentPacket =
      some out ∧
      out.length = fragmentFrame.bytes.length + 1) ∧
    .assertFailed ∈ ((afterFirst .bare fragmentFrame.bytes).sendPacketToConnection 0
      fragmentPacket (.entry 1)
      { btMtu := UInt16.ofNat fragmentFrame.bytes.length }).2 := by
  refine ⟨⟨afterFirst .bare fragmentFrame.bytes, 0,
    Prod.ext rfl (by decide +kernel), by decide +kernel⟩,
    ⟨_, rfl, by decide +kernel⟩, by decide +kernel⟩

end BitchatRepeater
