import BitchatRepeater.EventLaws
import BitchatRepeater.PacketCodec

/-!
# What a relayed packet looks like

A packet that `processWrite` stores is written again by `writePacket`. For plain
packets the bytes stay as they were but for the ttl. For packets with a
signature and for compressed packets the writer and the reader do not agree, and
the results here say exactly what the next repeater still reads as it was.
-/

namespace BitchatRepeater

open Lib Tracker ProtocolProcessor BinaryWriter

variable {t u t' : Tracker} {packet : Packet} {p : Incoming}

-- ---------------------------------------------------------------------------
-- The packet that was stored
-- ---------------------------------------------------------------------------

/-- `processWrite` stores the buffer as new, and `packet` is the object stored. -/
def StoredAs (P : Platform) (ambient : Ambient) (t : Tracker) (origin : ConnPtr)
    (connection : BleConnection) (buffer : Bytes) (u : Tracker) (packet : Packet) : Prop :=
  ∃ a, processWrite P ambient t origin connection 0 buffer = (u, [.storedNew a origin]) ∧
    (a, packet) ∈ u.stored

theorem stores_of_storedNew
    (he : processWrite P ambient t origin connection offset buffer = (u, [.storedNew a origin]))
    (hm : (a, packet) ∈ u.stored) (hr : readPacket P.inflate offset buffer = .packet p) :
    ∃ t' a, Learns t t' ∧ Stores P origin p t t' a packet u := by
  have hcases := processWrite_cases P ambient t origin connection offset buffer
  rw [he, hr] at hcases
  rcases hcases with (hc | hc) | ⟨q, hq, ⟨-, hc⟩ | ⟨t', packet', hl, hs, ho⟩⟩
  · cases hc
  · cases hc
  · cases hc
  · cases hq
    cases ho
    have ha := (hs.receives hl).adds
    -- the address was free, so the object there is the new one
    have hpacket : packet' = packet := by
      rcases (ha.mem _).mp hm with hx | hx
      · exact (Prod.mk.inj hx).2.symm
      · exact absurd (List.mem_cons_of_mem _ (List.mem_map_of_mem hx)) ha.fresh
    exact ⟨t', _, hl, hpacket ▸ hs⟩

theorem StoredAs.stores (h : StoredAs P ambient t origin connection buffer u packet)
    (hr : readPacket P.inflate 0 buffer = .packet p) :
    ∃ t' a, Learns t t' ∧ Stores P origin p t t' a packet u := by
  obtain ⟨a, he, hm⟩ := h
  exact stores_of_storedNew he hm hr

theorem ProtocolProcessor.Stores.peers (h : Stores P origin p t t' a packet u) :
    u.peers = t'.peers := by
  obtain ⟨_, _, rfl⟩ := h.eq
  rfl

theorem ProtocolProcessor.Stores.base (h : Stores P origin p t t' a packet u) :
    packet.base = p.passAlong.toPacketBase := by
  cases h with
  | message hp hr hn =>
    refine (processMessage_base hr).trans ?_
    simp only [Incoming.message, Message.new, Incoming.passAlong, hp]
  | passAlong hp hl hn => rfl

theorem writePayload_passAlong {q : PacketPassAlong}
    (h : q.packetType ≠ PacketType.typeMessage.code) (peers : Peers) :
    ProtocolWriter.writePayload peers (.passAlong q) =
    some (writeData q.payload q.payload.length) := by
  unfold ProtocolWriter.writePayload
  split
  · rfl
  next hm => exact absurd (PacketType.code_of_ofCode? hm).symm h
  · rfl

theorem ProtocolProcessor.Stores.writePayload (h : Stores P origin p t t' a packet u)
    (hl : p.payload.length < 2 ^ 16) :
    (p.type = PacketType.typeMessage.code ∧ ∃ m,
      processMessage (checkSenderInPeers t.peers p.sender) p.message p.payload = (u.peers, some m) ∧
      ProtocolWriter.writePayload u.peers packet = ProtocolWriter.writeMessagePayload u.peers m) ∨
    (p.type ≠ PacketType.typeMessage.code ∧
      ProtocolWriter.writePayload u.peers packet = some p.payload) := by
  have hpeers := h.peers
  cases h with
  | message hp hr hn =>
    refine .inl ⟨hp, _, hpeers ▸ hr, ?_⟩
    have hb : (Packet.message _).base.packetType = PacketType.typeMessage.code :=
      (congrArg PacketBase.packetType (processMessage_base hr)).trans rfl
    simp only [ProtocolWriter.writePayload, hb, PacketType.ofCode?_code]
  | passAlong hp _ hn =>
    have hne : p.type ≠ PacketType.typeMessage.code := by
      obtain ⟨type, hc, hpass⟩ := hp
      rw [← hc]
      intro he
      cases PacketType.code_inj he
      cases hpass
    exact .inr ⟨hne, (writePayload_passAlong hne _).trans (congrArg some (writeData_length hl))⟩

def relayedHeader (h : Header) (length : Nat) : Header :=
  { h with ttl := h.ttl - 1, payloadLength := UInt16.ofNat length }

theorem ProtocolProcessor.Stores.writePacket {peers : Peers} (h : Stores P origin p t t' a packet u)
    (hw : ProtocolWriter.writePayload peers packet = some e) :
    ProtocolWriter.writePacket peers packet =
      some ((relayedHeader p.toHeader (min 65535 e.length)).bytes ++ e.take 65535 ++
        ProtocolWriter.writeSignature p.passAlong.toPacketBase ++ [0]) := by
  rw [writePacket_eq hw, h.base]
  rfl

theorem relayedHeader_length (f : Frame) :
    relayedHeader f.header f.body.length = { f.header with ttl := f.header.ttl - 1 } := by
  rw [relayedHeader, f.declared]
  simp

-- ---------------------------------------------------------------------------
-- What is written for a frame
-- ---------------------------------------------------------------------------

/-- The frame the next repeater finds in what is written for `f`, if its payload
comes out as `e`: the length byte counts as the first byte of the signature. -/
def Frame.relayed (f : Frame) (e : Bytes) : Frame where
  header := relayedHeader f.header (min 65535 e.length)
  body := e.take 65535
  signature := flagged f.isSigned (0x40 :: f.signature.take 63)
  proper := f.proper
  declared := by
    have hlt : min 65535 e.length < 2 ^ 16 := by omega
    simp [relayedHeader, UInt16.toNat_ofNat_of_lt' hlt]
  signed := by
    have hflag : hasFlag (relayedHeader f.header (min 65535 e.length)).packetFlags
        packetFlagHasSignature = f.isSigned := rfl
    rw [hflag, length_flagged]
    cases hf : f.isSigned with
    | true => simp [f.length_signature hf, flaggedLength]
    | false => rfl

def Frame.overhang (f : Frame) : Bytes := flagged f.isSigned (f.signature.drop 63) ++ [0]

theorem Frame.length_overhang (f : Frame) (e : Bytes) :
    (f.relayed e).signature.length + f.overhang.length = 1 + flaggedLength f.isSigned 65 := by
  cases hf : f.isSigned with
  | true => simp [relayed, overhang, hf, flagged, f.length_signature hf, flaggedLength]
  | false => simp [relayed, overhang, hf, flagged, flaggedLength]

theorem Frame.writeSignature_eq (f : Frame) (payload : Bytes) :
    ProtocolWriter.writeSignature (f.incoming payload).passAlong.toPacketBase ++ [0] =
      flagged f.isSigned (0x40 :: f.signature.take 63) ++ f.overhang := by
  unfold ProtocolWriter.writeSignature
  have hb : (f.incoming payload).passAlong.toPacketBase.hasPacketSignature = f.isSigned := rfl
  rw [hb]
  cases hf : f.isSigned with
  | true =>
    have hl := f.length_signature hf
    have hd : writeData f.signature 64 = f.signature := by
      rw [writeData]
      exact List.take_of_length_le (by omega)
    have hsplit : f.signature.take 63 ++ (f.signature.drop 63 ++ [0]) = f.signature ++ [0] := by
      rw [← List.append_assoc, List.take_append_drop]
    simp [incoming, Incoming.passAlong, hl, writeUint8, hd, overhang, hf, flagged, hsplit]
  | false => simp [overhang, hf, flagged]

theorem ProtocolProcessor.Stores.writePacket_frame {f : Frame} {peers : Peers}
    (h : Stores P origin (f.incoming payload) t t' a packet u)
    (hw : ProtocolWriter.writePayload peers packet = some e) :
    ProtocolWriter.writePacket peers packet = some ((f.relayed e).bytes ++ f.overhang) := by
  rw [h.writePacket hw, List.append_assoc, f.writeSignature_eq, ← List.append_assoc]
  rfl

theorem ProtocolProcessor.Stores.writePacket_some {f : Frame} {peers : Peers}
    (h : Stores P origin (f.incoming payload) t t' a packet u)
    (ho : ProtocolWriter.writePacket peers packet = some out) :
    ∃ e, ProtocolWriter.writePayload peers packet = some e ∧
    out = (f.relayed e).bytes ++ f.overhang := by
  cases hw : ProtocolWriter.writePayload peers packet with
  | none =>
    rw [ProtocolWriter.writePacket, hw] at ho
    cases ho
  | some e =>
    rw [h.writePacket_frame hw] at ho
    exact ⟨e, rfl, (Option.some.inj ho).symm⟩

theorem Frame.length_relayed (f : Frame) (e : Bytes) :
    ((f.relayed e).bytes ++ f.overhang).length =
      f.header.bytes.length + min 65535 e.length + 1 + flaggedLength f.isSigned 65 := by
  have hh : (f.relayed e).header.bytes.length = f.header.bytes.length := by
    rw [Header.length_bytes, Header.length_bytes]
    rfl
  have ho := f.length_overhang e
  have hb : (f.relayed e).body.length = min 65535 e.length := List.length_take
  rw [bytes_append]
  simp only [List.length_append, hh, hb]
  omega

-- ---------------------------------------------------------------------------
-- Plain packets
-- ---------------------------------------------------------------------------

/-- Packets that are passed along whatever their payload, and messages with a
canonical payload that is not encrypted. -/
def Relayable (type : UInt8) (payload : Bytes) : Prop :=
  (∃ t : PacketType, t.code = type ∧ t.passAlong) ∨
    (type = PacketType.typeMessage.code ∧
      ∃ w : WireMessage, w.encode = payload ∧ hasFlag w.flags 0x80 = false ∧ w.Canonical)

theorem Frame.length_body_lt (f : Frame) : f.body.length < 2 ^ 16 := by
  rw [f.declared]
  exact f.header.payloadLength.toNat_lt

/-- The payload of a stored frame is written as it was, unless it is that of a
message the writer would not produce. -/
theorem writePayload_iff {f : Frame} (hk : PeersKeyed t.peers)
    (hs : Stores P origin (f.incoming f.body) t t' a packet u) :
    ProtocolWriter.writePayload u.peers packet = some f.body ↔
      (f.header.type = PacketType.typeMessage.code → ∃ w : WireMessage, w.encode = f.body ∧
        w.Canonical) := by
  rcases hs.writePayload f.length_body_lt with ⟨hp, m, hm, hw⟩ | ⟨hne, hw⟩
  · rw [hw, writeMessagePayload_iff (hk.checkSenderInPeers _) (f.incoming f.body).fresh_message
      f.length_body_lt hm]
    exact ⟨fun h _ => h, fun h => h hp⟩
  · exact ⟨fun _ h => absurd h hne, fun _ => hw⟩

theorem Relayable.canonical (h : Relayable type payload) (hm : type = PacketType.typeMessage.code) :
    ∃ w : WireMessage, w.encode = payload ∧ w.Canonical := by
  rcases h with ⟨type', hc, hpass⟩ | ⟨-, w, he, -, hw⟩
  · cases PacketType.code_inj (hc.trans hm)
    cases hpass
  · exact ⟨w, he, hw⟩

/-- A plain packet goes out as it came in, with one hop less and a zero behind it. -/
theorem relay_transparent (P : Platform) (addr : Addr) (is : List Input) (ambient : Ambient)
    (origin : ConnPtr) (connection : BleConnection) (f : Frame) (padding : Bytes) (u : Tracker)
    (packet : Packet) (hl : (f.bytes ++ padding).length < 2 ^ 16) (hsigned : f.isSigned = false)
    (hcompressed : f.isCompressed = false) (hr : Relayable f.header.type f.body)
    (hs : StoredAs P ambient (run (step P) { announceAddr := addr } is).1 origin connection
      (f.bytes ++ padding) u packet) :
    ProtocolWriter.writePacket u.peers packet =
      some ({ f.header with ttl := f.header.ttl - 1 }.bytes ++ f.body ++ [0]) := by
  have hread := f.readPacket_plain hcompressed padding hl P.inflate
  obtain ⟨t', a, hlearns, hstores⟩ := hs.stores hread
  have hw := (writePayload_iff (peersKeyed_run P addr is) hstores).mpr hr.canonical
  have hmin : min 65535 f.body.length = f.body.length := by
    have := f.length_body_lt
    omega
  have htake : f.body.take 65535 = f.body :=
    List.take_of_length_le (by have := f.length_body_lt; omega)
  have hsig : ProtocolWriter.writeSignature (f.incoming f.body).passAlong.toPacketBase = [] :=
    if_neg (by rw [Bool.not_eq_true]; exact hsigned)
  rw [hstores.writePacket hw, hmin, htake, hsig, List.append_nil]
  exact congrArg (fun h => some (Header.bytes h ++ f.body ++ [0])) (relayedHeader_length f)

def fragmentFrame : Frame where
  header := { type := 5, ttl := 3, timestampMs := 0, packetFlags := 0,
              payloadLength := 1, sender := 7,
              recipient := 0 }
  body := [0x61]
  signature := []
  proper _ := rfl
  declared := by decide
  signed := by decide

def fragmentPacket : Packet := .passAlong (fragmentFrame.incoming [0x61]).passAlong

def afterFirst (P : Platform) (buffer : Bytes) : Tracker :=
  (processWrite P .idle { announceAddr := 1 } (.entry 1) {} 0 buffer).1

theorem relay_fragment :
    StoredAs .bare .idle { announceAddr := 1 } (.entry 1) {} (fragmentFrame.bytes ++ [0xFF])
      (afterFirst .bare (fragmentFrame.bytes ++ [0xFF])) fragmentPacket ∧
    ProtocolWriter.writePacket (afterFirst .bare (fragmentFrame.bytes ++ [0xFF])).peers
      fragmentPacket =
      some ({ fragmentFrame.header with ttl := 2 }.bytes ++ [0x61] ++ [0]) := by
  have hs : StoredAs .bare .idle { announceAddr := 1 } (.entry 1) {} (fragmentFrame.bytes ++ [0xFF])
      (afterFirst .bare (fragmentFrame.bytes ++ [0xFF])) fragmentPacket :=
    ⟨0, Prod.ext rfl (by decide +kernel), by decide +kernel⟩
  exact ⟨hs, relay_transparent .bare 1 [] .idle (.entry 1) {} fragmentFrame [0xFF] _ _
    (by decide) rfl rfl
    (.inl ⟨.typeFragmentStart, rfl, rfl⟩) hs⟩

-- ---------------------------------------------------------------------------
-- Signed packets
-- ---------------------------------------------------------------------------

/-- What is written for the packet is read with the type, the payload and the
signature of the frame. -/
def SignatureKept (inflate : Bytes → Option Bytes) (f : Frame) (peers : Peers)
    (packet : Packet) : Prop :=
  ∃ out p, ProtocolWriter.writePacket peers packet = some out ∧
  readPacket inflate 0 out = .packet p ∧
    p.type = f.header.type ∧ p.payload = f.body ∧ p.signature = f.signature

theorem cons_take_eq_iff {l : List α} (h : l.length = n + 1) :
    x :: l.take n = l ↔ l = List.replicate (n + 1) x := by
  induction n generalizing l x with
  | zero =>
    obtain ⟨y, rfl⟩ := List.length_eq_one_iff.mp h
    simp [eq_comm]
  | succ n ih =>
    obtain ⟨y, l, rfl⟩ := List.exists_cons_of_length_eq_add_one h
    rw [List.take_succ_cons, List.cons.injEq, ih (by simpa using h), List.replicate_succ,
      List.replicate_succ (n := n + 1), List.cons.injEq]
    constructor
    · rintro ⟨rfl, hl⟩
      exact ⟨rfl, hl⟩
    · rintro ⟨rfl, hl⟩
      exact ⟨rfl, hl⟩

/-- The signature of a stored packet survives if and only if it consists of the
byte that goes out as its length, the output fits the reader's size, and the
payload survives. -/
theorem signatureKept_iff (P : Platform) (inflate : Bytes → Option Bytes) (addr : Addr)
    (is : List Input) (ambient : Ambient) (origin : ConnPtr)
    (connection : BleConnection) (f : Frame)
    (padding : Bytes) (u : Tracker) (packet : Packet) (hl : (f.bytes ++ padding).length < 2 ^ 16)
    (hsigned : f.isSigned) (hcompressed : f.isCompressed = false)
    (hs : StoredAs P ambient (run (step P) { announceAddr := addr } is).1 origin connection
      (f.bytes ++ padding) u packet) :
    SignatureKept inflate f u.peers packet ↔
      f.signature = List.replicate 64 0x40 ∧ f.header.bytes.length + f.body.length + 66 < 2 ^ 16 ∧
      (f.header.type = PacketType.typeMessage.code →
        ∃ w : WireMessage, w.encode = f.body ∧ w.Canonical) := by
  have hread := f.readPacket_plain hcompressed padding hl P.inflate
  obtain ⟨t', a, hlearns, hstores⟩ := hs.stores hread
  have hpayload := writePayload_iff (peersKeyed_run P addr is) hstores
  have hlen (e : Bytes) : ((f.relayed e).bytes ++ f.overhang).length =
      f.header.bytes.length + min 65535 e.length + 66 := by
    rw [f.length_relayed, hsigned]
    rfl
  have hsig := cons_take_eq_iff (x := 0x40) (f.length_signature hsigned)
  have hbody := f.length_body_lt
  have hheader := f.header.length_bytes_le
  have hnext (e : Bytes) (hfit : f.header.bytes.length + min 65535 e.length + 66 < 2 ^ 16) :=
    (f.relayed e).readPacket_plain hcompressed f.overhang (by rw [hlen]; exact hfit) inflate
  have hrelayed (e : Bytes) : (f.relayed e).signature = 0x40 :: f.signature.take 63 :=
    if_pos hsigned
  constructor
  · rintro ⟨out, p, hw, hr, -, hp, hps⟩
    obtain ⟨e, he, rfl⟩ := hstores.writePacket_some hw
    have hfit : f.header.bytes.length + min 65535 e.length + 66 < 2 ^ 16 := by
      by_contra hfit
      refine (f.relayed e).readPacket_wrapped hcompressed ?_ ?_ hr ?_
      · rw [f.length_overhang, hsigned]
        rfl
      · rw [hlen]
        omega
      · rw [hps]
        exact f.length_signature hsigned
    rw [hnext e hfit] at hr
    cases hr
    have hef : e = f.body := by
      rw [← hp]
      exact (List.take_of_length_le (by omega)).symm
    subst hef
    exact ⟨hsig.mp ((hrelayed f.body).symm.trans hps), by omega, hpayload.mp he⟩
  · rintro ⟨hrep, hfit, hmessage⟩
    refine ⟨_, _, hstores.writePacket_frame (hpayload.mpr hmessage),
      hnext f.body (by omega), rfl, ?_, ?_⟩
    · exact List.take_of_length_le (by omega)
    · exact (hrelayed f.body).trans (hsig.mpr hrep)

def signedFrame (b : UInt8) : Frame where
  header := { type := 5, ttl := 3, timestampMs := 0, packetFlags := 2,
              payloadLength := 1, sender := 7,
              recipient := 0 }
  body := [0x61]
  signature := List.replicate 64 b
  proper _ := rfl
  declared := by decide
  signed := rfl

def signedPacket (b : UInt8) : Packet := .passAlong ((signedFrame b).incoming [0x61]).passAlong

theorem signatureKept_of_length_bytes :
    StoredAs .bare .idle { announceAddr := 1 } (.entry 1) {} ((signedFrame 0x40).bytes ++ [])
      (afterFirst .bare (signedFrame 0x40).bytes) (signedPacket 0x40) ∧
    SignatureKept (fun _ => none) (signedFrame 0x40)
      (afterFirst .bare (signedFrame 0x40).bytes).peers
      (signedPacket 0x40) := by
  have hs : StoredAs .bare .idle { announceAddr := 1 } (.entry 1) {}
    ((signedFrame 0x40).bytes ++ [])
      (afterFirst .bare (signedFrame 0x40).bytes) (signedPacket 0x40) :=
    ⟨0, Prod.ext rfl (by decide +kernel), by decide +kernel⟩
  exact ⟨hs, (signatureKept_iff .bare _ 1 [] .idle (.entry 1) {} (signedFrame 0x40) [] _ _
    (by decide) rfl
    rfl hs).mpr ⟨rfl, by decide, fun h => absurd h (by decide)⟩⟩

theorem zeroSignature_lost :
    StoredAs .bare .idle { announceAddr := 1 } (.entry 1) {} (signedFrame 0).bytes
      (afterFirst .bare (signedFrame 0).bytes) (signedPacket 0) ∧
    ¬ SignatureKept (fun _ => none) (signedFrame 0) (afterFirst .bare (signedFrame 0).bytes).peers
      (signedPacket 0) := by
  refine ⟨⟨0, Prod.ext rfl (by decide +kernel), by decide +kernel⟩, ?_⟩
  rintro ⟨out, p, hw, hr, -, -, hs⟩
  have hout : out = ((signedFrame 0).relayed [0x61]).bytes ++ [0, 0] := (Option.some.inj hw).symm
  subst hout
  have hp : p.signature = 0x40 :: List.replicate 63 0 := by
    cases hr
    rfl
  exact absurd (hp.symm.trans hs) (by decide)

-- ---------------------------------------------------------------------------
-- Compressed packets
-- ---------------------------------------------------------------------------

/-- What is written for the packet is read as the packet of the frame, with the
payload that was read from it. -/
def PayloadKept (inflate : Bytes → Option Bytes) (f : Frame) (payload : Bytes) (peers : Peers)
    (packet : Packet) : Prop :=
  ∃ out p, ProtocolWriter.writePacket peers packet = some out ∧
  readPacket inflate 0 out = .packet p ∧
    p.type = f.header.type ∧ p.timestampMs = f.header.timestampMs ∧
    p.packetFlags = f.header.packetFlags ∧ p.sender = f.header.sender ∧
    p.recipient = f.header.recipient ∧ p.payload = payload

/-- The payload as it is sent on: a message is read and written anew, any other
payload goes out as it is. -/
def ProtocolProcessor.Incoming.outgoing (p : Incoming) (peers : Peers) : Option Bytes :=
  if p.type = PacketType.typeMessage.code then
    let (peers, message) := processMessage (checkSenderInPeers peers p.sender) p.message p.payload
    message.bind (ProtocolWriter.writeMessagePayload peers)
  else some p.payload

theorem ProtocolProcessor.Stores.writePayload_outgoing (h : Stores P origin p t t' a packet u)
    (hl : p.payload.length < 2 ^ 16) :
    ProtocolWriter.writePayload u.peers packet = p.outgoing t.peers := by
  rcases h.writePayload hl with ⟨hp, m, hm, hw⟩ | ⟨hne, hw⟩
  · rw [hw, Incoming.outgoing, if_pos hp, hm]
    rfl
  · rw [hw, Incoming.outgoing, if_neg hne]

theorem length_decompressed_lt {z : Bytes} (hz : z.length < n) (hs : size < n) :
    (decompressed inflate z size).length < n := by
  unfold decompressed
  split
  next plain hp =>
    obtain ⟨-, hle⟩ := Option.filter_eq_some_iff.mp hp
    have hle := of_decide_eq_true hle
    split
    · omega
    · exact hz
  next => exact hz

theorem exists_split16 {e : Bytes} (h : 2 ≤ e.length) : ∃ size z, e = split16 size ++ z := by
  match e, h with
  | b₀ :: b₁ :: z, _ => exact ⟨join16 b₀ b₁, z, by rw [split16_join]; rfl⟩

/-- The payload goes out decompressed, under flags that call it compressed. It is
read as it was if and only if it is, as it goes out, a size and a body that
decompresses to it, and the output fits the reader's size. -/
theorem payloadKept_iff (P : Platform) (addr : Addr) (is : List Input) (ambient : Ambient)
    (origin : ConnPtr) (connection : BleConnection) (f : Frame) (size : UInt16) (z padding : Bytes)
    (u : Tracker) (packet : Packet) (hl : (f.bytes ++ padding).length < 2 ^ 16)
    (hsigned : f.isSigned = false) (hcompressed : f.isCompressed) (hb : f.body = split16 size ++ z)
    (hs : StoredAs P ambient (run (step P) { announceAddr := addr } is).1 origin connection
      (f.bytes ++ padding) u packet) :
    PayloadKept P.inflate f (decompressed P.inflate z size.toNat) u.peers packet ↔
      ∃ size' z', (f.incoming (decompressed P.inflate z size.toNat)).outgoing
          (run (step P) { announceAddr := addr } is).1.peers = some (split16 size' ++ z') ∧
        f.header.bytes.length + (z'.length + 2) + 1 < 2 ^ 16 ∧
        decompressed P.inflate z' size'.toNat = decompressed P.inflate z size.toNat := by
  have hread := f.readPacket_compressed hcompressed hb padding hl P.inflate
  obtain ⟨t', a, hlearns, hstores⟩ := hs.stores hread
  have hzlt : z.length < 2 ^ 16 := by
    have hbody := f.length_body_lt
    rw [hb, List.length_append] at hbody
    omega
  rw [← hstores.writePayload_outgoing (length_decompressed_lt hzlt size.toNat_lt)]
  have hlen (e : Bytes) : ((f.relayed e).bytes ++ f.overhang).length =
      f.header.bytes.length + min 65535 e.length + 1 := by
    rw [f.length_relayed, hsigned]
    rfl
  have hheader := f.header.length_bytes_le
  have hnil (e : Bytes) : (f.relayed e).signature = [] := if_neg (by simp [hsigned])
  have hover : f.overhang = [0] := by simp [Frame.overhang, hsigned, flagged]
  -- what the next repeater reads of an output that fits
  have hnext (size' : UInt16) (z' : Bytes) (hfit : f.header.bytes.length +
    (z'.length + 2) + 1 < 2 ^ 16) :
      readPacket P.inflate 0 ((f.relayed (split16 size' ++ z')).bytes ++ f.overhang) =
        .packet ((f.relayed (split16 size' ++ z')).incoming
          (decompressed P.inflate z' size'.toNat)) := by
    refine (f.relayed (split16 size' ++ z')).readPacket_compressed hcompressed ?_
      f.overhang ?_ P.inflate
    · exact List.take_of_length_le (by simp; omega)
    · rw [hlen, List.length_append, length_split16]
      omega
  constructor
  · rintro ⟨out, p, hw, hr, -, ht, hf, -, -, hp⟩
    obtain ⟨e, he, rfl⟩ := hstores.writePacket_some hw
    have hfit : f.header.bytes.length + min 65535 e.length + 1 < 2 ^ 16 := by
      by_contra hfit
      rw [hover] at hr
      refine (f.relayed e).readPacket_compressed_wrapped hcompressed (hnil e) ?_ hr ht hf
      rw [← hover, hlen]
      omega
    have htwo : 2 ≤ e.length := by
      by_contra htwo
      refine (f.relayed e).readPacket_compressed_empty hcompressed ?_ ?_ hr
      · exact (List.length_take_le' 65535 e).trans_lt (by omega)
      · rw [hlen]
        omega
    obtain ⟨size', z', rfl⟩ := exists_split16 htwo
    rw [List.length_append, length_split16] at hfit
    have hfit' : f.header.bytes.length + (z'.length + 2) + 1 < 2 ^ 16 := by omega
    rw [hnext size' z' hfit'] at hr
    exact ⟨size', z', he, hfit', (congrArg Incoming.payload (ReadOutcome.packet.inj hr)).trans hp⟩
  · rintro ⟨size', z', he, hfit, hz⟩
    exact ⟨_, _, hstores.writePacket_frame he, hnext size' z' hfit, rfl, rfl, rfl, rfl, rfl, hz⟩

def Platform.knowing (stream plain : Bytes) : Platform :=
  { Platform.bare with inflate := fun z => if z = stream then some plain else none }

def aStream : Bytes := [0x78, 0x01, 0x01, 0x01, 0x00, 0xFE, 0xFF, 0x61, 0x00, 0x62, 0x00, 0x62]

def abcStream : Bytes :=
  [0x78, 0x01, 0x01, 0x03, 0x00, 0xFC, 0xFF, 0x61, 0x62, 0x63, 0x02, 0x4D, 0x01, 0x27]

def zlibFrame (body : Bytes) (h : body.length < 2 ^ 16) : Frame where
  header := { type := 5, ttl := 3, timestampMs := 0, packetFlags := 4,
              payloadLength := UInt16.ofNat body.length, sender := 7, recipient := 0 }
  body := body
  signature := []
  proper _ := rfl
  declared := (UInt16.toNat_ofNat_of_lt' h).symm
  signed := (if_neg (by decide : ¬ hasFlag 4 packetFlagHasSignature)).symm

def aFrame : Frame := zlibFrame (split16 1 ++ aStream) (by decide)

def aPacket : Packet := .passAlong (aFrame.incoming [0x61]).passAlong

def abcFrame : Frame := zlibFrame (split16 3 ++ abcStream) (by decide)

def abcPacket : Packet := .passAlong (abcFrame.incoming [0x61, 0x62, 0x63]).passAlong

/-- A payload of one byte does not even leave room for a size. -/
theorem payload_a_lost :
    StoredAs (.knowing aStream [0x61]) .idle { announceAddr := 1 } (.entry 1) {}
      (aFrame.bytes ++ [])
      (afterFirst (.knowing aStream [0x61]) aFrame.bytes) aPacket ∧
    ¬ PayloadKept (Platform.knowing aStream [0x61]).inflate aFrame [0x61]
      (afterFirst (.knowing aStream [0x61]) aFrame.bytes).peers aPacket := by
  have hs : StoredAs (.knowing aStream [0x61]) .idle { announceAddr := 1 } (.entry 1) {}
    (aFrame.bytes ++ [])
      (afterFirst (.knowing aStream [0x61]) aFrame.bytes) aPacket :=
    ⟨0, Prod.ext rfl (by decide +kernel), by decide +kernel⟩
  refine ⟨hs, fun hk => ?_⟩
  obtain ⟨size', z', he, -, -⟩ :=
    (payloadKept_iff (.knowing aStream [0x61]) 1 [] .idle (.entry 1) {}
    aFrame 1 aStream [] _ _ (by decide) rfl rfl rfl hs).mp hk
  have hlen : 1 = z'.length + 2 := congrArg List.length (Option.some.inj he)
  omega

theorem payload_abc_lost :
    StoredAs (.knowing abcStream [0x61, 0x62, 0x63]) .idle { announceAddr := 1 } (.entry 1) {}
      abcFrame.bytes
      (afterFirst (.knowing abcStream [0x61, 0x62, 0x63]) abcFrame.bytes) abcPacket ∧
    ¬ PayloadKept (Platform.knowing abcStream [0x61, 0x62, 0x63]).inflate abcFrame
      [0x61, 0x62, 0x63]
      (afterFirst (.knowing abcStream [0x61, 0x62, 0x63]) abcFrame.bytes).peers abcPacket := by
  refine ⟨⟨0, Prod.ext rfl (by decide +kernel), by decide +kernel⟩, ?_⟩
  rintro ⟨out, p, hw, hr, -, -, -, -, -, hp⟩
  have hout : out = (abcFrame.relayed [0x61, 0x62, 0x63]).bytes ++ [0] := (Option.some.inj hw).symm
  subst hout
  have hc : p.payload = [0x63] := by
    cases hr
    rfl
  exact absurd (hc.symm.trans hp) (by decide)

end BitchatRepeater
