import BitchatRepeater.PacketIdentity
import BitchatRepeater.MessageRoundTrip

/-!
# No content is altered

On its way a packet is taken apart, kept as an object and written anew at every
repeater, and a message is taken apart to its fields. The text of the sender peer
may come out other than it went in, and so may the length of the payload. What
the packet says does not change: in a network of any topology, whatever is stored
or under way says what some packet from outside, some life check or some announce
said. That is so for packets that are not compressed, and messages that are not
encrypted; of an encrypted message the content is lost.
-/

namespace BitchatRepeater

open Lib Tracker ProtocolProcessor

variable {P : Platform} {p : Incoming} {packet : Packet} {peers ps : Peers} {m m' : Message}
    {payload data : Bytes}

-- ---------------------------------------------------------------------------
-- What packets say
-- ---------------------------------------------------------------------------

/-- The fields of a message that its flags show. -/
@[ext] structure Said where
  flags : UInt8
  timestamp : UInt64
  id : Bytes
  sender : Bytes
  content : Bytes
  originalSender : Bytes
  recipient : Bytes
  senderPeer : Option UInt64
  mentions : List Bytes
  channel : Bytes
  deriving DecidableEq, Repr

def Message.said (m : Message) : Said where
  flags := m.messageFlags
  timestamp := m.messageTimestamp
  id := m.messageId
  sender := m.senderNickname
  content := m.content
  originalSender := flagged m.hasOriginalSender m.originalSenderNickname
  recipient := flagged m.hasRecipientNickname m.recipientNickname
  senderPeer := if m.hasSenderPeerID then m.senderPeer else none
  mentions := if m.hasMentions then m.mentions else []
  channel := flagged m.hasChannel m.channel

inductive Contents
  | payload (bytes : Bytes)
  | message (said : Said)
  deriving DecidableEq, Repr

structure Letter where
  identity : Identity
  contents : Contents
  deriving DecidableEq, Repr

def Packet.contents : Packet → Contents
  | .announce a => .payload a.name
  | .passAlong p => .payload p.payload
  | .message m => .message m.said

def Packet.letter (packet : Packet) : Letter := ⟨packet.base.identity, packet.contents⟩

/-- What a repeater makes of the payload, unless it is of a message that it does not accept. -/
def ProtocolProcessor.Incoming.contents? (p : Incoming) : Option Contents :=
  if p.type = PacketType.typeMessage.code then
    (processMessage .empty p.message p.payload).2.map fun m => .message m.said
  else some (.payload p.payload)

def ProtocolProcessor.Incoming.letter? (p : Incoming) : Option Letter :=
  p.contents?.map (⟨p.toHeader.identity, ·⟩)

def Packet.Fits : Packet → Prop
  | .announce a => a.name.length < 2 ^ 16
  | .passAlong p => p.payload.length < 2 ^ 16
  | .message m => m.Sound

/-- Not compressed, and no encrypted message. -/
structure Letter.Plain (l : Letter) : Prop where
  uncompressed : hasFlag l.identity.packetFlags packetFlagIsCompressed = false
  unencrypted : ∀ said, l.contents = .message said → hasFlag said.flags 0x80 = false

-- ---------------------------------------------------------------------------
-- Reading
-- ---------------------------------------------------------------------------

theorem Parsed.letter (h : Parsed p packet) : p.letter? = some packet.letter := by
  have hidentity := h.identity
  cases h with
  | @message m peers hp hm =>
    rw [processMessage_peers peers .empty] at hm
    rw [Incoming.letter?, Incoming.contents?, if_pos hp, hm, Packet.letter, hidentity]
    rfl
  | @passAlong type hc hp =>
    have hno : p.type ≠ PacketType.typeMessage.code := by
      rw [← hc]
      intro h
      rw [PacketType.code_inj h] at hp
      cases hp
    rw [Incoming.letter?, Incoming.contents?, if_neg hno, Packet.letter, hidentity]
    rfl

theorem length_readPayload (h : readPayload inflate header r = some (payload, r')) :
    payload.length < 2 ^ 16 := by
  unfold readPayload at h
  split at h
  · obtain ⟨body, hbody, he⟩ := Option.map_eq_some_iff.mp h
    obtain ⟨rfl, -⟩ := Prod.mk.inj he
    have hlength := lt_of_le_of_lt (length_readData hbody) (UInt16.toNat_lt _)
    unfold decompressed
    split
    next plain hplain =>
      have hsize := of_decide_eq_true (Option.filter_eq_some_iff.mp hplain).2
      split
      · exact lt_of_le_of_lt hsize (UInt16.toNat_lt _)
      · exact hlength
    next => exact hlength
  · exact lt_of_le_of_lt (length_readData h) header.payloadLength.toNat_lt

theorem Parsed.fits (h : Parsed p packet) (hr : readPacket inflate offset buffer = .packet p) :
    packet.Fits := by
  cases h with
  | message _ hm => exact (processMessage_sound p.fresh_message (Prod.ext rfl hm)).1
  | passAlong _ _ =>
    obtain ⟨-, -, r, hread⟩ := readPacket_header hr
    exact length_readPayload hread

theorem payload_of_readBody (hp : readPayload inflate header r = some (payload, r'))
    (hb : readBody inflate header r = .packet p) : p.payload = payload := by
  rw [readBody, hp] at hb
  simp only [readSignature] at hb
  split at hb
  · split at hb
    · cases hb
    · cases hb
      rfl
  · cases hb
    rfl

-- ---------------------------------------------------------------------------
-- Messages
-- ---------------------------------------------------------------------------

theorem Message.Sound.writable (h : m.Sound)
    (hw : ProtocolWriter.writeMessagePayload peers m = some payload) : m.Writable peers where
  id := Nat.le_of_lt_succ h.id
  sender := Nat.le_of_lt_succ h.sender
  content := Nat.le_of_lt_succ h.content
  originalSender _ := Nat.le_of_lt_succ h.originalSender
  recipient _ := Nat.le_of_lt_succ h.recipient
  senderPeer hf := by
    obtain ⟨senderPeer, hs, -⟩ := Option.map_eq_some_iff.mp hw
    rw [ProtocolWriter.writeSenderPeer, if_pos hf] at hs
    obtain ⟨id, hid, -⟩ := Option.map_eq_some_iff.mp hs
    exact ⟨id, hid⟩
  mentions _ := Nat.le_of_lt_succ h.mentions
  mention _ s hs := Nat.le_of_lt_succ (h.mention s hs)
  channel _ := Nat.le_of_lt_succ h.channel

theorem senderPeer_of_id {id : UInt64} (hk : PeersKeyed peers)
    (h : ProtocolWriter.senderPeerId peers m = some id) :
    m.senderPeer = some id := by
  obtain ⟨peer, hpeer, rfl⟩ := Option.map_eq_some_iff.mp h
  obtain ⟨key, hkey, hget⟩ := Option.bind_eq_some_iff.mp hpeer
  rw [hkey, hk key peer hget]

theorem SaysTheSame.said (h : SaysTheSame peers m ps m') (hk : PeersKeyed peers)
    (hks : PeersKeyed ps)
    (hid : m.hasSenderPeerID → ∃ id, ProtocolWriter.senderPeerId peers m = some id) :
    m'.said = m.said := by
  have hflag (mask : UInt8) : hasFlag m'.messageFlags mask = hasFlag m.messageFlags mask := by
    rw [h.flags]
  have hshown (flag : Bool) {s s' : Bytes} (hs : flag → s' = s) :
      flagged flag s' = flagged flag s := by
    cases flag with
    | true => exact hs rfl
    | false => rfl
  apply Said.ext
  · exact h.flags
  · exact h.timestamp
  · exact h.id
  · exact h.sender
  · exact h.content
  · exact (congrArg (flagged · _) (hflag 0x04)).trans (hshown m.hasOriginalSender h.originalSender)
  · exact (congrArg (flagged · _) (hflag 0x08)).trans (hshown m.hasRecipientNickname h.recipient)
  · have hsame : m'.hasSenderPeerID = m.hasSenderPeerID := hflag 0x10
    simp only [Message.said, hsame]
    split
    next hf =>
      obtain ⟨id, hpeer⟩ := hid hf
      rw [senderPeer_of_id hk hpeer, senderPeer_of_id hks ((h.senderPeer hf).trans hpeer)]
    next => rfl
  · have hsame : m'.hasMentions = m.hasMentions := hflag 0x20
    simp only [Message.said, hsame]
    split
    next hf => exact h.mentions hf
    next => rfl
  · exact (congrArg (flagged · _) (hflag 0x40)).trans (hshown m.hasChannel h.channel)

theorem said_again (hs : m.Sound) (he : hasFlag m.messageFlags 0x80 = false) (hk : PeersKeyed peers)
    (hw : ProtocolWriter.writeMessagePayload peers m = some payload) (hl : payload.length < 2 ^ 16)
    (p : Incoming) :
    ∃ m', (processMessage .empty p.message payload).2 = some m' ∧ m'.said = m.said := by
  have hplain : ¬ m.isEncrypted := by
    rw [Message.isEncrypted, he]
    exact Bool.false_ne_true
  have hwritable := hs.writable hw
  obtain ⟨id, hid⟩ := hwritable.exists_id
  rw [hwritable.written hplain hid] at hw
  have hwire := Option.some.inj hw
  rw [← hwire] at hl ⊢
  rw [processMessage_encode _ hl]
  refine ⟨_, rfl, (saysTheSame_toMessage (hwritable.sound_shown hplain) hplain hid
    peersKeyed_empty p).said hk ?_
    hwritable.senderPeer⟩
  unfold WireMessage.learnPeer
  split
  · exact peersKeyed_empty.checkSenderInPeers _
  · exact peersKeyed_empty

-- ---------------------------------------------------------------------------
-- Packets
-- ---------------------------------------------------------------------------

theorem writePayload_cases (hfits : packet.Fits)
    (h : ProtocolWriter.writePayload peers packet = some payload) :
    (packet.base.packetType ≠ PacketType.typeMessage.code ∧ packet.contents = .payload payload) ∨
      ∃ m, packet = .message m ∧ packet.base.packetType = PacketType.typeMessage.code ∧
        ProtocolWriter.writeMessagePayload peers m = some payload := by
  have hno (t : Option PacketType) (ht : t ≠ some .typeMessage)
      (hc : PacketType.ofCode? packet.base.packetType = t) :
      packet.base.packetType ≠ PacketType.typeMessage.code := by
    intro hm
    rw [hm, PacketType.ofCode?_code] at hc
    exact ht hc.symm
  unfold ProtocolWriter.writePayload at h
  split at h
  next hc =>
    obtain ⟨name, hname, hdata⟩ := Option.map_eq_some_iff.mp h
    refine .inl ⟨hno _ (by decide) hc, ?_⟩
    cases packet with
    | message m => cases hname
    | _ =>
      cases hname
      rw [BinaryWriter.writeData_length hfits] at hdata
      rw [← hdata]
      rfl
  next hc =>
    cases packet with
    | message m => exact .inr ⟨m, rfl, (PacketType.code_of_ofCode? hc).symm, h⟩
    | _ => cases h
  next hannounce hmessage =>
    obtain ⟨held, hheld, hdata⟩ := Option.map_eq_some_iff.mp h
    refine .inl ⟨hno _ (fun hm => hmessage hm) rfl, ?_⟩
    cases packet with
    | passAlong p =>
      cases hheld
      rw [BinaryWriter.writeData_length hfits] at hdata
      rw [← hdata]
      rfl
    | _ => cases hheld

/-- What is written for a packet and can be read says what the packet says. -/
theorem letter_written (hk : PeersKeyed peers) (hproper : packet.base.identity.Proper)
    (hplain : packet.letter.Plain)
    (hfits : packet.Fits) (hw : ProtocolWriter.writePacket peers packet = some data)
    (hl : data.length < 2 ^ 16) (hr : readPacket inflate 0 data = .packet p) :
    p.letter? = some packet.letter := by
  have hidentity := identity_written hproper hw hl hr
  obtain ⟨e, he, -⟩ := Option.map_eq_some_iff.mp hw
  have hheader : (writtenHeader packet.base e.length).Proper := hproper
  rw [writePacket_eq he] at hw
  have hdata := (Option.some.inj hw).symm
  have hfit : e.length < 2 ^ 16 := by
    have hlength := congrArg List.length hdata
    simp only [List.length_append, List.length_take, List.length_singleton] at hlength
    omega
  rw [List.take_of_length_le (Nat.le_of_lt_succ hfit),
    Nat.min_eq_right (Nat.le_of_lt_succ hfit)] at hdata
  have hseen : seen data = (writtenHeader packet.base e.length).bytes ++
      (e ++ (ProtocolWriter.writeSignature packet.base ++ [0])) := by
    rw [seen_eq hl, hdata]
    simp only [List.append_assoc]
  -- the payload is read as it was written
  obtain ⟨r, ha, hbody⟩ := readPacket_header_at inflate hheader hseen
  obtain ⟨r', hread, -⟩ := ha.readData
  have hlength : (writtenHeader packet.base e.length).payloadLength.toNat = e.length :=
    UInt16.toNat_ofNat_of_lt hfit
  have hplainly : readPayload inflate (writtenHeader packet.base e.length) r = some (e, r') := by
    have hflag :
        hasFlag (writtenHeader packet.base e.length).packetFlags packetFlagIsCompressed = false :=
      hplain.uncompressed
    rw [readPayload, hflag, hlength, hread]
    rfl
  have hpayload : p.payload = e := payload_of_readBody hplainly (hbody ▸ hr)
  have htype : p.type = packet.base.packetType := congrArg Identity.type hidentity
  rw [Incoming.letter?, Packet.letter, hidentity, Incoming.contents?, htype, hpayload]
  rcases writePayload_cases hfits he with ⟨hno, hcontents⟩ | ⟨m, rfl, hmessage, hm⟩
  · rw [if_neg hno, hcontents]
    rfl
  · obtain ⟨m', hagain, hsaid⟩ := said_again hfits (hplain.unencrypted _ rfl) hk hm hfit p
    rw [if_pos hmessage, hagain, Option.map_some, hsaid]
    rfl

theorem sound_stillAliveMessage (P : Platform) (timestampMs : UInt64) :
    (stillAliveMessage P timestampMs).Sound where
  id := Nat.lt_of_le_of_lt (Nat.le_of_eq rfl) (by decide : 21 < 256)
  sender := Nat.lt_of_le_of_lt (Nat.le_of_eq rfl) (by decide : 12 < 256)
  content := Nat.lt_of_le_of_lt (Nat.le_of_eq rfl) (by decide : 18 < 2 ^ 16)
  encrypted he := absurd he (by decide : ¬ hasFlag 0 0x80)
  originalSender := Nat.zero_lt_succ 255
  recipient := Nat.zero_lt_succ 255
  mention := List.forall_mem_nil _
  mentions := Nat.zero_lt_succ 255
  channel := Nat.zero_lt_succ 255

-- ---------------------------------------------------------------------------
-- The network
-- ---------------------------------------------------------------------------

section Networks
variable {ι : Type} {P : ι → Platform} {good : Letter → Prop}

theorem upholds_letter (hplain : ∀ l, good l → l.Plain)
    (hown : ∀ n now, good (Packet.message (stillAliveMessage (P n) now)).letter) :
    Upholds P (fun p => ∀ l ∈ p.letter?, good l) (fun p => ∃ l, p.letter? = some l ∧ good l)
      fun packet => good packet.letter ∧ packet.base.identity.Proper ∧ packet.Fits where
  sent_ok p h l hl := by
    obtain ⟨l', hl', hgood⟩ := h
    rw [hl'] at hl
    exact Option.some.inj hl ▸ hgood
  parsed inflate offset buffer p packet hr hok hp := by
    refine ⟨hok _ hp.letter, ?_, hp.fits hr⟩
    rw [hp.identity]
    exact proper_readPacket hr
  own n now := ⟨hown n now, fun _ => rfl, sound_stillAliveMessage (P n) now⟩
  written peers packet data inflate p hk h hw hl hr :=
    ⟨_, letter_written hk h.2.1 (hplain _ h.1) h.2.2 hw hl hr, h.1⟩

/-- In every network: whatever is true of what all packets from outside, life
checks and announces say, and only of packets that are not compressed and messages
that are not encrypted, is true of what the packets say that are stored anywhere,
and every packet that can be read of the data under way is understood and says
what it is true of. -/
theorem no_content_altered [DecidableEq ι] (P : ι → Platform) (addr : ι → Addr)
    (good : Letter → Prop) (N : Network ι) (hplain : ∀ l, good l → l.Plain)
    (hown : ∀ n now, good (Packet.message (stillAliveMessage (P n) now)).letter)
    (hannounce : ∀ n timestampMs, good (Packet.announce (ownAnnounce (P n) timestampMs)).letter)
    (h : Relation.ReflTransGen (Network.GoodStep P fun p => ∀ l ∈ p.letter?,
      good l) (.initial addr) N) :
    (∀ n a packet, (a, packet) ∈ (N.repeater n).tracker.stored → good packet.letter) ∧
      ∀ f ∈ N.flights, f.bytes.length < 2 ^ 16 → ∀ inflate p,
        readPacket inflate 0 f.bytes = .packet p → ∃ l, p.letter? = some l ∧ good l := by
  have hgood := good_run (upholds_letter hplain hown) (fun n timestampMs =>
    ⟨hannounce n timestampMs, fun _ => rfl, Nat.lt_of_le_of_lt (Nat.le_of_eq rfl)
      (by decide : 12 < 2 ^ 16)⟩) h
  exact ⟨fun n a packet hm => (hgood.stored n a packet hm).1, hgood.flights⟩

end Networks

def helloPayload (digits : String) : Bytes :=
  [0x10] ++ List.replicate 8 0 ++ [1, 0x31, 1, 0x61, 0, 2, 0x68, 0x69, 16] ++ ascii digits

def helloFrom (ttl : UInt8) (digits : String) : Bytes :=
  [1, 4, ttl] ++ List.replicate 9 0 ++ [0, 34] ++ List.replicate 8 0 ++ helloPayload digits

def helloIncoming : Incoming :=
  { type := 4, ttl := 3, timestampMs := 0, packetFlags := 0, payloadLength := 34, sender := 0,
    recipient := 0, payload := helloPayload "0000000000ABCDEF", signature := [] }

def helloRelay : List Event :=
  twoClients ++ [.attWrite 1 false .value 0 (helloFrom 3 "0000000000ABCDEF"), .sendPackets]

def SaysHello (l : Letter) : Prop :=
  l.Plain ∧ ∀ said, l.contents = .message said → said.flags = 0x10 →
    said.senderPeer = some 0xABCDEF ∧ said.content = [0x68, 0x69]

theorem saysHello_helloRelay (he : e ∈ helloRelay) (harr : Arrives ⟨e, .idle⟩ origin offset buffer)
    (hr : readPacket Platform.bare.inflate offset buffer = .packet p) (hl : p.letter? = some l) :
    SaysHello l := by
  have hread : readPacket Platform.bare.inflate 0 (helloFrom 3 "0000000000ABCDEF") =
      .packet helloIncoming := by
    decide +kernel
  have hletter : helloIncoming.letter? = some ⟨⟨4, 0, 0, 0, 0⟩, .message
      { flags := 0x10, timestamp := 0, id := [0x31], sender := [0x61], content := [0x68, 0x69],
        originalSender := [], recipient := [], senderPeer := some 0xABCDEF,
        mentions := [], channel := [] }⟩ := by
    decide +kernel
  have heq : offset = 0 ∧ buffer = helloFrom 3 "0000000000ABCDEF" := by
    simp only [helloRelay, twoClients, List.cons_append, List.nil_append, List.mem_cons,
      List.not_mem_nil, or_false] at he
    rcases harr with ⟨k, ha, -⟩ | ⟨k, ha, -, -⟩
      <;> rcases he with rfl | rfl | rfl | rfl | rfl | rfl | rfl | rfl <;> cases ha
    exact ⟨rfl, rfl⟩
  rw [heq.1, heq.2, hread] at hr
  cases hr
  cases hl.symm.trans hletter
  refine ⟨⟨rfl, fun said hs => ?_⟩, fun said hs _ => ?_⟩
  all_goals
    cases hs
    decide

theorem saysHello_stillAliveMessage (P : Platform) (now : UInt64) :
    SaysHello (Packet.message (stillAliveMessage P now)).letter := by
  refine ⟨⟨(by decide : hasFlag 0 packetFlagIsCompressed = false), fun said hs => ?_⟩,
    fun said hs hf => ?_⟩
  · cases hs
    exact (by decide : hasFlag 0 0x80 = false)
  · cases hs
    cases hf

theorem saysHello_ownAnnounce (P : Platform) (timestampMs : UInt64) :
    SaysHello (Packet.announce (ownAnnounce P timestampMs)).letter :=
  ⟨⟨(by decide : hasFlag 0 packetFlagIsCompressed = false), fun _ hs => (by cases hs)⟩,
    fun _ hs => (by cases hs)⟩

/-- The digits go out as small letters, and the message says what it said. -/
theorem hello_unaltered :
    (relayed (.initial fun _ => 1) helloRelay).flights.map Flight.bytes =
    [helloFrom 2 "0000000000abcdef" ++ [0]] ∧
    ∀ f ∈ (relayed (.initial fun _ => 1) helloRelay).flights, f.bytes.length < 2 ^ 16 → ∀ inflate p,
      readPacket inflate 0 f.bytes = .packet p → ∃ l, p.letter? = some l ∧ SaysHello l :=
  ⟨by decide +kernel, (no_content_altered (fun _ => .bare) (fun _ => 1) SaysHello _ (fun _ h => h.1)
    (fun _ => saysHello_stillAliveMessage .bare) (fun _ => saysHello_ownAnnounce .bare)
    (goodSteps_relayed (fun _ he _ _ _ _ harr hr _ hl =>
      saysHello_helloRelay he harr hr hl) .refl)).2⟩

end BitchatRepeater
