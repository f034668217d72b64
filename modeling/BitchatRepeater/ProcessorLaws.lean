import BitchatRepeater.ProtocolProcessor
import BitchatRepeater.Memory

/-!
# What a write can do

`processWrite_cases` says once everything `processWrite` can do to the tracker:
learn about peers and the time, and in addition store one packet that was not
there. What a stored packet owes to the bytes it was read from, in particular
its ttl, follows from `readPacket_ttl`.
-/

namespace BitchatRepeater.ProtocolProcessor

open Lib Tracker

variable {peers ps : Peers} {t u : Tracker}

-- ---------------------------------------------------------------------------
-- Peers
-- ---------------------------------------------------------------------------

def PeersKeyed (peers : Peers) : Prop := ∀ k peer, peers.get? k = some peer → peer.id = k

theorem peersKeyed_empty : PeersKeyed .empty := by
  intro k peer h
  cases h

theorem PeersKeyed.checkSenderInPeers (h : PeersKeyed peers) (sender : UInt64) :
    PeersKeyed (checkSenderInPeers peers sender) := by
  unfold Tracker.checkSenderInPeers
  split
  · exact h
  · intro k peer hk
    rw [OrdMap.get?_insert] at hk
    split at hk
    next he =>
      cases hk
      exact he.symm
    next => exact h k peer hk

theorem PeersKeyed.modify (h : PeersKeyed peers) (sender : UInt64)
    {f : Peer → Peer} (hf : ∀ peer, (f peer).id = peer.id) :
    PeersKeyed (peers.modify sender f) := by
  intro k peer hk
  rw [OrdMap.get?_modify] at hk
  split at hk
  next =>
    obtain ⟨old, ho, rfl⟩ := Option.map_eq_some_iff.mp hk
    rw [hf]
    exact h k old ho
  next => exact h k peer hk

theorem PeersKeyed.updatePeer (h : PeersKeyed peers) (sender : UInt64)
    {f : Peer → Peer} (hf : ∀ peer, (f peer).id = peer.id) :
    PeersKeyed (updatePeer peers sender f) :=
  (h.checkSenderInPeers sender).modify sender hf

theorem get?_checkSenderInPeers_self (peers : Peers) (sender : UInt64) :
    (checkSenderInPeers peers sender).get? sender =
      some ((peers.get? sender).getD { id := sender }) := by
  unfold checkSenderInPeers
  cases h : peers.get? sender with
  | none => simp [OrdMap.contains, h]
  | some peer => simp [OrdMap.contains, h]

theorem contains_checkSenderInPeers (peers : Peers) (sender : UInt64) :
    (checkSenderInPeers peers sender).contains sender := by
  rw [OrdMap.contains, get?_checkSenderInPeers_self]
  rfl

theorem contains_checkSenderInPeers_of_contains (h : peers.contains k) :
    (checkSenderInPeers peers sender).contains k := by
  unfold checkSenderInPeers
  split
  · exact h
  · rw [OrdMap.contains, OrdMap.get?_insert]
    split
    · rfl
    · exact h

theorem contains_updatePeer (peers : Peers) (sender : UInt64) (f : Peer → Peer) :
    (updatePeer peers sender f).contains sender := by
  rw [updatePeer, OrdMap.contains_modify]
  exact contains_checkSenderInPeers peers sender

theorem get?_checkSenderInPeers (h : PeersKeyed peers) (sender : UInt64) :
    ((checkSenderInPeers peers sender).get? sender).map Peer.id = some sender := by
  obtain ⟨peer, hp⟩ := Option.isSome_iff_exists.mp (contains_checkSenderInPeers peers sender)
  rw [hp, Option.map_some, h.checkSenderInPeers sender sender peer hp]

-- ---------------------------------------------------------------------------
-- Message payloads
-- ---------------------------------------------------------------------------

theorem readFlagged_base {store : Message → Bytes → Message}
    (h : readFlagged flag store mr = some mr')
    (hs : ∀ m s, (store m s).toPacketBase = m.toPacketBase) :
    mr'.1.toPacketBase = mr.1.toPacketBase := by
  obtain ⟨m, r⟩ := mr
  simp only [readFlagged] at h
  split at h
  · obtain ⟨field, -, rfl⟩ := Option.map_eq_some_iff.mp h
    exact hs m field.1
  · cases h
    rfl

theorem readMessageStart_base (h : readMessageStart m r = some mr') :
    mr'.1.toPacketBase = m.toPacketBase := by
  simp only [readMessageStart, Option.bind_eq_bind, Option.bind_eq_some_iff] at h
  obtain ⟨_, -, _, -, _, -, h⟩ := h
  split at h <;> cases h <;> rfl

theorem readNicknames_base (h : readNicknames mr = some mr') :
    mr'.1.toPacketBase = mr.1.toPacketBase := by
  simp only [readNicknames, Option.bind_eq_bind, Option.bind_eq_some_iff] at h
  obtain ⟨mr₁, h₁, h₂⟩ := h
  rw [readFlagged_base h₂ fun _ _ => rfl, readFlagged_base h₁ fun _ _ => rfl]

theorem readSenderPeer_base (h : readSenderPeer peers m r = some (ps, mr')) :
    mr'.1.toPacketBase = m.toPacketBase := by
  unfold readSenderPeer at h
  split at h
  · obtain ⟨⟨text, r'⟩, -, he⟩ := Option.map_eq_some_iff.mp h
    simp only at he
    split at he <;> cases he <;> rfl
  · cases h
    rfl

theorem readMentionList_base (h : readMentionList n mr = some mr') :
    mr'.1.toPacketBase = mr.1.toPacketBase := by
  induction n generalizing mr with
  | zero =>
    cases h
    rfl
  | succ n ih =>
    simp only [readMentionList, Option.bind_eq_bind, Option.bind_eq_some_iff] at h
    obtain ⟨_, -, h⟩ := h
    rw [ih h]

theorem readMentions_base (h : readMentions mr = some mr') :
    mr'.1.toPacketBase = mr.1.toPacketBase := by
  obtain ⟨m, r⟩ := mr
  simp only [readMentions] at h
  split at h
  · rw [readMentionList_base h]
  · cases h
    rfl

theorem processMessage_base (h : processMessage peers m payload = (ps, some m')) :
    m'.toPacketBase = m.toPacketBase := by
  unfold processMessage at h
  split at h
  · cases h
  · split at h
    · cases h
    next m₁ r₁ h₁ =>
      simp only [Option.bind_eq_bind, Option.bind_eq_some_iff] at h₁
      obtain ⟨mr, hstart, hnick⟩ := h₁
      split at h
      · cases h
      next ps' m₂ h₂ =>
        obtain ⟨-, hm⟩ := Prod.mk.inj h
        obtain ⟨mr', hr, rfl⟩ := Option.map_eq_some_iff.mp hm
        simp only [Option.bind_eq_bind, Option.bind_eq_some_iff] at hr
        obtain ⟨mr₃, h₃, h₄⟩ := hr
        have hnick := readNicknames_base hnick
        rw [readFlagged_base h₄ fun _ _ => rfl, readMentions_base h₃, readSenderPeer_base h₂, hnick,
          readMessageStart_base hstart]

/-- The sender peer field behind the nicknames, if the payload can be read up to
its end and it has 16 characters. -/
def namedPeer (message : Message) (payload : Bytes) : Option UInt64 :=
  if payload.length % 2 ^ 16 < 13 then none
  else
    match readMessageStart message (BinaryReader.new 0 payload) >>= readNicknames with
    | none => none
    | some (message, reader) =>
      if message.hasSenderPeerID then
        match reader.readField with
        | none => none
        | some (text, _) => if text.length = 16 then some (hexPeerId 0 56 text) else none
      else none

theorem peers_processMessage (peers : Peers) (message : Message) (payload : Bytes) :
    (processMessage peers message payload).1 =
      match namedPeer message payload with
      | none => peers
      | some peerId => checkSenderInPeers peers peerId := by
  unfold processMessage namedPeer
  split
  · rfl
  · rcases readMessageStart message (BinaryReader.new 0 payload) >>= readNicknames with _ | ⟨m, r⟩
    · rfl
    · simp only [readSenderPeer]
      by_cases hf : m.hasSenderPeerID
      · rcases r.readField with _ | ⟨text, r'⟩
        · simp [hf]
        · by_cases hl : text.length = 16
          · simp [hf, hl]
          · simp [hf, hl]
      · simp [hf]

theorem PeersKeyed.processMessage (h : PeersKeyed peers) (m : Message)
    (payload : Bytes) : PeersKeyed (processMessage peers m payload).1 := by
  rw [peers_processMessage]
  split
  · exact h
  · exact h.checkSenderInPeers _

theorem processMessage_short (h : payload.length % 2 ^ 16 < 13) :
    processMessage peers m payload = (peers, none) := by
  rw [processMessage, if_pos h]

-- ---------------------------------------------------------------------------
-- Writes
-- ---------------------------------------------------------------------------

/-- `u` is `t` with more known about peers, their connections and the time. -/
structure Learns (t u : Tracker) : Prop where
  eq : ∃ peers map offset, u = { t with
    peers := peers, handlePeerMap := map, timestampOffsetMs := offset }
  keyed : PeersKeyed t.peers → PeersKeyed u.peers

theorem Learns.refl (t : Tracker) : Learns t t := ⟨⟨_, _, _, rfl⟩, id⟩

theorem Learns.trans {v : Tracker} (h : Learns t u) (h' : Learns u v) : Learns t v := by
  obtain ⟨⟨_, _, _, rfl⟩, hk⟩ := h
  obtain ⟨⟨_, _, _, rfl⟩, hk'⟩ := h'
  exact ⟨⟨_, _, _, rfl⟩, hk' ∘ hk⟩

theorem learns_peers (h : PeersKeyed t.peers → PeersKeyed peers) :
    Learns t { t with peers := peers } := ⟨⟨_, _, _, rfl⟩, h⟩

theorem learns_updateOrStorePeerName :
    Learns t (updateOrStorePeerName t sender name ttl connection) := by
  have hname (hk : PeersKeyed t.peers) :
      PeersKeyed (updatePeer t.peers sender fun peer => { peer with name := name }) :=
    hk.updatePeer sender fun _ => rfl
  unfold updateOrStorePeerName
  simp only
  split
  · exact ⟨⟨_, _, _, rfl⟩, fun hk => (hname hk).modify sender fun _ => rfl⟩
  · exact learns_peers hname

theorem learns_possiblyUpdateTimeOffset :
    Learns t (t.possiblyUpdateTimeOffset now timestampMs) := by
  unfold possiblyUpdateTimeOffset
  exact iteInduction (fun _ => ⟨⟨_, _, _, rfl⟩, id⟩) (fun _ => .refl t)

theorem learns_handleAnnounce : Learns t (handleAnnounce ambient t connection p) :=
  .trans learns_updateOrStorePeerName learns_possiblyUpdateTimeOffset

theorem Learns.allocate (h : Learns t u) : u.allocate place = t.allocate place := by
  obtain ⟨⟨_, _, _, rfl⟩, -⟩ := h
  rfl

theorem Learns.stored (h : Learns t u) : u.stored = t.stored := by
  obtain ⟨⟨_, _, _, rfl⟩, -⟩ := h
  rfl

/-- A write that stores at `a`. `t` is the tracker before the write, `t'` the
one the packet is put into. -/
inductive Stores (P : Platform) (origin : ConnPtr) (p : Incoming) (t t' : Tracker) (a : Addr) :
    Packet → Tracker → Prop
  | message {m : Message} (hp : p.type = PacketType.typeMessage.code)
      (hr : processMessage (checkSenderInPeers t.peers p.sender) p.message p.payload =
        (t'.peers, some m))
      (hn : t'.messages.contains m.messageId = false) :
      Stores P origin p t t' a (.message m)
        ({ t' with messages := t'.messages.insert m.messageId ⟨a, m⟩ }.enqueueBroadcastPacketFrom
          a p.ttl origin p.sender)
  | passAlong (hp : ∃ type : PacketType, type.code = p.type ∧ type.passAlong) (hl : ¬ p.ttl < 1)
      (hn : t'.packets.contains (p.passAlong.packetHash P.hash) = false) :
      Stores P origin p t t' a (.passAlong p.passAlong)
        ({ t' with
            packets := t'.packets.insert (p.passAlong.packetHash P.hash) ⟨a, p.passAlong⟩
          }.enqueueBroadcastPacketFrom a p.ttl origin p.sender)

def Handled (P : Platform) (place : Addr) (origin : ConnPtr) (p : Incoming) (t : Tracker)
    (result : Tracker × List Effect) : Prop :=
  (Learns t result.1 ∧ result.2 = []) ∨
    ∃ t' packet, Learns t t' ∧ Stores P origin p t t' (t.allocate place) packet result.1 ∧
      result.2 = [.storedNew (t.allocate place) origin]

theorem handleMessage_handled (hp : p.type = PacketType.typeMessage.code) :
    Handled P ambient.place origin p t (handleMessage ambient t origin p) := by
  have hk (h : PeersKeyed t.peers) :
      PeersKeyed (processMessage (checkSenderInPeers t.peers p.sender) p.message p.payload).1 :=
    (h.checkSenderInPeers p.sender).processMessage _ _
  unfold handleMessage
  rcases hr : processMessage (checkSenderInPeers t.peers p.sender) p.message
    p.payload with ⟨ps, _ | m⟩
  · rw [hr] at hk
    exact .inl ⟨learns_peers hk, rfl⟩
  · rw [hr] at hk
    have hl : Learns t { t with peers := ps } := learns_peers hk
    simp only [storeMessageAndReturnIfNew]
    by_cases hc : t.messages.contains m.messageId
    · simp only [hc, if_true]
      exact .inl ⟨hl, rfl⟩
    · rw [Bool.not_eq_true] at hc
      have hb : m.packetTtl = p.ttl := congrArg PacketBase.packetTtl (processMessage_base hr)
      simp only [hc, Bool.false_eq_true, if_false, hb]
      exact .inr ⟨{ t with peers := ps }, .message m, hl, .message hp hr hc, rfl⟩

theorem handlePassAlong_handled {t₀ : Tracker} (hl : Learns t₀ t)
    (hp : ∃ type : PacketType, type.code = p.type ∧ type.passAlong) :
    Handled P ambient.place origin p t₀ (handlePassAlong P.hash ambient t origin p) := by
  unfold handlePassAlong
  split
  · exact .inl ⟨hl, rfl⟩
  next httl =>
    have hl' : Learns t₀ { t with peers := checkSenderInPeers t.peers p.sender } :=
      hl.trans (learns_peers fun h => h.checkSenderInPeers p.sender)
    simp only [storePacketAndReturnIfNew]
    by_cases hc : t.packets.contains (p.passAlong.packetHash P.hash)
    · simp only [hc, if_true]
      exact .inl ⟨hl', rfl⟩
    · rw [Bool.not_eq_true] at hc
      simp only [hc, Bool.false_eq_true, if_false, hl'.allocate]
      exact .inr ⟨_, _, hl', .passAlong hp httl hc, rfl⟩

theorem dispatch_handled : Handled P ambient.place origin p t
    (dispatch P ambient t origin connection p) := by
  unfold dispatch
  cases ht : PacketType.ofCode? p.type with
  | none => exact .inl ⟨.refl t, rfl⟩
  | some type =>
    have hc := PacketType.code_of_ofCode? ht
    split
    · exact .inl ⟨learns_peers fun h => h.updatePeer p.sender fun _ => rfl, rfl⟩
    next he =>
      cases he
      exact handleMessage_handled hc.symm
    next he =>
      cases he
      exact handlePassAlong_handled learns_handleAnnounce ⟨_, hc, rfl⟩
    next he =>
      cases he
      split
      next hpa => exact handlePassAlong_handled (.refl t) ⟨_, hc, hpa⟩
      next => exact .inl ⟨.refl t, rfl⟩
    next he => cases he

theorem processWrite_cases (P : Platform) (ambient : Ambient) (t : Tracker) (origin : ConnPtr)
    (connection : BleConnection) (offset : UInt16) (buffer : Bytes) :
    (processWrite P ambient t origin connection offset buffer = (t, []) ∨
      processWrite P ambient t origin connection offset buffer = (t, [.nullDereference])) ∨
    ∃ p, readPacket P.inflate offset buffer = .packet p ∧
      Handled P ambient.place origin p t
        (processWrite P ambient t origin connection offset buffer) := by
  unfold processWrite
  cases hr : readPacket P.inflate offset buffer with
  | rejected => exact .inl (.inl rfl)
  | nullSignature => exact .inl (.inr rfl)
  | packet p => exact .inr ⟨p, rfl, dispatch_handled⟩

-- ---------------------------------------------------------------------------
-- The stored packet
-- ---------------------------------------------------------------------------

section Stored
variable {t' : Tracker} {packet : Packet}

theorem Stores.ttl (h : Stores P origin p t t' a packet u) : packet.base.packetTtl = p.ttl := by
  cases h with
  | message hp hr hn => exact congrArg PacketBase.packetTtl (processMessage_base hr)
  | passAlong hp hl hn => rfl

theorem Stores.adds (h : Stores P origin p t t' (t'.allocate place) packet u) :
    t'.Adds u (t'.allocate place) packet := by
  cases h with
  | @message m hp hr hn =>
    have ha := adds_message m hn place
    exact ⟨ha.fresh, fun x => by rw [stored_enqueueBroadcastPacketFrom]; exact ha.mem x⟩
  | passAlong hp hl hn =>
    have ha := adds_passAlong p.passAlong hn place
    exact ⟨ha.fresh, fun x => by rw [stored_enqueueBroadcastPacketFrom]; exact ha.mem x⟩

theorem Stores.eq (h : Stores P origin p t t' a packet u) : ∃ messages packets, u = { t' with
    messages := messages
    packets := packets
    packetsConnectionsSentList := t'.packetsConnectionsSentList.emplace a origin
    packetsPeersSentList := t'.packetsPeersSentList.emplace a p.sender
    broadcastPacketsToSendList :=
      t'.broadcastPacketsToSendList ++ if packet.base.packetTtl > 0 then [a] else [] } := by
  rw [h.ttl]
  cases h with
  | message hp hr hn => exact ⟨_, _, enqueueBroadcastPacketFrom_eq⟩
  | passAlong hp hl hn => exact ⟨_, _, enqueueBroadcastPacketFrom_eq⟩

/-- The whole change a write that stores makes: one packet more, recorded as
coming from `origin` and `sender`, and in the broadcast list if it may go on. -/
structure Receives (t u : Tracker) (a : Addr) (packet : Packet) (origin : ConnPtr)
    (sender : UInt64) : Prop where
  eq : ∃ peers map offset messages packets, u = { t with
    peers := peers
    handlePeerMap := map
    timestampOffsetMs := offset
    messages := messages
    packets := packets
    packetsConnectionsSentList := t.packetsConnectionsSentList.emplace a origin
    packetsPeersSentList := t.packetsPeersSentList.emplace a sender
    broadcastPacketsToSendList :=
      t.broadcastPacketsToSendList ++ if packet.base.packetTtl > 0 then [a] else [] }
  adds : t.Adds u a packet
  keyed : PeersKeyed t.peers → PeersKeyed u.peers

theorem Stores.receives (hl : Learns t t')
    (h : Stores P origin p t t' (t.allocate place) packet u) :
    Receives t u (t.allocate place) packet origin p.sender := by
  have hk : u.peers = t'.peers := by
    obtain ⟨_, _, rfl⟩ := h.eq
    rfl
  have ha : t.Adds u (t.allocate place) packet := by
    rw [← hl.allocate] at h ⊢
    exact ⟨hl.allocate ▸ t.allocate_fresh place, fun x => hl.stored ▸ h.adds.mem x⟩
  obtain ⟨messages, packets, he⟩ := h.eq
  obtain ⟨⟨peers, map, offset, ht⟩, hkeyed⟩ := hl
  rw [ht] at he
  exact ⟨⟨_, _, _, _, _, he⟩, ha, fun h => hk ▸ hkeyed h⟩

end Stored

-- ---------------------------------------------------------------------------
-- The ttl read
-- ---------------------------------------------------------------------------

theorem readUint8_within (h : pos + 1 ≤ size) (hs : size < 2 ^ 16) :
    (⟨buffer, size, pos⟩ : BinaryReader).readUint8 =
    (buffer.getD pos 0, ⟨buffer, size, pos + 1⟩) := by
  have hp : (pos + 1) % 2 ^ 16 = pos + 1 := Nat.mod_eq_of_lt (by omega)
  simp only [BinaryReader.readUint8, BinaryReader.advance, hp, if_neg (by omega : ¬ pos + 1 > size)]
  rfl

theorem readUint8_past {r : BinaryReader} (h : r.bufferSize ≤ r.pos) : r.readUint8 = (0, r) :=
  if_pos (by omega)

theorem readHeader_past {r : BinaryReader} (h : r.readUint8.2.bufferSize ≤ r.readUint8.2.pos) :
    (readHeader r).1 = { type := r.readUint8.1, ttl := 0, timestampMs := 0, packetFlags := 0,
                         payloadLength := 0, sender := 0, recipient := 0 } := by
  have h₁ : r.readUint8.2.readUint16 = (0, r.readUint8.2) := if_pos (by omega)
  have h₂ : r.readUint8.2.readUint64 = (0, r.readUint8.2) := if_pos (by omega)
  simp [readHeader, readUint8_past h, h₁, h₂, hasFlag]

theorem readPayload_empty (hf : header.packetFlags = 0) (hl : header.payloadLength = 0)
    (h : readPayload inflate header r = some (payload, r')) : payload = [] := by
  simp only [readPayload, hf, hl, hasFlag, BinaryReader.readData] at h
  split at h
  next hc => exact absurd hc (by decide)
  next =>
    split at h
    · cases h
    · cases h
      rfl

theorem readSignature_payload (h : readSignature header payload r = .packet p) :
    p.toHeader = header ∧ p.payload = payload := by
  unfold readSignature at h
  split at h
  · split at h
    · cases h
    · cases h
      exact ⟨rfl, rfl⟩
  · cases h
    exact ⟨rfl, rfl⟩

theorem readPacket_header (h : readPacket inflate offset buffer = .packet p) :
    (BinaryReader.new offset buffer).readUint8.1 = 1 ∧
      p.toHeader = (readHeader (BinaryReader.new offset buffer).readUint8.2).1 ∧
      ∃ r, readPayload inflate p.toHeader
        (readHeader (BinaryReader.new offset buffer).readUint8.2).2 = some (p.payload, r) := by
  simp only [readPacket, readBody] at h
  split at h
  · cases h
  next hv =>
    split at h
    · cases h
    next payload r hr =>
      obtain ⟨hh, hp⟩ := readSignature_payload h
      exact ⟨not_not.mp hv, hh, r, by rw [hh, hp, hr]⟩

/-- Either the ttl byte is there, or the packet that was read is empty. -/
theorem readPacket_ttl (h : readPacket inflate offset buffer = .packet p) :
    p.ttl = buffer.getD (offset.toNat + 2) 0 ∨ (p.ttl = 0 ∧ p.payload = []) := by
  obtain ⟨hv, hh, r, hr⟩ := readPacket_header h
  have hlt : buffer.length % 2 ^ 16 < 2 ^ 16 := Nat.mod_lt _ (by decide)
  generalize hs : buffer.length % 2 ^ 16 = size at hlt
  have hnew : BinaryReader.new offset buffer = ⟨buffer, size, offset.toNat⟩ := by
    rw [BinaryReader.new, hs]
  rw [hnew] at hv hh hr
  -- the version was read, so at least one byte is there
  have h₁ : offset.toNat + 1 ≤ size := by
    by_contra hc
    rw [readUint8_past (by simp only; omega)] at hv
    cases hv
  rw [readUint8_within h₁ hlt] at hh hr
  simp only at hh hr
  by_cases h₃ : offset.toNat + 3 ≤ size
  · left
    have h₂ : offset.toNat + 1 + 1 ≤ size := by omega
    simp only [hh, readHeader, readUint8_within h₂ hlt, readUint8_within h₃ hlt]
  · right
    have hpast : (⟨buffer, size, offset.toNat + 1⟩ : BinaryReader).readUint8.2.bufferSize ≤
        (⟨buffer, size, offset.toNat + 1⟩ : BinaryReader).readUint8.2.pos := by
      by_cases h₂ : offset.toNat + 1 + 1 ≤ size
      · rw [readUint8_within h₂ hlt]
        simp only
        omega
      · rw [readUint8_past (by simp only; omega)]
        simp only
        omega
    rw [readHeader_past hpast] at hh
    exact ⟨by rw [hh], readPayload_empty (by rw [hh]) (by rw [hh]) hr⟩

theorem Stores.ttl_byte {t' : Tracker} {packet : Packet}
    (hr : readPacket P.inflate offset buffer = .packet p)
    (h : Stores P origin p t t' a packet u) :
    packet.base.packetTtl = buffer.getD (offset.toNat + 2) 0 := by
  rw [h.ttl]
  rcases readPacket_ttl hr with hb | ⟨h₀, hp⟩
  · exact hb
  · cases h with
    | message _ hm _ =>
      rw [processMessage_short (by simp [hp])] at hm
      exact absurd (Prod.mk.inj hm).2 (by simp)
    | passAlong _ hl _ => exact absurd (by rw [h₀]; decide) hl

end BitchatRepeater.ProtocolProcessor
