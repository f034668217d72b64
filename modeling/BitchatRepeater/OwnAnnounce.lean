import BitchatRepeater.Announcing
import BitchatRepeater.PacketCodec
import BitchatRepeater.ReusedHandles
import BitchatRepeater.StoredPackets

/-!
# What others make of the announce

The announce is written by one repeater and read by another. Whenever it is
queued it is a complete packet with the address and the name of its repeater, and
a repeater that reads it knows these afterwards, whatever it knew before.
-/

namespace BitchatRepeater

open Lib Tracker ProtocolProcessor BinaryWriter

variable {P : Platform} {t u : Tracker} {i : Input}

-- ---------------------------------------------------------------------------
-- The announce over runs
-- ---------------------------------------------------------------------------

def ownAnnounce (P : Platform) (timestampMs : UInt64) : Announce :=
  { Announce.new with
    packetTtl := 3, packetTimestamp := timestampMs,
    packetSenderId := localSender P, name := localName P }

def OwnAnnounce (P : Platform) (announce : Announce) : Prop :=
  announce = Announce.new ∨ ∃ timestampMs, announce = ownAnnounce P timestampMs

theorem announce_announceTo (h : t.announce = ownAnnounce P timestampMs) (now : UInt64)
    (stale : Stale) (k : Handle) : ∃ timestampMs, (announceTo now stale t k).announce =
    ownAnnounce P timestampMs := by
  unfold announceTo
  split
  · exact ⟨_, h⟩
  · split
    · rw [announce_enqueueTargetedPacket]
      exact ⟨t.getTimeMs now, by simp only [h]; rfl⟩
    · exact ⟨_, h⟩

theorem announce_foldl (h : t.announce = ownAnnounce P timestampMs) (now : UInt64) (stale : Stale)
    (keys : List Handle) :
    ∃ timestampMs, (keys.foldl (announceTo now stale) t).announce = ownAnnounce P timestampMs := by
  induction keys generalizing t timestampMs with
  | nil => exact ⟨timestampMs, h⟩
  | cons k keys ih =>
    obtain ⟨_, hk⟩ := announce_announceTo h now stale k
    exact ih hk

theorem announce_announceToConnections (h : OwnAnnounce P t.announce) (now : UInt64)
    (stale : Stale) :
    ∃ timestampMs, (t.announceToConnections P now stale).announce = ownAnnounce P timestampMs := by
  have hsetup : ∃ timestampMs, (setupAnnounceIfNeeded P t).announce =
      ownAnnounce P timestampMs := by
    unfold setupAnnounceIfNeeded
    rcases h with h | ⟨timestampMs, h⟩
    · rw [if_neg (by rw [h]; decide)]
      exact ⟨0, by simp only [h]; rfl⟩
    · rw [if_pos (by rw [h]; rfl)]
      exact ⟨timestampMs, h⟩
  obtain ⟨_, hsetup⟩ := hsetup
  exact announce_foldl hsetup now stale _

theorem announce_step (hi : i.event ≠ .announceToConnections) :
    (step P t i).1.announce = t.announce := by
  cases ho : ordinary i.event with
  | true =>
    obtain ⟨_, _, _, _, _, _, hu⟩ := (calm_step (P := P) (t := t) ho).eq
    rw [hu]
  | false =>
    have hconn (k : Handle) : (t.connectionForConnHandle k).announce = t.announce := by
      obtain ⟨connections, he⟩ := connectionForConnHandle_eq t k
      rw [he]
    obtain ⟨event, ambient⟩ := i
    cases event with
    | attWrite k transaction att offset buffer =>
      obtain ⟨rfl, rfl⟩ := attWrite_of_not_ordinary ho
      exact announce_processWrite.trans (hconn k)
    | gattNotification k value => exact announce_processWrite.trans (hconn k)
    | canSendNotification k status =>
      obtain ⟨_, _, _, hu⟩ := (drains_sendRawPacket .notify t k status).eq
      exact congrArg (·.announce) hu
    | canWriteWithoutResponse k status =>
      obtain ⟨_, _, _, hu⟩ := (drains_sendRawPacket .write t k status).eq
      exact congrArg (·.announce) hu
    | lifeCheck =>
      obtain ⟨_, _, hu⟩ := handlePinActivity_frame P ambient t
      exact congrArg (·.announce) hu
    | announceToConnections => exact absurd rfl hi
    | sendPackets =>
      obtain ⟨v, targeted, hs, he, -⟩ := sendPackets_sends ambient.stale t
      obtain ⟨_, _, _, _, hv⟩ := hs.eq
      simp only [step, he, hv]
    | cleanupStaleItems => rfl
    | _ => cases ho

theorem ownAnnounce_run (P : Platform) (addr : Addr) (is : List Input) :
    OwnAnnounce P (run (step P) { announceAddr := addr } is).1.announce := by
  refine run_state_invariant (fun t : Tracker => OwnAnnounce P t.announce) (fun t i _ h =>
    ?_) (.inl rfl)
    (along_true _ is)
  by_cases hi : i.event = .announceToConnections
  · have he : step P t i = (t.announceToConnections P i.ambient.now i.ambient.stale, []) := by
      simp only [step, hi]
    rw [he]
    exact .inr (announce_announceToConnections h _ _)
  · rw [announce_step hi]
    exact h

-- ---------------------------------------------------------------------------
-- On the wire
-- ---------------------------------------------------------------------------

theorem length_localName (P : Platform) : (localName P).length = 12 := rfl

def ownAnnounceFrame (P : Platform) (timestampMs : UInt64) : Frame where
  header := { type := PacketType.typeAnnounce.code, ttl := 2, timestampMs, packetFlags := 0,
              payloadLength := 12, sender := localSender P, recipient := 0 }
  body := localName P
  signature := []
  proper _ := rfl
  declared := length_localName P
  signed := (if_neg (by decide : ¬ hasFlag 0 packetFlagHasSignature)).symm

theorem writePacket_ownAnnounce (P : Platform) (timestampMs : UInt64) (peers : Peers) :
    ProtocolWriter.writePacket peers (.announce (ownAnnounce P timestampMs)) =
      some ((ownAnnounceFrame P timestampMs).bytes ++ [0]) := by
  have hw : ProtocolWriter.writePayload peers (.announce (ownAnnounce P timestampMs)) =
    some (localName P) :=
    rfl
  have hsignature : ProtocolWriter.writeSignature (ownAnnounce P timestampMs).toPacketBase = [] :=
    if_neg (by decide : ¬ hasFlag 0 packetFlagHasSignature)
  rw [writePacket_eq hw, Packet.base, hsignature, length_localName, List.append_nil,
    List.take_of_length_le (by rw [length_localName]; decide)]
  have hheader : writtenHeader (ownAnnounce P timestampMs).toPacketBase (min 65535 12) =
      (ownAnnounceFrame P timestampMs).header := by
    simp [writtenHeader, ownAnnounce, Announce.new, ownAnnounceFrame]
  simp only [hheader, Frame.bytes, ownAnnounceFrame, List.append_nil]

theorem length_announceFrame (P : Platform) (timestampMs : UInt64) :
    (ownAnnounceFrame P timestampMs).bytes.length = 34 := by
  have hflag :
      hasFlag (ownAnnounceFrame P timestampMs).header.packetFlags packetFlagHasRecipient = false :=
    (by decide : hasFlag 0 packetFlagHasRecipient = false)
  simp only [Frame.bytes, List.length_append, Header.length_bytes, hflag]
  rfl

theorem readPacket_announceFrame (P : Platform) (timestampMs : UInt64)
    (inflate : Bytes → Option Bytes) :
    readPacket inflate 0 ((ownAnnounceFrame P timestampMs).bytes ++ [0]) =
      .packet ((ownAnnounceFrame P timestampMs).incoming (localName P)) := by
  refine (ownAnnounceFrame P timestampMs).readPacket_plain ?_ [0] ?_ inflate
  · exact (by decide : hasFlag 0 packetFlagIsCompressed = false)
  · rw [List.length_append, length_announceFrame]
    decide

theorem announce_queued (h : .queueRaw addr q k data ∈
      (step P (run (step P) { announceAddr := addr } is).1 i).2) :
    data = (ownAnnounceFrame P (run (step P) { announceAddr := addr }
      is).1.announce.packetTimestamp).bytes ++
      [0] := by
  have haddr : (run (step P) { announceAddr := addr } is).1.announceAddr = addr :=
    announceAddr_run P _ is
  obtain ⟨_, _, ht⟩ := traced_run P addr is
  have hown := ownAnnounce_run P addr is
  generalize (run (step P) { announceAddr := addr } is).1 = t at h haddr ht hown ⊢
  subst haddr
  obtain ⟨c, hc⟩ := (step_outcome P t i).call_of_queueRaw h
  rw [(step_outcome P t i).sends_of_call hc] at h hc
  obtain ⟨v, targeted, hs, -, -⟩ := sendPackets_sends i.ambient.stale t
  obtain ⟨-, hw⟩ := hs.data _ q k data h
  obtain ⟨packet, hp, -, hz⟩ := ht.calls ⟨k, hc⟩
  rw [packetAt_announce] at hp
  cases hp
  rw [derefPacket, packetAt_announce, Option.getD_some] at hw
  rcases hown with hnew | ⟨timestampMs, hset⟩
  · rw [hnew] at hz
    exact absurd rfl hz
  · rw [hset, writePacket_ownAnnounce] at hw
    rw [hset]
    exact (Option.some.inj hw).symm

-- ---------------------------------------------------------------------------
-- At the other repeater
-- ---------------------------------------------------------------------------

/-- Behind the announce case the sender is known, and passing along reaches the
stores and lists only. -/
theorem handlePassAlong_known (hc : t.peers.contains p.sender) (hash : Bytes → UInt32)
    (ambient : Ambient) (origin : ConnPtr) : ∃ packets sent peersSent broadcast,
      (handlePassAlong hash ambient t origin p).1 = { t with
        packets := packets
        packetsConnectionsSentList := sent
        packetsPeersSentList := peersSent
        broadcastPacketsToSendList := broadcast } := by
  have hsame : checkSenderInPeers t.peers p.sender = t.peers := if_pos hc
  unfold handlePassAlong
  simp only [storePacketAndReturnIfNew, hsame]
  split
  · exact ⟨_, _, _, _, rfl⟩
  · by_cases hnew : t.packets.contains (p.passAlong.packetHash hash)
    · simp only [hnew, if_true]
      exact ⟨_, _, _, _, rfl⟩
    · simp only [hnew, Bool.false_eq_true, if_false]
      rw [enqueueBroadcastPacketFrom_eq]
      exact ⟨_, _, _, _, rfl⟩

def adjustedOffset (offset now timestampMs : UInt64) : UInt64 :=
  let ourNow := offset + now / 1000
  let diff := timestampMs - ourNow
  let diffAbs := if diff < 0x8000000000000000 then diff else 0 - diff
  if diffAbs > messageTimeout || timestampMs > ourNow then offset + diff else offset

theorem ite_timestampOffset (c : Prop) [Decidable c] (t : Tracker) (offset : UInt64) :
    (if c then { t with timestampOffsetMs := offset } else t) =
      { t with timestampOffsetMs := if c then offset else t.timestampOffsetMs } := by
  split <;> rfl

theorem possiblyUpdateTimeOffset_eq (t : Tracker) (now timestampMs : UInt64) :
    t.possiblyUpdateTimeOffset now timestampMs =
      { t with timestampOffsetMs := adjustedOffset t.timestampOffsetMs now timestampMs } := by
  unfold possiblyUpdateTimeOffset adjustedOffset
  exact ite_timestampOffset _ t _

theorem updateOrStorePeerName_eq (t : Tracker) (sender : UInt64) (name : Bytes) (ttl : UInt8)
    (connection : BleConnection) : ∃ peers map,
    updateOrStorePeerName t sender name ttl connection =
    { t with peers := peers, handlePeerMap := map } := by
  unfold updateOrStorePeerName
  simp only
  split
  · exact ⟨_, _, rfl⟩
  · exact ⟨_, _, rfl⟩

/-- What an announce is known to say of its sender, over what was known before. -/
def Peer.announced (peer : Peer) (name : Bytes) (ttl : UInt8) : Peer :=
  { peer with name := name, maxTtl := if ttl ≥ peer.maxTtl then ttl else peer.maxTtl }

theorem get?_updateOrStorePeerName (t : Tracker) (sender : UInt64) (name : Bytes) (ttl : UInt8)
    (connection : BleConnection) :
    let peer := (t.peers.get? sender).getD { id := sender }
    let u := updateOrStorePeerName t sender name ttl connection
    u.peers.get? sender = some (peer.announced name ttl) ∧
      u.handlePeerMap = if ttl ≥ peer.maxTtl then
      t.handlePeerMap.insert connection.connectionHandle sender
        else t.handlePeerMap := by
  intro peer u
  have hnamed : (updatePeer t.peers sender fun peer => { peer with name := name }).get? sender =
      some { peer with name := name } := by
    rw [updatePeer, OrdMap.get?_modify, if_pos rfl, get?_checkSenderInPeers_self]
    rfl
  simp only [u, updateOrStorePeerName, hnamed, Option.map_some, Option.getD_some]
  by_cases hle : ttl ≥ peer.maxTtl
  · simp only [hle, if_true, setConnectionHandleForPeer, OrdMap.get?_modify, hnamed, Peer.announced]
    exact ⟨rfl, trivial⟩
  · simp only [hle, if_false, hnamed, Peer.announced]
    exact ⟨trivial, trivial⟩

/-- Whatever is transmitted of the announce, in any run, tells any other repeater
that reads it our address and name, and it maps the link to us unless it has heard
us with a higher ttl. Its clock goes by the time the announce was queued at. -/
theorem announce_understood (P Q : Platform) (addr : Addr) (is : List Input) (i : Input)
    (q : RawQueue) (k : Handle) (data : Bytes) (u : Tracker) (ambient : Ambient) (origin : ConnPtr)
    (connection : BleConnection)
    (h : .queueRaw addr q k data ∈ (step P (run (step P) { announceAddr := addr } is).1 i).2) :
    let t := (run (step P) { announceAddr := addr } is).1
    let peer := (u.peers.get? (localSender P)).getD { id := localSender P }
    let v := (processWrite Q ambient u origin connection 0 data).1
    v.peers.get? (localSender P) = some (peer.announced (localName P) 2) ∧
      v.handlePeerMap = (if 2 ≥ peer.maxTtl
        then u.handlePeerMap.insert connection.connectionHandle (localSender P)
        else u.handlePeerMap) ∧
      v.timestampOffsetMs =
        (u.possiblyUpdateTimeOffset ambient.now t.announce.packetTimestamp).timestampOffsetMs := by
  intro t peer v
  generalize hp : (ownAnnounceFrame P t.announce.packetTimestamp).incoming (localName P) = p
  have hv : v = (handlePassAlong Q.hash ambient (handleAnnounce ambient u connection p)
      origin p).1 := by
    simp only [v, processWrite, announce_queued h, readPacket_announceFrame]
    rw [← hp]
    rfl
  have hsender : p.sender = localSender P := by rw [← hp]; rfl
  have hpayload : p.payload = localName P := by rw [← hp]; rfl
  have httl : p.ttl = 2 := by rw [← hp]; rfl
  have htime : p.timestampMs = t.announce.packetTimestamp := by rw [← hp]; rfl
  obtain ⟨hpeer, hmap⟩ := get?_updateOrStorePeerName u (localSender P) (localName P) 2 connection
  obtain ⟨peers, map, hnamed⟩ :=
    updateOrStorePeerName_eq u (localSender P) (localName P) 2 connection
  have hhandled : handleAnnounce ambient u connection p =
      { updateOrStorePeerName u (localSender P) (localName P) 2 connection with
        timestampOffsetMs :=
          (u.possiblyUpdateTimeOffset ambient.now
            t.announce.packetTimestamp).timestampOffsetMs } := by
    rw [handleAnnounce, hsender, hpayload, httl, htime]
    simp only [possiblyUpdateTimeOffset_eq, hnamed]
  have hknown : (handleAnnounce ambient u connection p).peers.contains p.sender := by
    rw [hhandled, hsender, OrdMap.contains, hpeer]
    rfl
  obtain ⟨_, _, _, _, hpassed⟩ := handlePassAlong_known hknown Q.hash ambient origin
  rw [hv, hpassed, hhandled]
  exact ⟨hpeer, hmap, rfl⟩

/-- A client is announced to, and another repeater reads what goes to it. -/
theorem announce_to_client_understood :
    let v := (processWrite .bare .idle { announceAddr := 1 } (.entry 4) { connectionHandle := 4 } 0
      ((ownAnnounceFrame .bare buildTimeMs).bytes ++ [0])).1
    v.peers.get? (localSender .bare) = some { id := localSender .bare, name := localName .bare,
                                              maxTtl := 2 } ∧
      v.handlePeerMap.get? 4 = some (localSender .bare) := by
  have hqueued : .queueRaw 1 .write 1 ((ownAnnounceFrame .bare buildTimeMs).bytes ++ [0]) ∈
      (step .bare (run (step .bare) { announceAddr := 1 } (clientArrives ++ [announceIdle])).1
        sendIdle).2 := by
    decide +kernel
  obtain ⟨hpeer, hmap, -⟩ := announce_understood .bare .bare 1
    (clientArrives ++ [announceIdle]) sendIdle
    .write 1 _ { announceAddr := 1 } .idle (.entry 4) { connectionHandle := 4 } hqueued
  exact ⟨hpeer, by rw [hmap]; rfl⟩

end BitchatRepeater
