import BitchatRepeater.Events
import BitchatRepeater.ProcessorLaws
import BitchatRepeater.SendingLaws

/-!
# What an event can do

`step_outcome` sorts the events by what they change. Most are calm: they touch
connections, peers and the clock offset, and no packet. The others store a
packet, drain a raw queue, enqueue the announce, send, or clean up. `Quiet`
covers all that neither store, send nor clean up.
-/

namespace BitchatRepeater

open Lib Tracker ProtocolProcessor

variable {t u v : Tracker} {out : List Effect}

-- ---------------------------------------------------------------------------
-- Calm events
-- ---------------------------------------------------------------------------

/-- A connected map entry carries its own handle. -/
def Keyed (connections : OrdMap Handle BleConnection) : Prop :=
  ∀ h c, connections.get? h = some c → c.connected → c.connectionHandle = h

def minor : Effect → Bool
  | .listen .. | .stopListening .. | .gapConnect .. | .nullDereference => true
  | _ => false

def passive : Effect → Bool
  | .storedNew .. | .storedOwn .. | .sendPacketToConnection .. | .queueRaw .. => false
  | _ => true

theorem passive_of_minor (h : minor e) : passive e := by
  cases e <;> first | rfl | cases h

/-- No packet, list or queue changes, but for records of the announce. -/
structure Calm (t u : Tracker) (out : List Effect) : Prop where
  eq : ∃ connections neighbours map sent peers offset, u = { t with
    connections := connections
    availableNeighbours := neighbours
    handlePeerMap := map
    packetsConnectionsSentList := sent
    peers := peers
    timestampOffsetMs := offset }
  sent_sub : ∀ e ∈ u.packetsConnectionsSentList.entries, e ∈ t.packetsConnectionsSentList.entries
  sent_keep : ∀ a c, (a, c) ∈ t.packetsConnectionsSentList.entries → a ≠ t.announceAddr →
    (a, c) ∈ u.packetsConnectionsSentList.entries
  keyed : Keyed t.connections → Keyed u.connections
  peersKeyed : PeersKeyed t.peers → PeersKeyed u.peers
  kinds : ∀ e ∈ out, minor e

theorem Calm.refl (t : Tracker) : Calm t t [] :=
  ⟨⟨_, _, _, _, _, _, rfl⟩, fun _ h => h, fun _ _ h _ => h, id, id, by simp⟩

theorem Calm.trans (h : Calm t u []) (h' : Calm u v out) : Calm t v out := by
  have ha : u.announceAddr = t.announceAddr := by
    obtain ⟨_, _, _, _, _, _, rfl⟩ := h.eq
    rfl
  refine ⟨?_, fun e he => h.sent_sub e (h'.sent_sub e he), ?_, h'.keyed ∘ h.keyed,
    h'.peersKeyed ∘ h.peersKeyed, h'.kinds⟩
  · obtain ⟨_, _, _, _, _, _, rfl⟩ := h.eq
    obtain ⟨_, _, _, _, _, _, rfl⟩ := h'.eq
    exact ⟨_, _, _, _, _, _, rfl⟩
  · intro a c hm hne
    exact h'.sent_keep a c (h.sent_keep a c hm hne) (ha ▸ hne)

theorem Calm.withOut (h : Calm t u []) (hk : ∀ e ∈ out, minor e) : Calm t u out :=
  { h with kinds := hk }

theorem calm_connections {connections : OrdMap Handle BleConnection}
    (hk : Keyed t.connections → Keyed connections) :
    Calm t { t with
      connections := connections, availableNeighbours := neighbours, handlePeerMap := map } [] :=
  ⟨⟨_, _, _, _, _, _, rfl⟩, fun _ h => h, fun _ _ h _ => h, hk, id, by simp⟩

theorem Calm.ofLearns (h : Learns t u) : Calm t u [] := by
  obtain ⟨⟨_, _, _, rfl⟩, hk⟩ := h
  exact ⟨⟨_, _, _, _, _, _, rfl⟩, fun _ h => h, fun _ _ h _ => h, id, hk, by simp⟩

-- ---------------------------------------------------------------------------
-- Connections
-- ---------------------------------------------------------------------------

section Keyed
variable {connections : OrdMap Handle BleConnection}

theorem keyed_empty : Keyed .empty := by
  intro h c hc
  cases hc

theorem Keyed.insert (h : Keyed connections) (hc : c.connected → c.connectionHandle = k) :
    Keyed (connections.insert k c) := by
  intro k' c' hk hcon
  rw [OrdMap.get?_insert] at hk
  split at hk
  next he =>
    cases hk
    exact he ▸ hc hcon
  next => exact h k' c' hk hcon

theorem Keyed.modify (h : Keyed connections) {f : BleConnection → BleConnection}
    (hf : ∀ c, (f c).connectionHandle = c.connectionHandle ∧ (f c).connected = c.connected) :
    Keyed (connections.modify k f) := by
  intro k' c' hk hcon
  rw [OrdMap.get?_modify] at hk
  split at hk
  next =>
    obtain ⟨c, hc, rfl⟩ := Option.map_eq_some_iff.mp hk
    rw [(hf c).1]
    exact h k' c hc ((hf c).2 ▸ hcon)
  next => exact h k' c' hk hcon

theorem Keyed.connectionAt (h : Keyed t.connections) (k : Handle) :
    (t.connectionAt k).connected → (t.connectionAt k).connectionHandle = k := by
  unfold Tracker.connectionAt
  cases hk : t.connections.get? k with
  | none => exact fun hc => absurd hc (by decide)
  | some c => exact h k c hk

theorem Keyed.sameConnections (h : Keyed t.connections) (hs : SameConnections t u) :
    Keyed u.connections := by
  intro k c hk hcon
  obtain ⟨c', hc', he⟩ := Option.map_eq_some_iff.mp ((hs.2 k).symm.trans (by rw [hk]; rfl))
  have hcon' : c'.connected = true := (congrArg BleConnection.connected he :).trans hcon
  rw [← connectionHandle_of_settled he]
  exact h k c' hc' hcon'

end Keyed

theorem calm_touchConnection (t : Tracker) (h : Handle) : Calm t (t.touchConnection h) [] :=
  calm_connections fun hk => hk.insert (hk.connectionAt h)

theorem connectionForConnHandle_eq (t : Tracker) (h : Handle) :
    ∃ connections, t.connectionForConnHandle h = { t with connections := connections } := by
  unfold connectionForConnHandle
  split <;> exact ⟨_, rfl⟩

theorem calm_connectionForConnHandle (t : Tracker) (h : Handle) :
    Calm t (t.connectionForConnHandle h) [] := by
  unfold connectionForConnHandle
  split
  · exact .refl t
  · exact calm_connections fun hk => hk.insert fun _ => rfl

theorem calm_updateConnection (t : Tracker) (h : Handle) {f : BleConnection → BleConnection}
    (hf : ∀ c, (f c).connectionHandle = c.connectionHandle ∧ (f c).connected = c.connected) :
    Calm t (t.updateConnection h f) [] :=
  (calm_connectionForConnHandle t h).trans (calm_connections fun hk => hk.modify hf)

theorem calm_reportConnection (t : Tracker) (now : UInt64) (h : Handle) (address : Bytes)
    (addressType : AddressType) : Calm t (t.reportConnection now h address addressType) [] :=
  calm_connections fun hk => hk.insert fun _ => rfl

theorem calm_reportConnectionRole (t : Tracker) (now : UInt64) (h : Handle) (address : Bytes)
    (addressType : AddressType) (role : Role) :
    Calm t (t.reportConnectionRole now h address addressType role).1
      (t.reportConnectionRole now h address addressType role).2 := by
  refine .withOut ((calm_reportConnection t now h address addressType).trans
    (calm_connections fun hk => hk.insert (hk.connectionAt h))) ?_
  simp only [reportConnectionRole]
  split
  · exact List.forall_mem_singleton.mpr rfl
  · exact List.forall_mem_nil _

theorem calm_reportDisconnection (t : Tracker) (frame : Nat) (h : Handle) :
    Calm t (t.reportDisconnection frame h).1 (t.reportDisconnection frame h).2 := by
  refine ⟨⟨_, _, _, _, _, _, rfl⟩, ?_, ?_, fun hk => hk.insert fun hc =>
    absurd hc (by simp), id, ?_⟩
  · intro e he
    exact (Multimap.mem_eraseIf.mp he).1
  · intro a c hm hne
    exact Multimap.mem_eraseIf.mpr ⟨hm, by simp [hne]⟩
  · simp only [reportDisconnection]
    split
    · exact List.forall_mem_singleton.mpr rfl
    · exact List.forall_mem_nil _

theorem calm_getAnyDuplicateHandle (t : Tracker) : Calm t t.getAnyDuplicateHandle.1 [] := by
  unfold getAnyDuplicateHandle
  split
  · exact .refl t
  · exact (calm_touchConnection t _).trans (calm_touchConnection _ _)

-- ---------------------------------------------------------------------------
-- Messages of our own and the announce
-- ---------------------------------------------------------------------------

structure StoresOwn (t u : Tracker) (a : Addr) (packet : Packet) : Prop where
  eq : ∃ messages, u = { t with
    messages := messages
    broadcastPacketsToSendList := t.broadcastPacketsToSendList ++ [a] }
  adds : t.Adds u a packet
  keeps : ∀ id node, t.messages.get? id = some node → u.messages.get? id = some node
  ttl : packet.base.packetTtl = 7

theorem handlePinActivity_cases (P : Platform) (ambient : Ambient) (t : Tracker) :
    handlePinActivity P ambient t = (t, []) ∨
    ∃ a packet, StoresOwn t (handlePinActivity P ambient t).1 a packet ∧
      (handlePinActivity P ambient t).2 = [.storedOwn a] := by
  unfold handlePinActivity
  simp only [storeMessageAndReturnIfNew]
  by_cases hc : t.messages.contains (stillAliveMessage P (t.getTimeMs ambient.now)).messageId
  · simp only [hc, if_true]
    exact .inl trivial
  · rw [Bool.not_eq_true] at hc
    simp only [hc, Bool.false_eq_true, if_false]
    have ha := adds_message (stillAliveMessage P (t.getTimeMs ambient.now)) hc ambient.place
    exact .inr ⟨_, _, ⟨⟨_, rfl⟩, ⟨ha.fresh, ha.mem⟩, fun _ _ => get?_insert_new hc, rfl⟩, rfl⟩

/-- The life check reaches the messages and the broadcast list only. -/
theorem handlePinActivity_frame (P : Platform) (ambient : Ambient) (t : Tracker) :
    ∃ messages broadcast,
    (handlePinActivity P ambient t).1 = { t with
      messages := messages
      broadcastPacketsToSendList := broadcast } := by
  rcases handlePinActivity_cases P ambient t with he | ⟨a, packet, hs, -⟩
  · rw [he]
    exact ⟨_, _, rfl⟩
  · obtain ⟨_, he⟩ := hs.eq
    exact ⟨_, _, he⟩

/-- Enqueueing the announce: its ttl is set, and it is targeted at connections
of the map. -/
structure Announces (t u : Tracker) : Prop where
  eq : ∃ announce connections targeted, u = { t with
    announce := announce
    connections := connections
    targetedPacketsToSendList := targeted }
  ttl : u.announce.packetTtl = 3
  targeted : ∀ e ∈ u.targetedPacketsToSendList.entries,
    e ∈ t.targetedPacketsToSendList.entries ∨ e.1 = t.announceAddr
  keyed : Keyed t.connections → Keyed u.connections

theorem Announces.trans (h : Announces t u) (h' : Announces u v) : Announces t v := by
  have ha : u.announceAddr = t.announceAddr := by
    obtain ⟨_, _, _, rfl⟩ := h.eq
    rfl
  refine ⟨?_, h'.ttl, fun e he => ?_, h'.keyed ∘ h.keyed⟩
  · obtain ⟨_, _, _, rfl⟩ := h.eq
    obtain ⟨_, _, _, rfl⟩ := h'.eq
    exact ⟨_, _, _, rfl⟩
  · rcases h'.targeted e he with he | he
    · exact h.targeted e he
    · exact .inr (he.trans ha)

theorem announces_setup (P : Platform) (t : Tracker) : Announces t (setupAnnounceIfNeeded P t) := by
  unfold setupAnnounceIfNeeded
  split
  next h3 => exact ⟨⟨_, _, _, rfl⟩, h3, fun e he => .inl he, id⟩
  next => exact ⟨⟨_, _, _, rfl⟩, rfl, fun e he => .inl he, id⟩

theorem Announces.refl (h3 : t.announce.packetTtl = 3) : Announces t t :=
  ⟨⟨_, _, _, rfl⟩, h3, fun _ he => .inl he, id⟩

theorem announces_enqueue (h3 : t.announce.packetTtl = 3) (c : BleConnection) :
    Announces t (t.enqueueTargetedPacket t.announceAddr t.announce.packetTtl c) := by
  have hk := (calm_connectionForConnHandle t c.connectionHandle).keyed
  obtain ⟨connections, he⟩ := connectionForConnHandle_eq t c.connectionHandle
  rw [he] at hk
  rw [enqueueTargetedPacket, if_pos (by rw [h3]; decide), he]
  refine ⟨⟨_, _, _, rfl⟩, h3, fun e he => ?_, hk⟩
  rcases Multimap.mem_emplace.mp he with rfl | he
  · exact .inr rfl
  · exact .inl he

theorem announces_announceTo (h3 : t.announce.packetTtl = 3) :
    Announces t (announceTo now stale t h) := by
  unfold announceTo
  split
  · exact .refl h3
  next c hc =>
    split
    · have ht : Announces t { t with
          announce := { t.announce with packetTimestamp := t.getTimeMs now } } :=
        ⟨⟨_, _, _, rfl⟩, h3, fun _ he => .inl he, id⟩
      exact ht.trans (announces_enqueue ht.ttl c)
    · exact .refl h3

theorem announces_foldl (h3 : t.announce.packetTtl = 3) (keys : List Handle) :
    Announces t (keys.foldl (announceTo now stale) t) := by
  induction keys generalizing t with
  | nil => exact .refl h3
  | cons k keys ih =>
    have hk : Announces t (announceTo now stale t k) := announces_announceTo h3
    exact hk.trans (ih hk.ttl)

theorem announces_announceToConnections (P : Platform) (now : UInt64) (stale : Stale)
    (t : Tracker) :
    Announces t (t.announceToConnections P now stale) :=
  (announces_setup P t).trans (announces_foldl (announces_setup P t).ttl _)

-- ---------------------------------------------------------------------------
-- The raw queues
-- ---------------------------------------------------------------------------

structure Drains (t u : Tracker) : Prop where
  eq : ∃ connections notify write, u = { t with
    connections := connections
    rawPacketToNotify := notify
    rawPacketToWrite := write }
  keyed : Keyed t.connections → Keyed u.connections

theorem Drains.trans (h : Drains t u) (h' : Drains u v) : Drains t v := by
  refine ⟨?_, h'.keyed ∘ h.keyed⟩
  obtain ⟨_, _, _, rfl⟩ := h.eq
  obtain ⟨_, _, _, rfl⟩ := h'.eq
  exact ⟨_, _, _, rfl⟩

theorem drains_touchConnection (t : Tracker) (h : Handle) : Drains t (t.touchConnection h) :=
  ⟨⟨_, _, _, rfl⟩, (calm_touchConnection t h).keyed⟩

theorem drains_setRawQueue (t : Tracker) (queue : RawQueue) (m : Multimap Handle Bytes) :
    Drains t (t.setRawQueue queue m) := by
  cases queue <;> exact ⟨⟨_, _, _, rfl⟩, id⟩

theorem drains_refl (t : Tracker) : Drains t t := ⟨⟨_, _, _, rfl⟩, id⟩

theorem drains_handOverFront (queue : RawQueue) (t : Tracker) (h : Handle) (status : UInt8) :
    Drains t (handOverFront queue t h status).1 := by
  unfold handOverFront
  split
  · exact drains_refl t
  · simp only
    split
    · exact (drains_touchConnection t h).trans (drains_setRawQueue _ queue _)
    · exact drains_touchConnection t h

theorem drains_sendRawPacket (queue : RawQueue) (t : Tracker) (h : Handle) (status : UInt8) :
    Drains t (sendRawPacket queue t h status).1 := by
  unfold sendRawPacket
  simp only
  split
  · exact (drains_handOverFront queue t h status).trans (drains_touchConnection _ h)
  · exact drains_handOverFront queue t h status

theorem passive_sendRawPacket (queue : RawQueue) (t : Tracker) (h : Handle) (status : UInt8) :
    ∀ e ∈ (sendRawPacket queue t h status).2, passive e := by
  have hfront : ∀ e ∈ (handOverFront queue t h status).2, passive e := by
    unfold handOverFront
    split
    · simp
    · simp only
      split <;> simp [passive]
  unfold sendRawPacket
  simp only
  split
  · exact hfront
  · intro e he
    rcases List.mem_append.mp he with he | he
    · exact hfront e he
    · rw [List.mem_singleton.mp he]
      rfl

-- ---------------------------------------------------------------------------
-- Events without packets
-- ---------------------------------------------------------------------------

/-- Nothing is stored or sent, and the lists change only in what concerns the
announce. An invariant of packets and lists is about the other events. -/
structure Quiet (t u : Tracker) (out : List Effect) : Prop where
  messages : u.messages = t.messages
  packets : u.packets = t.packets
  announceAddr : u.announceAddr = t.announceAddr
  announce : t.announce.packetTtl = 3 → u.announce.packetTtl = 3
  broadcast : u.broadcastPacketsToSendList = t.broadcastPacketsToSendList
  targeted : ∀ e ∈ u.targetedPacketsToSendList.entries,
    e ∈ t.targetedPacketsToSendList.entries ∨ e.1 = t.announceAddr ∧ u.announce.packetTtl = 3
  peersSent : u.packetsPeersSentList = t.packetsPeersSentList
  sent_sub : ∀ e ∈ u.packetsConnectionsSentList.entries, e ∈ t.packetsConnectionsSentList.entries
  sent_keep : ∀ a c, (a, c) ∈ t.packetsConnectionsSentList.entries → a ≠ t.announceAddr →
    (a, c) ∈ u.packetsConnectionsSentList.entries
  keyed : Keyed t.connections → Keyed u.connections
  peersKeyed : PeersKeyed t.peers → PeersKeyed u.peers
  kinds : ∀ e ∈ out, passive e

theorem Quiet.stored (h : Quiet t u out) : u.stored = t.stored := by
  simp only [Tracker.stored, h.messages, h.packets]

theorem Calm.quiet (h : Calm t u out) : Quiet t u out := by
  obtain ⟨⟨_, _, _, _, _, _, rfl⟩, hsub, hkeep, hk, hp, hout⟩ := h
  exact ⟨rfl, rfl, rfl, id, rfl, fun _ he => .inl he, rfl, hsub, hkeep, hk, hp,
    fun e he => passive_of_minor (hout e he)⟩

theorem Announces.quiet (h : Announces t u) : Quiet t u [] := by
  obtain ⟨⟨_, _, _, rfl⟩, h3, htargeted, hk⟩ := h
  exact ⟨rfl, rfl, rfl, fun _ => h3, rfl, fun e he => (htargeted e he).imp id fun he => ⟨he, h3⟩,
    rfl, fun _ he => he, fun _ _ he _ => he, hk, id, List.forall_mem_nil _⟩

theorem Drains.quiet (h : Drains t u) (hout : ∀ e ∈ out, passive e) : Quiet t u out := by
  obtain ⟨⟨_, _, _, rfl⟩, hk⟩ := h
  exact ⟨rfl, rfl, rfl, id, rfl, fun _ he => .inl he, rfl, fun _ he => he, fun _ _ he _ => he, hk,
    id, hout⟩

theorem quiet_sendRawPacket (queue : RawQueue) (t : Tracker) (h : Handle) (status : UInt8) :
    Quiet t (sendRawPacket queue t h status).1 (sendRawPacket queue t h status).2 :=
  (drains_sendRawPacket queue t h status).quiet (passive_sendRawPacket queue t h status)

-- ---------------------------------------------------------------------------
-- All events
-- ---------------------------------------------------------------------------

def Arrives (i : Input) (origin : ConnPtr) (offset : UInt16) (buffer : Bytes) : Prop :=
  (∃ h, i.event = .attWrite h false .value offset buffer ∧ origin = .entry h) ∨
    (∃ h, i.event = .gattNotification h buffer ∧ offset = 0 ∧ origin = .frame i.ambient.frame)

inductive Outcome (P : Platform) (t : Tracker) (i : Input) : Tracker × List Effect → Prop
  | calm {u : Tracker} {out : List Effect} (h : Calm t u out) : Outcome P t i (u, out)
  | stores {t₀ t' u : Tracker} {origin : ConnPtr} {offset : UInt16} {buffer : Bytes} {p : Incoming}
      {packet : Packet} (hi : Arrives i origin offset buffer)
      (hr : readPacket P.inflate offset buffer = .packet p) (hc : Calm t t₀ [])
      (hl : Learns t₀ t') (hs : Stores P origin p t₀ t' (t₀.allocate i.ambient.place) packet u) :
      Outcome P t i (u, [.storedNew (t₀.allocate i.ambient.place) origin])
  | own {u : Tracker} {a : Addr} {packet : Packet} (h : StoresOwn t u a packet) :
      Outcome P t i (u, [.storedOwn a])
  | drains (queue : RawQueue) (h : Handle) (status : UInt8)
      (hi : i.event = .canSendNotification h status ∧ queue = .notify ∨
        i.event = .canWriteWithoutResponse h status ∧ queue = .write) :
      Outcome P t i (sendRawPacket queue t h status)
  | announces {u : Tracker} (h : Announces t u) : Outcome P t i (u, [])
  | sends (hi : i.event = .sendPackets) : Outcome P t i (t.sendPackets i.ambient.stale)
  | cleans (hi : i.event = .cleanupStaleItems) :
      Outcome P t i (t.cleanupStaleItems i.ambient.stale i.ambient.now, [])

theorem processWrite_outcome {t₀ : Tracker} (hi : Arrives i origin offset buffer)
    (hc : Calm t t₀ []) :
    Outcome P t i (processWrite P i.ambient t₀ origin connection offset buffer) := by
  rcases processWrite_cases P i.ambient t₀ origin connection offset buffer with
    (h | h) | ⟨p, hr, ⟨hl, ho⟩ | ⟨t', packet, hl, hs, ho⟩⟩
  · rw [h]
    exact .calm hc
  · rw [h]
    exact .calm (hc.withOut (List.forall_mem_singleton.mpr rfl))
  · rw [← Prod.mk.eta (p := processWrite ..), ho]
    exact .calm (hc.trans (.ofLearns hl))
  · rw [← Prod.mk.eta (p := processWrite ..), ho]
    exact .stores hi hr hc hl hs

def ordinary : Event → Bool
  | .attWrite _ transaction att _ _ => transaction || att ≠ .value
  | .gattNotification .. | .canSendNotification .. | .canWriteWithoutResponse .. | .lifeCheck
  | .announceToConnections | .sendPackets | .cleanupStaleItems => false
  | _ => true

def teaches (h : Handle) : Event → Bool
  | .gattCharacteristicQueryResult k characteristic =>
    k = h && characteristic.uuid16 = 0 && characteristic.uuid128 = bitchatCharacteristicUuid
  | .attWrite k false .clientConfiguration _ buffer =>
    k = h && buffer.getD 0 0 = 1 && buffer.getD 1 0 = 0
  | _ => false

def Tells (f : BleConnection → BleConnection) : Prop :=
  ∀ c, ∃ enabled value mtu first last, f c = { c with
    notificationEnabled := enabled
    bitchatCharacteristicValueHandle := value
    btMtu := mtu
    bitchatServiceStartGroupHandle := first
    bitchatServiceEndGroupHandle := last }

section Tells
variable {f : BleConnection → BleConnection} (h : Tells f) (c : BleConnection)
include h

theorem Tells.handle : (f c).connectionHandle = c.connectionHandle := by
  obtain ⟨_, _, _, _, _, he⟩ := h c
  rw [he]

theorem Tells.connected : (f c).connected = c.connected := by
  obtain ⟨_, _, _, _, _, he⟩ := h c
  rw [he]

theorem Tells.hasDataToSend : (f c).hasDataToSend = c.hasDataToSend := by
  obtain ⟨_, _, _, _, _, he⟩ := h c
  rw [he]

end Tells

inductive Adjusts (P : Platform) (t : Tracker) (i : Input) : Tracker × List Effect → Prop
  | same : Adjusts P t i (t, [])
  | find (h : Handle) : Adjusts P t i (t.connectionForConnHandle h, [])
  | update (h : Handle) {f : BleConnection → BleConnection} (hf : Tells f)
      (hv : (∀ c, (f c).bitchatCharacteristicValueHandle = c.bitchatCharacteristicValueHandle) ∨
        teaches h i.event) : Adjusts P t i (t.updateConnection h f, [])
  | advertise (address : Bytes) (addressType : AddressType) (services : ServiceUuidCheckStatus)
      (rssi : Int) :
      Adjusts P t i (t.addAvailablePeer i.ambient.now address addressType services rssi, [])
  | report (h : Handle) (address : Bytes) (addressType : AddressType)
      (hi : i.event = .attConnected h address addressType) :
      Adjusts P t i (t.reportConnection i.ambient.now h address addressType, [])
  | reportRole (h : Handle) (address : Bytes) (addressType : AddressType) (role : Role)
      (hi : i.event = .connectionComplete h address addressType role) :
      Adjusts P t i (t.reportConnectionRole i.ambient.now h address addressType role)
  | disconnect (h : Handle) (hi : i.event = .disconnected h) :
      Adjusts P t i (t.reportDisconnection i.ambient.frame h)
  | connect (neighbour : BleConnection) :
      Adjusts P t i (t, [.gapConnect neighbour.btAddress neighbour.btAddressType])
  | start (neighbour : BleConnection) : Adjusts P t i
      (t.setConnectionStarted neighbour, [.gapConnect neighbour.btAddress neighbour.btAddressType])
  | duplicates (hi : i.event = .getAnyDuplicateHandle) : Adjusts P t i
      (t.getAnyDuplicateHandle.1, [])

theorem tells_setClientConfiguration (P : Platform) (buffer : Bytes) :
    Tells (setClientConfiguration P buffer) := by
  intro c
  unfold setClientConfiguration
  simp only
  split <;> exact ⟨_, _, _, _, _, rfl⟩

theorem tells_serviceResult (service : GattService) :
    Tells fun c => if service.uuid16 = 0 then c.storeHandlesIfServiceMatches service else c := by
  intro c
  unfold BleConnection.storeHandlesIfServiceMatches
  split
  · split <;> exact ⟨_, _, _, _, _, rfl⟩
  · exact ⟨_, _, _, _, _, rfl⟩

theorem tells_characteristicResult (characteristic : GattCharacteristic) :
    Tells fun c => if characteristic.uuid16 = 0 then
        c.storeHandlesIfCharacteristicMatches characteristic
      else c := by
  intro c
  unfold BleConnection.storeHandlesIfCharacteristicMatches
  split
  · split <;> exact ⟨_, _, _, _, _, rfl⟩
  · exact ⟨_, _, _, _, _, rfl⟩

theorem adjusts_step (hi : ordinary i.event) : Adjusts P t i (step P t i) := by
  obtain ⟨event, ambient⟩ := i
  cases event with
  | attWrite h transaction att offset buffer =>
    cases transaction with
    | true => exact .same
    | false =>
      cases att with
      | clientConfiguration =>
        refine .update h (tells_setClientConfiguration P buffer) ?_
        by_cases hb : buffer.getD 0 0 = 1 ∧ buffer.getD 1 0 = 0
        · exact .inr (by simpa [teaches] using hb)
        · exact .inl fun c => by rw [setClientConfiguration, if_neg hb]
      | value => cases hi
      | other => exact .find h
  | gattMtu h mtu => exact .update h (fun _ => ⟨_, _, _, _, _, rfl⟩) (.inl fun _ => rfl)
  | gattServiceQueryResult h service =>
    refine .update h (tells_serviceResult service) (.inl fun c => ?_)
    unfold BleConnection.storeHandlesIfServiceMatches
    split
    · split <;> rfl
    · rfl
  | gattCharacteristicQueryResult h characteristic =>
    refine .update h (tells_characteristicResult characteristic) ?_
    by_cases hu : characteristic.uuid16 = 0 ∧ characteristic.uuid128 = bitchatCharacteristicUuid
    · exact .inr (by simp [teaches, hu])
    · refine .inl fun c => ?_
      unfold BleConnection.storeHandlesIfCharacteristicMatches
      split
      · split
        · exact absurd ⟨‹_›, ‹_›⟩ hu
        · rfl
      · rfl
  | gattQueryComplete h => exact .find h
  | rssiMeasurement h => exact .find h
  | advertisingReport address addressType services rssi =>
    simp only [step]
    split
    · exact .same
    · exact .advertise address addressType services rssi
  | connectionComplete h address addressType role =>
    exact .reportRole h address addressType role rfl
  | attConnected h address addressType => exact .report h address addressType rfl
  | disconnected h => exact .disconnect h rfl
  | connectToFirstNeighbour err =>
    simp only [step, connectToFirstNeighbour]
    split
    · exact .same
    next neighbour _ _ =>
      split
      · exact .same
      · split
        · exact .start neighbour
        · exact .connect neighbour
  | getAnyDuplicateHandle => exact .duplicates rfl
  | _ => cases hi

theorem Adjusts.calm (h : Adjusts P t i r) : Calm t r.1 r.2 := by
  cases h with
  | same => exact .refl t
  | find h => exact calm_connectionForConnHandle t h
  | update h hf hv => exact calm_updateConnection t h fun c => ⟨hf.handle c, hf.connected c⟩
  | advertise => exact calm_connections id
  | report h address addressType => exact calm_reportConnection t _ h address addressType
  | reportRole h address addressType role =>
    exact calm_reportConnectionRole t _ h address addressType role
  | disconnect h => exact calm_reportDisconnection t _ h
  | connect neighbour => exact .withOut (.refl t) (List.forall_mem_singleton.mpr rfl)
  | start neighbour => exact .withOut (calm_connections id) (List.forall_mem_singleton.mpr rfl)
  | duplicates => exact calm_getAnyDuplicateHandle t

theorem calm_step (hi : ordinary i.event) : Calm t (step P t i).1 (step P t i).2 :=
  (adjusts_step hi).calm

theorem attWrite_of_not_ordinary
    (h : ordinary (.attWrite k transaction att offset buffer) = false) :
    transaction = false ∧ att = .value := by
  unfold ordinary at h
  simpa using h

theorem step_outcome (P : Platform) (t : Tracker) (i : Input) : Outcome P t i (step P t i) := by
  cases hi : ordinary i.event with
  | true => exact .calm (calm_step hi)
  | false =>
    obtain ⟨event, ambient⟩ := i
    cases event with
    | attWrite h transaction att offset buffer =>
      obtain ⟨rfl, rfl⟩ := attWrite_of_not_ordinary hi
      exact processWrite_outcome (.inl ⟨h, rfl, rfl⟩) (calm_connectionForConnHandle t h)
    | gattNotification h value =>
      exact processWrite_outcome (.inr ⟨h, rfl, rfl, rfl⟩) (calm_connectionForConnHandle t h)
    | canSendNotification h status => exact .drains .notify h status (.inl ⟨rfl, rfl⟩)
    | canWriteWithoutResponse h status => exact .drains .write h status (.inr ⟨rfl, rfl⟩)
    | lifeCheck =>
      rcases handlePinActivity_cases P ambient t with he | ⟨a, packet, hs, ho⟩
      · simp only [step, he]
        exact .calm (.refl t)
      · simp only [step]
        rw [← Prod.mk.eta (p := handlePinActivity ..), ho]
        exact .own hs
    | announceToConnections => exact .announces (announces_announceToConnections P _ _ t)
    | sendPackets => exact .sends rfl
    | cleanupStaleItems => exact .cleans rfl
    | _ => cases hi

theorem Outcome.sends_of_call (h : Outcome P t i r) (hm : .sendPacketToConnection a c k ∈ r.2) :
    r = t.sendPackets i.ambient.stale := by
  cases h with
  | calm h => exact absurd (h.kinds _ hm) Bool.false_ne_true
  | drains queue k status =>
    exact absurd ((quiet_sendRawPacket queue t k status).kinds _ hm) Bool.false_ne_true
  | sends => rfl
  | _ => simp at hm

-- ---------------------------------------------------------------------------
-- Peers in a run
-- ---------------------------------------------------------------------------

theorem Outcome.peersKeyed (h : Outcome P t i r) (hk : PeersKeyed t.peers) :
    PeersKeyed r.1.peers := by
  cases h with
  | calm h => exact h.peersKeyed hk
  | stores hi hr hc hl hs => exact (hs.receives hl).keyed (hc.peersKeyed hk)
  | own h =>
    obtain ⟨_, rfl⟩ := h.eq
    exact hk
  | drains queue k status => exact (quiet_sendRawPacket queue t k status).peersKeyed hk
  | announces h => exact h.quiet.peersKeyed hk
  | sends =>
    obtain ⟨v, targeted, hs, he, -⟩ := sendPackets_sends i.ambient.stale t
    rw [he]
    exact hs.peers ▸ hk
  | cleans => exact hk

theorem peersKeyed_run (P : Platform) (a : Addr) (is : List Input) :
    PeersKeyed (run (step P) { announceAddr := a } is).1.peers :=
  run_state_invariant (fun t => PeersKeyed t.peers) (fun t i _ hk =>
    (step_outcome P t i).peersKeyed hk)
    peersKeyed_empty (along_true _ _)

end BitchatRepeater
