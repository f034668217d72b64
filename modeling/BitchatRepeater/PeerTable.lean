import BitchatRepeater.EventLaws
import BitchatRepeater.MessageCodec
import BitchatRepeater.PeerHandles

/-!
# The peer table

Peers are entered where a packet names one: as the sender of an announce, of a
noise identity, of a message or of a packet passed along, and in the sender peer
field of a message. `PeerChange` says what these paths do to the table and to the
pointers into it; a payload that is rejected half-way is no exception.
-/

namespace BitchatRepeater

open Lib Tracker ProtocolProcessor

variable {t u v : Tracker} {peers ps : Peers} {peer : UInt64}

-- ---------------------------------------------------------------------------
-- Announces heard
-- ---------------------------------------------------------------------------

def arrival : Event → Option (UInt16 × Bytes)
  | .attWrite _ false .value offset buffer => some (offset, buffer)
  | .gattNotification _ value => some (0, value)
  | _ => none

def ProtocolProcessor.Incoming.announced (p : Incoming) : Option (UInt64 × UInt8) :=
  if p.type = PacketType.typeAnnounce.code then some (p.sender, p.ttl) else none

def announceHeard (P : Platform) (i : Input) : Option (UInt64 × UInt8) :=
  match arrival i.event with
  | none => none
  | some (offset, buffer) =>
    match readPacket P.inflate offset buffer with
    | .packet p => p.announced
    | _ => none

def ttlsHeard (P : Platform) (is : List Input) (sender : UInt64) : List UInt8 :=
  (is.filterMap (announceHeard P)).filterMap fun a => if a.1 = sender then some a.2 else none

/-- The greatest of a list of ttls, 0 for an empty one. -/
def IsMaximum (ttl : UInt8) (ttls : List UInt8) : Prop :=
  (∀ x ∈ ttls, x ≤ ttl) ∧ (ttl ∈ ttls ∨ ttls = [] ∧ ttl = 0)

-- ---------------------------------------------------------------------------
-- Changes to the table
-- ---------------------------------------------------------------------------

/-- Where the tracker holds a `Peer *`. A message without a sender peer holds none. -/
def heldPeers (t : Tracker) : List UInt64 :=
  t.handlePeerMap.entries.map Prod.snd ++ t.packetsPeersSentList.entries.map Prod.snd ++
    t.messages.entries.filterMap fun e => e.2.val.senderPeer

theorem mem_heldPeers : peer ∈ heldPeers t ↔ (∃ h, t.handlePeerMap.get? h = some peer) ∨
    (∃ a, (a, peer) ∈ t.packetsPeersSentList.entries) ∨
      ∃ key node, t.messages.get? key = some node ∧ node.val.senderPeer = some peer := by
  simp only [heldPeers, List.mem_append, List.mem_map, List.mem_filterMap, Prod.exists,
    exists_eq_right, OrdMap.get?_eq_some, or_assoc]

/-- What one event may do to the table: peers stay, new pointers are to peers of
the table, and only an announce changes a ttl, and only upwards. -/
structure PeerChange (t u : Tracker) (x : Option (UInt64 × UInt8)) : Prop where
  keyed : PeersKeyed t.peers → PeersKeyed u.peers
  stay : ∀ k, t.peers.contains k → u.peers.contains k
  held : ∀ id ∈ heldPeers u, id ∈ heldPeers t ∨ u.peers.contains id
  others : ∀ k, (∀ ttl, x ≠ some (k, ttl)) → notedTtl u k = notedTtl t k
  heard : ∀ k ttl, x = some (k, ttl) → u.peers.contains k ∧
    (notedTtl t k ≤ ttl ∧ notedTtl u k = ttl ∨ ttl < notedTtl t k ∧ notedTtl u k = notedTtl t k)

theorem PeerChange.quiet (hp : u.peers = t.peers) (hh : ∀ id ∈ heldPeers u, id ∈ heldPeers t) :
    PeerChange t u none where
  keyed := hp ▸ id
  stay := hp ▸ fun _ hk => hk
  held := fun peer hp => .inl (hh peer hp)
  others := fun k _ => by rw [notedTtl, notedTtl, hp]
  heard := fun _ _ he => nomatch he

theorem PeerChange.refl (t : Tracker) : PeerChange t t none := .quiet rfl fun _ hid => hid

theorem PeerChange.held_trans (h : PeerChange t u x) (h' : PeerChange u v y) :
    ∀ id ∈ heldPeers v, id ∈ heldPeers t ∨ v.peers.contains id := by
  intro id hid
  rcases h'.held id hid with hid | hid
  · exact (h.held id hid).imp_right (h'.stay id)
  · exact .inr hid

theorem PeerChange.before (h : PeerChange t u none) (h' : PeerChange u v x) : PeerChange t v x where
  keyed := h'.keyed ∘ h.keyed
  stay := fun k hk => h'.stay k (h.stay k hk)
  held := h.held_trans h'
  others := fun k hk => (h'.others k hk).trans (h.others k fun _ he => nomatch he)
  heard := fun k ttl he => by
    rw [← h.others k fun _ he => nomatch he]
    exact h'.heard k ttl he

theorem PeerChange.after (h : PeerChange t u x) (h' : PeerChange u v none) : PeerChange t v x where
  keyed := h'.keyed ∘ h.keyed
  stay := fun k hk => h'.stay k (h.stay k hk)
  held := h.held_trans h'
  others := fun k hk => (h'.others k fun _ he => nomatch he).trans (h.others k hk)
  heard := fun k ttl he => by
    obtain ⟨hk, hn⟩ := h.heard k ttl he
    rw [h'.others k fun _ he => nomatch he]
    exact ⟨h'.stay k hk, hn⟩

-- ---------------------------------------------------------------------------
-- Entering peers
-- ---------------------------------------------------------------------------

theorem maxTtl_checkSender (peers : Peers) (sender k : UInt64) :
    (((checkSenderInPeers peers sender).get? k).map Peer.maxTtl).getD 0 =
      ((peers.get? k).map Peer.maxTtl).getD 0 := by
  unfold checkSenderInPeers
  split
  · rfl
  next hc =>
    rw [OrdMap.get?_insert]
    split
    next hk =>
      subst hk
      have hn : peers.get? k = none := by simpa [OrdMap.contains] using hc
      rw [hn]
      rfl
    next => rfl

theorem PeerChange.checkSender (t : Tracker) (sender : UInt64) :
    PeerChange t { t with peers := checkSenderInPeers t.peers sender } none where
  keyed := fun hk => hk.checkSenderInPeers sender
  stay := fun _ hk => contains_checkSenderInPeers_of_contains hk
  held := fun _ hid => .inl hid
  others := fun k _ => maxTtl_checkSender t.peers sender k
  heard := fun _ _ he => nomatch he

theorem PeerChange.modify (t : Tracker) (sender : UInt64) {f : Peer → Peer}
    (hid : ∀ peer, (f peer).id = peer.id) (hf : ∀ peer, (f peer).maxTtl = peer.maxTtl) :
    PeerChange t { t with peers := t.peers.modify sender f } none where
  keyed := fun hk => hk.modify sender hid
  stay := fun _ hk => OrdMap.contains_modify.trans hk
  held := fun _ hp => .inl hp
  others := fun k _ => by
    simp only [notedTtl, OrdMap.get?_modify]
    split
    · cases t.peers.get? k with
      | none => rfl
      | some peer => exact hf peer
    · rfl
  heard := fun _ _ he => nomatch he

theorem PeerChange.updatePeer (t : Tracker) (sender : UInt64) {f : Peer → Peer}
    (hid : ∀ peer, (f peer).id = peer.id) (hf : ∀ peer, (f peer).maxTtl = peer.maxTtl) :
    PeerChange t { t with peers := updatePeer t.peers sender f } none :=
  (PeerChange.checkSender t sender).after (.modify { t with peers := _ } sender hid hf)

theorem PeerChange.processMessage (t : Tracker) (m : Message) (payload : Bytes) :
    PeerChange t { t with peers := (processMessage t.peers m payload).1 } none := by
  rw [peers_processMessage]
  split
  · exact .quiet rfl fun _ hid => hid
  · exact .checkSender t _

-- ---------------------------------------------------------------------------
-- Packets
-- ---------------------------------------------------------------------------

theorem PeerChange.noteTtl (t : Tracker) (h : Handle) (ttl : UInt8) (hc : t.peers.contains sender) :
    PeerChange t (if ttl ≥ notedTtl t sender then
        { t with
          peers := t.peers.modify sender fun peer => { peer with maxTtl := ttl }
          handlePeerMap := t.handlePeerMap.insert h sender }
      else t) (some (sender, ttl)) := by
  have hne {k : UInt64} (hk : ∀ l, some (sender, ttl) ≠ some (k, l)) : k ≠ sender :=
    fun he => hk ttl (by rw [he])
  split
  next hle =>
    have hkeep : (t.peers.modify sender fun peer => { peer with maxTtl := ttl }).contains sender :=
      OrdMap.contains_modify.trans hc
    refine ⟨fun hk => hk.modify sender fun _ => rfl, fun k hk => OrdMap.contains_modify.trans hk,
      fun peer hp => ?_, fun k hk => ?_, ?_⟩
    · rcases mem_heldPeers.mp hp with ⟨k, hp⟩ | hp | hp
      · rw [OrdMap.get?_insert] at hp
        split at hp
        · cases hp
          exact .inr hkeep
        · exact .inl (mem_heldPeers.mpr (.inl ⟨k, hp⟩))
      · exact .inl (mem_heldPeers.mpr (.inr (.inl hp)))
      · exact .inl (mem_heldPeers.mpr (.inr (.inr hp)))
    · rw [notedTtl, OrdMap.get?_modify, if_neg (hne hk), notedTtl]
    · rintro k l ⟨⟩
      obtain ⟨peer, hp⟩ := Option.isSome_iff_exists.mp hc
      refine ⟨hkeep, .inl ⟨hle, ?_⟩⟩
      rw [notedTtl, OrdMap.get?_modify, if_pos rfl, hp]
      rfl
  next hlt =>
    refine ⟨id, fun _ hk => hk, fun _ hp => .inl hp, fun _ _ => rfl, ?_⟩
    rintro k l ⟨⟩
    exact ⟨hc, .inr ⟨UInt8.not_le.mp hlt, rfl⟩⟩

theorem PeerChange.announce (t : Tracker) (sender : UInt64) (name : Bytes) (ttl : UInt8)
    (connection : BleConnection) :
    PeerChange t (updateOrStorePeerName t sender name ttl connection) (some (sender, ttl)) := by
  have hname := PeerChange.updatePeer t sender (f := fun peer => { peer with name := name })
    (fun _ => rfl) fun _ => rfl
  have hc := contains_updatePeer t.peers sender fun peer => { peer with name := name }
  exact hname.before (.noteTtl _ connection.connectionHandle ttl hc)

theorem PeerChange.enqueue (t : Tracker) (a : Addr) (ttl : UInt8) (origin : ConnPtr)
    (hs : t.peers.contains sender) :
    PeerChange t (t.enqueueBroadcastPacketFrom a ttl origin sender) none := by
  rw [enqueueBroadcastPacketFrom_eq]
  refine ⟨id, fun _ hk => hk, fun peer hp => ?_, fun _ _ => rfl, fun _ _ he => nomatch he⟩
  rcases mem_heldPeers.mp hp with hp | ⟨b, hp⟩ | hp
  · exact .inl (mem_heldPeers.mpr (.inl hp))
  · rcases Multimap.mem_emplace.mp hp with he | hp
    · cases he
      exact .inr hs
    · exact .inl (mem_heldPeers.mpr (.inr (.inl ⟨b, hp⟩)))
  · exact .inl (mem_heldPeers.mpr (.inr (.inr hp)))

theorem PeerChange.storeMessage (t : Tracker) (place : Addr) {m : Message}
    (hm : ∀ id, m.senderPeer = some id → t.peers.contains id) :
    PeerChange t (t.storeMessageAndReturnIfNew place m).1 none := by
  unfold storeMessageAndReturnIfNew
  split
  · exact .refl t
  · refine ⟨id, fun _ hk => hk, fun peer hp => ?_, fun _ _ => rfl, fun _ _ he => (by cases he)⟩
    rcases mem_heldPeers.mp hp with hp | hp | ⟨key, node, hg, hp⟩
    · exact .inl (mem_heldPeers.mpr (.inl hp))
    · exact .inl (mem_heldPeers.mpr (.inr (.inl hp)))
    · rw [OrdMap.get?_insert] at hg
      split at hg
      · cases hg
        exact .inr (hm peer hp)
      · exact .inl (mem_heldPeers.mpr (.inr (.inr ⟨key, node, hg, hp⟩)))

theorem PeerChange.storePacket (t : Tracker) (hash : Bytes → UInt32) (place : Addr)
    (p : PacketPassAlong) :
    PeerChange t (t.storePacketAndReturnIfNew hash place p).1 none := by
  unfold storePacketAndReturnIfNew
  split
  · exact .refl t
  · exact .quiet rfl fun _ hp => hp

theorem PeerChange.possiblyUpdateTimeOffset (t : Tracker) (now timestampMs : UInt64) :
    PeerChange t (t.possiblyUpdateTimeOffset now timestampMs) none := by
  obtain ⟨offset, he⟩ : ∃ offset, t.possiblyUpdateTimeOffset now timestampMs =
      { t with timestampOffsetMs := offset } := by
    unfold Tracker.possiblyUpdateTimeOffset
    extract_lets
    split <;> exact ⟨_, rfl⟩
  rw [he]
  exact .quiet rfl fun _ hp => hp

theorem PeerChange.handleMessage (ambient : Ambient) (t : Tracker) (origin : ConnPtr)
    (p : Incoming) :
    PeerChange t (handleMessage ambient t origin p).1 none := by
  have hcheck := PeerChange.checkSender t p.sender
  have hmessage := PeerChange.processMessage { t with peers := checkSenderInPeers t.peers p.sender }
    p.message p.payload
  have hsender := hmessage.stay p.sender (contains_checkSenderInPeers t.peers p.sender)
  have hread := hcheck.after hmessage
  unfold ProtocolProcessor.handleMessage
  rcases hr : ProtocolProcessor.processMessage (checkSenderInPeers t.peers p.sender)
    p.message p.payload
    with ⟨ps, _ | m⟩
  · rw [hr] at hread
    exact hread
  · rw [hr] at hread hsender
    have hknown := (processMessage_sound p.fresh_message hr).2
    have hstore := hread.after (.storeMessage { t with peers := ps } ambient.place hknown)
    have hkeep := (PeerChange.storeMessage { t with peers := ps } ambient.place hknown).stay
      p.sender hsender
    simp only
    generalize storeMessageAndReturnIfNew { t with peers := ps } ambient.place m =
      r at hstore hkeep ⊢
    obtain ⟨v, _ | a⟩ := r
    · exact hstore
    · exact hstore.after (.enqueue v a _ origin hkeep)

theorem PeerChange.handlePassAlong (hash : Bytes → UInt32) (ambient : Ambient) (t : Tracker)
    (origin : ConnPtr) (p : Incoming) :
    PeerChange t (handlePassAlong hash ambient t origin p).1 none := by
  unfold ProtocolProcessor.handlePassAlong
  split
  · exact .refl t
  · have hcheck := PeerChange.checkSender t p.sender
    have hstore := PeerChange.storePacket
      { t with peers := checkSenderInPeers t.peers p.sender } hash ambient.place p.passAlong
    have hkeep := hstore.stay p.sender (contains_checkSenderInPeers t.peers p.sender)
    simp only
    generalize storePacketAndReturnIfNew
      { t with peers := checkSenderInPeers t.peers p.sender } hash ambient.place p.passAlong = r
      at hstore hkeep ⊢
    obtain ⟨v, _ | a⟩ := r
    · exact hcheck.after hstore
    · exact (hcheck.after hstore).after (.enqueue v a _ origin hkeep)

theorem PeerChange.dispatch (P : Platform) (ambient : Ambient) (t : Tracker) (origin : ConnPtr)
    (connection : BleConnection) (p : Incoming) :
    PeerChange t (dispatch P ambient t origin connection p).1 p.announced := by
  have hother (type : PacketType) (ht : PacketType.ofCode? p.type = some type)
      (hne : type ≠ .typeAnnounce) : p.announced = none := by
    refine if_neg fun he => hne ?_
    rw [he, PacketType.ofCode?_code] at ht
    exact (Option.some.inj ht).symm
  unfold ProtocolProcessor.dispatch
  cases ht : PacketType.ofCode? p.type with
  | none =>
    have hnone : p.announced = none := by
      refine if_neg fun he => ?_
      rw [he, PacketType.ofCode?_code] at ht
      cases ht
    rw [hnone]
    exact .refl t
  | some type =>
    split
    next he =>
      cases he
      rw [hother _ ht (by decide)]
      exact .updatePeer t p.sender (fun _ => rfl) fun _ => rfl
    next he =>
      cases he
      rw [hother _ ht (by decide)]
      exact .handleMessage ambient t origin p
    next he =>
      cases he
      have hannounced : p.announced = some (p.sender, p.ttl) :=
        if_pos (PacketType.code_of_ofCode? ht).symm
      rw [hannounced]
      exact .after (.after (.announce t p.sender p.payload p.ttl connection)
        (.possiblyUpdateTimeOffset _ ambient.now p.timestampMs))
        (.handlePassAlong P.hash ambient _ origin p)
    next hne he =>
      cases he
      rw [hother _ ht fun he => hne (by rw [he])]
      split
      · exact .handlePassAlong P.hash ambient t origin p
      · exact .refl t
    next he => cases he

theorem PeerChange.processWrite (P : Platform) (ambient : Ambient) (t : Tracker) (origin : ConnPtr)
    (connection : BleConnection) (offset : UInt16) (buffer : Bytes) :
    PeerChange t (processWrite P ambient t origin connection offset buffer).1
      (match readPacket P.inflate offset buffer with
        | .packet p => p.announced
        | _ => none) := by
  unfold ProtocolProcessor.processWrite
  cases readPacket P.inflate offset buffer with
  | rejected => exact .refl t
  | nullSignature => exact .refl t
  | packet p => exact .dispatch P ambient t origin connection p

-- ---------------------------------------------------------------------------
-- Events
-- ---------------------------------------------------------------------------

theorem PeerChange.connectionForConnHandle (t : Tracker) (h : Handle) :
    PeerChange t (t.connectionForConnHandle h) none := by
  obtain ⟨_, he⟩ := connectionForConnHandle_eq t h
  rw [he]
  exact .quiet rfl fun _ hp => hp

theorem PeerChange.adjusts (h : Adjusts P t i r) : PeerChange t r.1 none := by
  cases h with
  | same => exact .refl t
  | find h => exact .connectionForConnHandle t h
  | update h => exact (PeerChange.connectionForConnHandle t h).after (.quiet rfl fun _ hp => hp)
  | advertise => exact .quiet rfl fun _ hp => hp
  | report => exact .quiet rfl fun _ hp => hp
  | reportRole => exact .quiet rfl fun _ hp => hp
  | disconnect h =>
    refine .quiet rfl fun peer hp => ?_
    rcases mem_heldPeers.mp hp with ⟨k, hp⟩ | hp | hp
    · rw [OrdMap.get?_eq_some] at hp
      exact mem_heldPeers.mpr (.inl ⟨k, OrdMap.get?_eq_some.mpr (OrdMap.mem_eraseIf.mp hp).1⟩)
    · exact mem_heldPeers.mpr (.inr (.inl hp))
    · exact mem_heldPeers.mpr (.inr (.inr hp))
  | connect => exact .refl t
  | start => exact .quiet rfl fun _ hp => hp
  | duplicates =>
    unfold getAnyDuplicateHandle
    split <;> exact .quiet rfl fun _ hp => hp

theorem announceHeard_ordinary (hi : ordinary i.event) : announceHeard P i = none := by
  obtain ⟨event, ambient⟩ := i
  cases event with
  | attWrite h transaction att offset buffer =>
    cases transaction with
    | true => rfl
    | false =>
      cases att with
      | value => cases hi
      | _ => rfl
  | gattNotification => cases hi
  | _ => rfl

theorem PeerChange.step (P : Platform) (t : Tracker) (i : Input) :
    PeerChange t (step P t i).1 (announceHeard P i) := by
  cases hi : ordinary i.event with
  | true =>
    rw [announceHeard_ordinary hi]
    exact .adjusts (adjusts_step hi)
  | false =>
    obtain ⟨event, ambient⟩ := i
    have hfind (h : Handle) := PeerChange.connectionForConnHandle t h
    cases event with
    | attWrite h transaction att offset buffer =>
      obtain ⟨rfl, rfl⟩ := attWrite_of_not_ordinary hi
      exact (hfind h).before (.processWrite P ambient _ _ _ offset buffer)
    | gattNotification h value => exact (hfind h).before (.processWrite P ambient _ _ _ 0 value)
    | canSendNotification h status =>
      obtain ⟨_, _, _, he⟩ := (drains_sendRawPacket .notify t h status).eq
      simp only [BitchatRepeater.step, notifyRawPacket, he]
      exact .quiet rfl fun _ hp => hp
    | canWriteWithoutResponse h status =>
      obtain ⟨_, _, _, he⟩ := (drains_sendRawPacket .write t h status).eq
      simp only [BitchatRepeater.step, writeRawPacket, he]
      exact .quiet rfl fun _ hp => hp
    | lifeCheck =>
      simp only [BitchatRepeater.step, handlePinActivity]
      have hstore := PeerChange.storeMessage t ambient.place
        (m := stillAliveMessage P (t.getTimeMs ambient.now))
        fun _ he => (by cases he)
      generalize t.storeMessageAndReturnIfNew ambient.place
        (stillAliveMessage P (t.getTimeMs ambient.now)) = r at hstore ⊢
      obtain ⟨v, _ | a⟩ := r
      · exact hstore
      · refine hstore.after ?_
        simp only [enqueueBroadcastPacket]
        split <;> exact .quiet rfl fun _ hp => hp
    | announceToConnections =>
      obtain ⟨_, _, _, he⟩ := (announces_announceToConnections P ambient.now ambient.stale t).eq
      simp only [BitchatRepeater.step, he]
      exact .quiet rfl fun _ hp => hp
    | sendPackets =>
      obtain ⟨v, targeted, hs, he, -⟩ := sendPackets_sends ambient.stale t
      obtain ⟨_, _, _, _, hv⟩ := hs.eq
      simp only [BitchatRepeater.step, he, hv]
      exact .quiet rfl fun _ hp => hp
    | cleanupStaleItems =>
      refine .quiet rfl fun peer hp => ?_
      rcases mem_heldPeers.mp hp with hp | ⟨a, hp⟩ | ⟨key, node, hg, hp⟩
      · exact mem_heldPeers.mpr (.inl hp)
      · exact mem_heldPeers.mpr (.inr (.inl ⟨a, (Multimap.mem_eraseIf.mp hp).1⟩))
      · rw [OrdMap.get?_eq_some] at hg
        have hnode := OrdMap.get?_eq_some.mpr (OrdMap.mem_eraseIf.mp hg).1
        exact mem_heldPeers.mpr (.inr (.inr ⟨key, node, hnode, hp⟩))
    | _ => cases hi

-- ---------------------------------------------------------------------------
-- Runs
-- ---------------------------------------------------------------------------

/-- The table is in order: peers are stored under their own ids, all pointers are
to peers of the table, and the ttl of each peer is the greatest it was heard with. -/
structure PeerTable (t : Tracker) (ttls : UInt64 → List UInt8) : Prop where
  keyed : PeersKeyed t.peers
  held : ∀ peer ∈ heldPeers t, t.peers.contains peer
  known : ∀ k, ttls k ≠ [] → t.peers.contains k
  maximum : ∀ k peer, t.peers.get? k = some peer → IsMaximum peer.maxTtl (ttls k)

theorem notedTtl_of_get? (h : t.peers.get? k = some p) : notedTtl t k = p.maxTtl := by
  rw [notedTtl, h]
  rfl

/-- The ttl of a peer not in the table yet is 0, the maximum of no announces. -/
theorem PeerTable.isMaximum (h : PeerTable t ttls) (k : UInt64) :
    IsMaximum (notedTtl t k) (ttls k) := by
  cases hg : t.peers.get? k with
  | some p =>
    rw [notedTtl_of_get? hg]
    exact h.maximum k p hg
  | none =>
    have hnone : ttls k = [] := by
      by_contra hne
      have hc := h.known k hne
      rw [OrdMap.contains, hg] at hc
      cases hc
    have hz : notedTtl t k = 0 := by
      rw [notedTtl, hg]
      rfl
    rw [hnone, hz]
    exact ⟨List.forall_mem_nil _, .inr ⟨rfl, rfl⟩⟩

theorem isMaximum_snoc_higher (h : IsMaximum noted ttls) (hle : noted ≤ ttl) :
    IsMaximum ttl (ttls ++ [ttl]) := by
  refine ⟨fun x hx => ?_, .inl (by simp)⟩
  rcases List.mem_append.mp hx with hx | hx
  · exact UInt8.le_trans (h.1 x hx) hle
  · rw [List.mem_singleton.mp hx]
    exact UInt8.le_refl ttl

theorem isMaximum_snoc_lower (h : IsMaximum noted ttls) (hlt : ttl < noted) :
    IsMaximum noted (ttls ++ [ttl]) := by
  refine ⟨fun x hx => ?_, .inl ?_⟩
  · rcases List.mem_append.mp hx with hx | hx
    · exact h.1 x hx
    · rw [List.mem_singleton.mp hx]
      exact UInt8.le_of_lt hlt
  · rcases h.2 with hm | ⟨-, hz⟩
    · exact List.mem_append_left _ hm
    · rw [hz] at hlt
      exact absurd hlt UInt8.not_lt_zero

theorem ttlsHeard_of_heard (h : announceHeard P i = some (k, ttl)) :
    ttlsHeard P (is ++ [i]) k = ttlsHeard P is k ++ [ttl] := by
  simp [ttlsHeard, List.filterMap_append, h]

theorem ttlsHeard_of_other (h : ∀ ttl, announceHeard P i ≠ some (k, ttl)) :
    ttlsHeard P (is ++ [i]) k = ttlsHeard P is k := by
  simp only [ttlsHeard, List.filterMap_append, List.filterMap_cons, List.filterMap_nil]
  cases ha : announceHeard P i with
  | none => simp
  | some a =>
    obtain ⟨sender, ttl⟩ := a
    have hne : sender ≠ k := fun he => h ttl (by rw [ha, he])
    simp [hne]

theorem PeerTable.step (h : PeerTable t (ttlsHeard P is)) (i : Input) :
    PeerTable (step P t i).1 (ttlsHeard P (is ++ [i])) := by
  have hc := PeerChange.step P t i
  have hmax (k : UInt64) :
      IsMaximum (notedTtl (BitchatRepeater.step P t i).1 k) (ttlsHeard P (is ++ [i]) k) := by
    have hold := h.isMaximum k
    by_cases hk : ∃ ttl, announceHeard P i = some (k, ttl)
    · obtain ⟨ttl, ha⟩ := hk
      rw [ttlsHeard_of_heard ha]
      rcases (hc.heard k ttl ha).2 with ⟨hle, he⟩ | ⟨hlt, he⟩
      · rw [he]
        exact isMaximum_snoc_higher hold hle
      · rw [he]
        exact isMaximum_snoc_lower hold hlt
    · rw [not_exists] at hk
      rw [ttlsHeard_of_other hk, hc.others k hk]
      exact hold
  refine ⟨hc.keyed h.keyed, fun peer hp => ?_, fun k hne => ?_, fun k peer hg => ?_⟩
  · exact (hc.held peer hp).elim (fun hp => hc.stay peer (h.held peer hp)) id
  · by_cases hk : ∃ ttl, announceHeard P i = some (k, ttl)
    · obtain ⟨ttl, ha⟩ := hk
      exact (hc.heard k ttl ha).1
    · rw [not_exists] at hk
      rw [ttlsHeard_of_other hk] at hne
      exact hc.stay k (h.known k hne)
  · rw [← notedTtl_of_get? hg]
    exact hmax k

theorem peerTable_init (a : Addr) (P : Platform) :
    PeerTable { announceAddr := a } (ttlsHeard P []) where
  keyed := peersKeyed_empty
  held := List.forall_mem_nil _
  known := fun _ hne => absurd rfl hne
  maximum := fun _ _ hg => nomatch hg

/-- In every state of every run the peer table is in order, and no event takes a
peer out of it. -/
theorem peerTable_run (P : Platform) (a : Addr) (is : List Input) :
    PeerTable (run (step P) { announceAddr := a } is).1 (ttlsHeard P is) ∧
      ∀ i k, (run (step P) { announceAddr := a } is).1.peers.contains k →
        (step P (run (step P) { announceAddr := a } is).1 i).1.peers.contains k := by
  refine ⟨?_, fun i k hk => (PeerChange.step P _ i).stay k hk⟩
  exact run_history (fun is t _ => PeerTable t (ttlsHeard P is)) (peerTable_init a P)
    (fun _ _ _ i h => h.step i) is

end BitchatRepeater
