import BitchatRepeater.Dedup

/-!
# Connections through a run

Only `cleanupStaleItems` removes connections. Every other event keeps each of
them, and one that carries the handle it is stored under goes on to do so
(`stay_step`). `announceToConnections` is described by the connections it finds
due: the filters read nothing that the loop changes.
-/

namespace BitchatRepeater

open Lib Tracker ProtocolProcessor

variable {t u v : Tracker} {stale : Stale} {out : List Effect}

-- ---------------------------------------------------------------------------
-- Connections stay
-- ---------------------------------------------------------------------------

/-- No connection goes, and none that carries its own handle loses it. No record
of a map entry goes, and nothing is enqueued for a single connection. -/
structure Stay (t u : Tracker) : Prop where
  connections : ∀ k c, t.connections.get? k = some c →
    ∃ c', u.connections.get? k = some c' ∧ (c.connectionHandle = k → c'.connectionHandle = k)
  targeted : u.targetedPacketsToSendList = t.targetedPacketsToSendList
  sent : ∀ a k, (a, .entry k) ∈ t.packetsConnectionsSentList.entries →
    (a, .entry k) ∈ u.packetsConnectionsSentList.entries

theorem Stay.trans (h : Stay t u) (h' : Stay u v) : Stay t v := by
  refine ⟨fun k c hc => ?_, h'.targeted.trans h.targeted, fun a k hm => h'.sent a k (h.sent a k hm)⟩
  obtain ⟨c₁, hc₁, hk₁⟩ := h.connections k c hc
  obtain ⟨c₂, hc₂, hk₂⟩ := h'.connections k c₁ hc₁
  exact ⟨c₂, hc₂, hk₂ ∘ hk₁⟩

theorem stay_of_eq (h : u.connections = t.connections)
    (ht : u.targetedPacketsToSendList = t.targetedPacketsToSendList)
    (hs : u.packetsConnectionsSentList = t.packetsConnectionsSentList) : Stay t u :=
  ⟨fun _ c hc => ⟨c, h ▸ hc, id⟩, ht, fun _ _ hm => hs ▸ hm⟩

theorem Stay.refl (t : Tracker) : Stay t t := stay_of_eq rfl rfl rfl

theorem stay_insert (hu : u.connections = t.connections.insert h c')
    (ht : u.targetedPacketsToSendList = t.targetedPacketsToSendList)
    (hs : u.packetsConnectionsSentList = t.packetsConnectionsSentList)
    (hh : ∀ c, t.connections.get? h = some c → c.connectionHandle = h → c'.connectionHandle = h) :
    Stay t u := by
  refine ⟨fun k c hc => ?_, ht, fun _ _ hm => hs ▸ hm⟩
  rw [hu, OrdMap.get?_insert]
  split
  next he =>
    subst he
    exact ⟨c', rfl, hh c hc⟩
  next => exact ⟨c, hc, id⟩

theorem stay_modify {f : BleConnection → BleConnection}
    (hu : u.connections = t.connections.modify h f)
    (ht : u.targetedPacketsToSendList = t.targetedPacketsToSendList)
    (hs : u.packetsConnectionsSentList = t.packetsConnectionsSentList)
    (hf : ∀ c, (f c).connectionHandle = c.connectionHandle) : Stay t u := by
  refine ⟨fun k c hc => ?_, ht, fun _ _ hm => hs ▸ hm⟩
  rw [hu, OrdMap.get?_modify]
  split
  next => exact ⟨f c, by rw [hc]; rfl, fun hk => (hf c).trans hk⟩
  next => exact ⟨c, hc, id⟩

theorem connectionAt_of_get? (h : t.connections.get? k = some c) : t.connectionAt k = c := by
  rw [connectionAt, h]
  rfl

theorem stay_touchConnection (t : Tracker) (h : Handle) : Stay t (t.touchConnection h) :=
  stay_insert rfl rfl rfl fun _ hc hk => connectionAt_of_get? hc ▸ hk

theorem stay_connectionForConnHandle (t : Tracker) (h : Handle) :
    Stay t (t.connectionForConnHandle h) := by
  unfold connectionForConnHandle
  split
  · exact .refl t
  · exact stay_insert rfl rfl rfl fun _ _ _ => rfl

theorem stay_updateConnection (t : Tracker) (h : Handle) {f : BleConnection → BleConnection}
    (hf : ∀ c, (f c).connectionHandle = c.connectionHandle) : Stay t (t.updateConnection h f) :=
  (stay_connectionForConnHandle t h).trans (stay_modify rfl rfl rfl hf)

theorem stay_reportConnection (t : Tracker) (now : UInt64) (h : Handle) (address : Bytes)
    (addressType : AddressType) : Stay t (t.reportConnection now h address addressType) :=
  stay_insert rfl rfl rfl fun _ _ _ => rfl

theorem stay_reportDisconnection (t : Tracker) (frame : Nat) (h : Handle) :
    Stay t (t.reportDisconnection frame h).1 := by
  let c := { t.connectionAt h with notificationEnabled := false, connected := false }
  have hset : Stay t (t.setConnection h c) := stay_insert rfl rfl rfl fun _ hc hk =>
    (congrArg BleConnection.connectionHandle (connectionAt_of_get? hc)).trans hk
  refine ⟨hset.connections, rfl, fun a k hm => Multimap.mem_eraseIf.mpr ⟨hm, ?_⟩⟩
  simp

theorem stay_sendRawPacket (queue : RawQueue) (t : Tracker) (h : Handle) (status : UInt8) :
    Stay t (sendRawPacket queue t h status).1 := by
  have hqueue (u : Tracker) (m : Multimap Handle Bytes) : Stay u (u.setRawQueue queue m) := by
    cases queue <;> exact stay_of_eq rfl rfl rfl
  have hfront : Stay t (handOverFront queue t h status).1 := by
    unfold handOverFront
    split
    · exact .refl t
    · simp only
      split
      · exact (stay_touchConnection t h).trans (hqueue _ _)
      · exact stay_touchConnection t h
  unfold sendRawPacket
  simp only
  split
  · exact hfront.trans (stay_touchConnection _ h)
  · exact hfront

theorem stay_processWrite (P : Platform) (ambient : Ambient) (t : Tracker) (origin : ConnPtr)
    (connection : BleConnection) (offset : UInt16) (buffer : Bytes) :
    Stay t (processWrite P ambient t origin connection offset buffer).1 := by
  rcases processWrite_cases P ambient t origin connection offset buffer with
    (h | h) | ⟨p, -, ⟨hl, -⟩ | ⟨t', packet, hl, hs, -⟩⟩
  · rw [h]
    exact .refl t
  · rw [h]
    exact .refl t
  · obtain ⟨⟨_, _, _, he⟩, -⟩ := hl
    rw [he]
    exact stay_of_eq rfl rfl rfl
  · obtain ⟨_, _, _, _, _, he⟩ := (hs.receives hl).eq
    rw [he]
    exact ⟨fun k c hc => ⟨c, hc, id⟩, rfl, fun a k hm => Multimap.mem_emplace.mpr (.inr hm)⟩

-- ---------------------------------------------------------------------------
-- The announce
-- ---------------------------------------------------------------------------

def AnnounceDue (stale : Stale) (t : Tracker) (h : Handle) : Prop :=
  ∃ c, t.connections.get? h = some c ∧ available c ∧ buildTimeMs ≤ t.timestampOffsetMs ∧
    t.packetSentTo stale t.announceAddr h = false

theorem available_connected (h : available c) : c.connected := by
  simp only [available, Bool.and_eq_true] at h
  exact h.1

theorem connectionForConnHandle_of_get? (h : t.connections.get? k = some c) :
    t.connectionForConnHandle k = t :=
  if_pos (by simp [OrdMap.contains, h])

theorem enqueueTargetedPacket_of_get? {target : BleConnection} (hl : ttl > 0)
    (hc : t.connections.get? target.connectionHandle = some c) :
    t.enqueueTargetedPacket a ttl target = { t with
      targetedPacketsToSendList :=
        t.targetedPacketsToSendList.emplace a (.entry target.connectionHandle) } := by
  rw [enqueueTargetedPacket, if_pos hl, connectionForConnHandle_of_get? hc]

theorem announceTo_cases (now : UInt64) (stale : Stale) (h : Handle) (hk : Keyed t.connections)
    (h3 : t.announce.packetTtl = 3) :
    (¬ AnnounceDue stale t h ∧ announceTo now stale t h = t) ∨
    (AnnounceDue stale t h ∧ announceTo now stale t h = { t with
      announce := { t.announce with packetTimestamp := t.getTimeMs now }
      targetedPacketsToSendList :=
        t.targetedPacketsToSendList.emplace t.announceAddr (.entry h) }) := by
  unfold announceTo
  cases hc : t.connections.get? h with
  | none =>
    refine .inl ⟨?_, rfl⟩
    rintro ⟨c, hc', -⟩
    rw [hc] at hc'
    cases hc'
  | some c =>
    simp only
    split
    next ho =>
      simp only [Bool.and_eq_true, decide_eq_true_eq, Bool.not_eq_true'] at ho
      obtain ⟨⟨ha, hb⟩, hs⟩ := ho
      have hh := hk h c hc (available_connected ha)
      refine .inr ⟨⟨c, hc, ha, hb, hh ▸ hs⟩, ?_⟩
      rw [enqueueTargetedPacket_of_get? (c := c) (by rw [h3]; decide) (hh ▸ hc), hh]
    next ho =>
      refine .inl ⟨?_, rfl⟩
      rintro ⟨c', hc', ha, hb, hs⟩
      rw [hc] at hc'
      cases hc'
      have hh := hk h c hc (available_connected ha)
      exact ho (by simp [ha, hb, hh, hs])

/-- `u` is `t` with the announce enqueued for every connection of `hs` that is due. -/
structure Enqueues (stale : Stale) (t u : Tracker) (hs : List Handle) : Prop where
  eq : ∃ announce targeted, u = { t with
    announce := announce
    targetedPacketsToSendList := targeted }
  ttl : u.announce.packetTtl = 3
  targeted : ∀ a c, (a, c) ∈ u.targetedPacketsToSendList.entries ↔
    (a, c) ∈ t.targetedPacketsToSendList.entries ∨
      a = t.announceAddr ∧ ∃ h ∈ hs, c = .entry h ∧ AnnounceDue stale t h

theorem Enqueues.due (h : Enqueues stale t u hs) :
    AnnounceDue stale u k ↔ AnnounceDue stale t k := by
  obtain ⟨_, _, rfl⟩ := h.eq
  rfl

theorem Enqueues.connections (h : Enqueues stale t u hs) : u.connections = t.connections := by
  obtain ⟨_, _, rfl⟩ := h.eq
  rfl

theorem enqueues_announceTo (now : UInt64) (stale : Stale) (h : Handle) (hk : Keyed t.connections)
    (h3 : t.announce.packetTtl = 3) : Enqueues stale t (announceTo now stale t h) [h] := by
  rcases announceTo_cases now stale h hk h3 with ⟨hd, he⟩ | ⟨hd, he⟩
  · rw [he]
    refine ⟨⟨_, _, rfl⟩, h3, fun a c => ?_⟩
    simp [hd]
  · rw [he]
    refine ⟨⟨_, _, rfl⟩, h3, fun a c => ?_⟩
    simp [hd, or_comm]

theorem Enqueues.trans (h : Enqueues stale t u hs) (h' : Enqueues stale u v ks) :
    Enqueues stale t v (hs ++ ks) := by
  have ha : u.announceAddr = t.announceAddr := by
    obtain ⟨_, _, rfl⟩ := h.eq
    rfl
  refine ⟨?_, h'.ttl, fun a c => ?_⟩
  · obtain ⟨_, _, rfl⟩ := h.eq
    obtain ⟨_, _, rfl⟩ := h'.eq
    exact ⟨_, _, rfl⟩
  · rw [h'.targeted, h.targeted, ha, or_assoc, ← and_or_left]
    simp only [h.due, List.mem_append, or_and_right, exists_or]

theorem enqueues_foldl (now : UInt64) (stale : Stale) (hs : List Handle) (hk : Keyed t.connections)
    (h3 : t.announce.packetTtl = 3) : Enqueues stale t (hs.foldl (announceTo now stale) t) hs := by
  induction hs generalizing t with
  | nil => exact ⟨⟨_, _, rfl⟩, h3, fun a c => by simp⟩
  | cons h hs ih =>
    have h₁ := enqueues_announceTo now stale h hk h3
    exact h₁.trans (ih (h₁.connections ▸ hk) h₁.ttl)

theorem setupAnnounceIfNeeded_eq (P : Platform) (t : Tracker) :
    ∃ announce, setupAnnounceIfNeeded P t = { t with announce := announce } ∧
    announce.packetTtl = 3 := by
  unfold setupAnnounceIfNeeded
  split
  next h3 => exact ⟨_, rfl, h3⟩
  next => exact ⟨_, rfl, rfl⟩

theorem enqueues_announceToConnections (P : Platform) (now : UInt64) (stale : Stale)
    (hk : Keyed t.connections) :
    Enqueues stale t (t.announceToConnections P now stale) t.connections.keys := by
  obtain ⟨announce, he, h3⟩ := setupAnnounceIfNeeded_eq P t
  have hsetup : Enqueues stale t { t with announce := announce } [] :=
    ⟨⟨_, _, rfl⟩, h3, fun a c => by simp⟩
  unfold announceToConnections
  rw [he]
  exact hsetup.trans (enqueues_foldl now stale t.connections.keys (t := { t with announce }) hk h3)

theorem mem_announceToConnections (P : Platform) (now : UInt64) (stale : Stale)
    (hk : Keyed t.connections) :
    (a, c) ∈ (t.announceToConnections P now stale).targetedPacketsToSendList.entries ↔
      (a, c) ∈ t.targetedPacketsToSendList.entries ∨
        a = t.announceAddr ∧ ∃ h, c = .entry h ∧ AnnounceDue stale t h := by
  rw [(enqueues_announceToConnections P now stale hk).targeted]
  refine or_congr_right (and_congr_right fun _ => ?_)
  constructor
  · rintro ⟨h, -, hc, hd⟩
    exact ⟨h, hc, hd⟩
  · rintro ⟨h, hc, hd⟩
    have ⟨c', hc', _⟩ := hd
    exact ⟨h, OrdMap.mem_keys.mpr ⟨c', hc'⟩, hc, hd⟩

-- ---------------------------------------------------------------------------
-- All events
-- ---------------------------------------------------------------------------

theorem sendPackets_connections (stale : Stale) (t : Tracker) :
    SameConnections t (t.sendPackets stale).1 := by
  obtain ⟨v, targeted, hs, he, -⟩ := sendPackets_sends stale t
  rw [he]
  exact hs.connections

def visitsLists : Event → Bool
  | .announceToConnections | .sendPackets | .cleanupStaleItems => true
  | _ => false

theorem stay_adjusts (h : Adjusts P t i r) : Stay t r.1 := by
  cases h with
  | same => exact .refl t
  | find h => exact stay_connectionForConnHandle t h
  | update h hf hv => exact stay_updateConnection t h hf.handle
  | advertise => exact stay_of_eq rfl rfl rfl
  | report h address addressType =>
    exact stay_reportConnection t i.ambient.now h address addressType
  | reportRole h address addressType role =>
    refine (stay_reportConnection t i.ambient.now h address addressType).trans
      (stay_insert rfl rfl rfl ?_)
    exact fun _ hc hk => (congrArg BleConnection.connectionHandle (connectionAt_of_get? hc)).trans
      hk
  | disconnect h => exact stay_reportDisconnection t i.ambient.frame h
  | connect => exact .refl t
  | start => exact stay_of_eq rfl rfl rfl
  | duplicates =>
    unfold getAnyDuplicateHandle
    split
    · exact .refl t
    · exact (stay_touchConnection t _).trans (stay_touchConnection _ _)

theorem stay_step (hi : visitsLists i.event = false) : Stay t (step P t i).1 := by
  cases ho : ordinary i.event with
  | true => exact stay_adjusts (adjusts_step ho)
  | false =>
    obtain ⟨event, ambient⟩ := i
    have hwrite (h : Handle) (origin : ConnPtr) (offset : UInt16) (buffer : Bytes) :
        Stay t (processWrite P ambient (t.connectionForConnHandle h) origin
          ((t.connectionForConnHandle h).connectionAt h) offset buffer).1 :=
      (stay_connectionForConnHandle t h).trans (stay_processWrite ..)
    cases event with
    | attWrite h transaction att offset buffer =>
      obtain ⟨rfl, rfl⟩ := attWrite_of_not_ordinary ho
      exact hwrite h _ offset buffer
    | gattNotification h value => exact hwrite h _ 0 value
    | canSendNotification h status => exact stay_sendRawPacket .notify t h status
    | canWriteWithoutResponse h status => exact stay_sendRawPacket .write t h status
    | lifeCheck =>
      obtain ⟨_, _, he⟩ := handlePinActivity_frame P ambient t
      simp only [step, he]
      exact stay_of_eq rfl rfl rfl
    | announceToConnections | sendPackets | cleanupStaleItems => cases hi
    | _ => cases ho

theorem Fresh.congr (h : Fresh P t p) (hm : u.messages = t.messages) (hp : u.packets = t.packets) :
    Fresh P u p := by
  obtain ⟨key, hc, hk, hl⟩ := h
  exact ⟨key, hc, (retained_congr hm hp).trans hk, hl⟩

theorem Quiet.liveAddrs (h : Quiet t u out) : u.liveAddrs = t.liveAddrs := by
  rw [Tracker.liveAddrs, Tracker.liveAddrs, h.stored, h.announceAddr]

theorem sent_step (hi : visitsLists i.event = false)
    (he : (a, c) ∈ (step P t i).1.packetsConnectionsSentList.entries) :
    (a, c) ∈ t.packetsConnectionsSentList.entries ∨
      a ∉ t.liveAddrs ∧ ∃ offset buffer p, Arrives i c offset buffer ∧
        readPacket P.inflate offset buffer = .packet p ∧ Fresh P t p := by
  have ho := step_outcome P t i
  generalize step P t i = r at ho he
  cases ho with
  | calm hc => exact .inl (hc.sent_sub _ he)
  | stores harr hr hc hl hs =>
    have hq := hc.quiet
    obtain ⟨_, _, _, _, _, hu⟩ := (hs.receives hl).eq
    rw [hu, Multimap.mem_emplace] at he
    rcases he with he | he
    · cases he
      refine .inr ⟨hq.liveAddrs ▸ allocate_fresh _ _, _, _, _, harr, hr, ?_⟩
      exact (fresh_of_stores hl hs).congr hq.messages.symm hq.packets.symm
    · exact .inl (hc.sent_sub _ he)
  | own hs =>
    obtain ⟨_, hu⟩ := hs.eq
    rw [hu] at he
    exact .inl he
  | drains queue k status _ => exact .inl ((quiet_sendRawPacket queue t k status).sent_sub _ he)
  | announces ha => exact .inl (ha.quiet.sent_sub _ he)
  | sends h => simp [visitsLists, h] at hi
  | cleans h => simp [visitsLists, h] at hi

theorem broadcast_step (hi : visitsLists i.event = false)
    (ha : a ∈ (step P t i).1.broadcastPacketsToSendList) :
    a ∈ t.broadcastPacketsToSendList ∨ a ∉ t.liveAddrs := by
  have ho := step_outcome P t i
  generalize step P t i = r at ho ha
  cases ho with
  | calm hc => exact .inl (hc.quiet.broadcast ▸ ha)
  | stores harr hr hc hl hs =>
    have hq := hc.quiet
    obtain ⟨_, _, _, _, _, hu⟩ := (hs.receives hl).eq
    rw [hu] at ha
    rcases List.mem_append.mp ha with ha | ha
    · exact .inl (hq.broadcast ▸ ha)
    · right
      split at ha
      · rw [List.mem_singleton.mp ha, ← hq.liveAddrs]
        exact allocate_fresh _ _
      · cases ha
  | own hs =>
    have hfresh := hs.adds.fresh
    obtain ⟨_, hu⟩ := hs.eq
    rw [hu] at ha
    rcases List.mem_append.mp ha with ha | ha
    · exact .inl ha
    · exact .inr (List.mem_singleton.mp ha ▸ hfresh)
  | drains queue k status _ => exact .inl ((quiet_sendRawPacket queue t k status).broadcast ▸ ha)
  | announces hn => exact .inl (hn.quiet.broadcast ▸ ha)
  | sends h => simp [visitsLists, h] at hi
  | cleans h => simp [visitsLists, h] at hi

theorem announceAddr_step (P : Platform) (t : Tracker) (i : Input) :
    (step P t i).1.announceAddr = t.announceAddr := by
  have ho := step_outcome P t i
  generalize step P t i = r at ho
  cases ho with
  | calm hc => exact hc.quiet.announceAddr
  | stores harr hr hc hl hs =>
    obtain ⟨_, _, _, _, _, hu⟩ := (hs.receives hl).eq
    rw [hu]
    exact hc.quiet.announceAddr
  | own hs =>
    obtain ⟨_, hu⟩ := hs.eq
    rw [hu]
  | drains queue k status _ => exact (quiet_sendRawPacket queue t k status).announceAddr
  | announces hn => exact hn.quiet.announceAddr
  | sends h =>
    obtain ⟨v, targeted, hs, he, -⟩ := sendPackets_sends i.ambient.stale t
    obtain ⟨_, _, _, _, hv⟩ := hs.eq
    rw [he, hv]
  | cleans h => rfl

theorem announceAddr_run (P : Platform) (t : Tracker) (is : List Input) :
    (run (step P) t is).1.announceAddr = t.announceAddr :=
  run_state_invariant (fun u => u.announceAddr = t.announceAddr)
    (fun u i _ hu => (announceAddr_step P u i).trans hu) rfl (along_true t is)

theorem get?_cleanup (h : t.connections.get? k = some c)
    (hs : connectionStale (t.getTimeMs time) c = false) :
    (t.cleanupStaleItems stale time).connections.get? k = some c := by
  simp [cleanupStaleItems, OrdMap.get?_eraseIf, h, hs]

theorem Keyed.outcome (ho : Outcome P t i r) (h : Keyed t.connections) : Keyed r.1.connections := by
  cases ho with
  | calm hc => exact hc.keyed h
  | stores hi hr hc hl hs =>
    obtain ⟨_, _, _, _, _, he⟩ := (hs.receives hl).eq
    rw [he]
    exact hc.keyed h
  | own hs =>
    obtain ⟨_, he⟩ := hs.eq
    rw [he]
    exact h
  | drains queue k status hi => exact (drains_sendRawPacket queue t k status).keyed h
  | announces ha => exact ha.keyed h
  | sends hi => exact h.sameConnections (sendPackets_connections i.ambient.stale t)
  | cleans hi =>
    intro k c hc
    rw [cleanupStaleItems] at hc
    exact h k c (OrdMap.get?_eq_some.mpr (OrdMap.mem_eraseIf.mp (OrdMap.get?_eq_some.mp hc)).1)

end BitchatRepeater
