import BitchatRepeater.RawQueues
import BitchatRepeater.LiveConnections
import BitchatRepeater.ReusedHandles

/-!
# The has-data flag

A connection's flag is to say whether something is queued for it. It is set where
data is queued, through a reference to the connection; it is cleared on a copy
only; and it goes with the record, while the queues are kept by handle.
-/

namespace BitchatRepeater

open Lib Tracker ProtocolProcessor

variable {t u v : Tracker} {stale : Stale}

-- ---------------------------------------------------------------------------
-- The property
-- ---------------------------------------------------------------------------

/-- Something is queued under the handle. -/
def HasQueued (t : Tracker) (h : Handle) : Prop := ∃ q, (t.rawQueue q).valuesAt h ≠ []

def FlagsMirror (t : Tracker) : Prop := ∀ h, (t.connectionAt h).hasDataToSend ↔ HasQueued t h

/-- No assertion fails in a callback for a handle that has data. -/
def AssertsHold (P : Platform) (t : Tracker) (op : RawOp) : Prop :=
  ∀ queue h status, op.callback? = some (queue, h, status) → HasQueued t h →
    .assertFailed ∉ (rawStep P t op).2

-- ---------------------------------------------------------------------------
-- When an operation keeps it
-- ---------------------------------------------------------------------------

/-- The stack takes the last string of the handle the iterator points at. -/
def TakesLast (t : Tracker) (queue : RawQueue) (h : Handle) (status : UInt8) : Prop :=
  accepted status ∧ ∃ e rest, (t.rawQueue queue).lowerBound h = e :: rest ∧
    ∀ q, (t.rawQueue q).valuesAt e.1 = if q = queue then [e.2] else []

/-- A call of `SendPacketToConnection` that queues something refers to the entry
under the handle it queues it for, or to none and there is something already. -/
def SendsOwn (t : Tracker) (packet : Packet) (target : ConnPtr) (h : Handle) : Prop :=
  (ProtocolWriter.writePacket t.peers packet).isSome →
    (HasQueued t h ∨ target = .entry h ∧ t.connections.contains h) ∧
      ∀ k, target = .entry k → t.connections.contains k → HasQueued t k ∨ k = h

/-- No callback takes the last string of a handle, no record of a handle with data
is replaced by that of a neighbour, and none is erased. -/
def EventKeeps (t : Tracker) (i : Input) : Prop :=
  match i.event with
  | .canSendNotification h status => ¬ TakesLast t .notify h status
  | .canWriteWithoutResponse h status => ¬ TakesLast t .write h status
  | .connectionComplete h address _ _ | .attConnected h address _ =>
    HasNeighbour address t → ¬ HasQueued t h
  | .cleanupStaleItems => ∀ h c, t.connections.get? h = some c →
    connectionStale (t.getTimeMs i.ambient.now) c → ¬ HasQueued t h
  | _ => True

def KeepsFlags (t : Tracker) : RawOp → Prop
  | .send _ packet target connection => SendsOwn t packet target connection.connectionHandle
  | .event i => EventKeeps t i

-- ---------------------------------------------------------------------------
-- Nothing changes
-- ---------------------------------------------------------------------------

/-- Flags and queues are the same. -/
structure FlagsKept (t u : Tracker) : Prop where
  flag : ∀ h, (u.connectionAt h).hasDataToSend = (t.connectionAt h).hasDataToSend
  queue : ∀ q h, (u.rawQueue q).valuesAt h = (t.rawQueue q).valuesAt h

theorem FlagsKept.hasQueued (h : FlagsKept t u) : HasQueued u k ↔ HasQueued t k := by
  simp only [HasQueued, h.queue]

theorem FlagsKept.mirror_iff (h : FlagsKept t u) : FlagsMirror u ↔ FlagsMirror t := by
  simp only [FlagsMirror, h.flag, h.hasQueued]

theorem FlagsKept.trans (h : FlagsKept t u) (h' : FlagsKept u v) : FlagsKept t v :=
  ⟨fun k => (h'.flag k).trans (h.flag k), fun q k => (h'.queue q k).trans (h.queue q k)⟩

theorem flagsKept_of_eq (hc : u.connections = t.connections)
    (hn : u.rawPacketToNotify = t.rawPacketToNotify)
    (hw : u.rawPacketToWrite = t.rawPacketToWrite) : FlagsKept t u := by
  refine ⟨fun h => ?_, fun q h => ?_⟩
  · rw [connectionAt, connectionAt, hc]
  · cases q with
    | notify => exact congrArg (·.valuesAt h) hn
    | write => exact congrArg (·.valuesAt h) hw

theorem FlagsKept.refl (t : Tracker) : FlagsKept t t := flagsKept_of_eq rfl rfl rfl

theorem flagsKept_setConnection (hf : c.hasDataToSend = (t.connectionAt h).hasDataToSend) :
    FlagsKept t (t.setConnection h c) := by
  refine ⟨fun k => ?_, fun q k => ?_⟩
  · simp only [connectionAt, setConnection, OrdMap.get?_insert]
    split
    next hk =>
      subst hk
      exact hf
    next => rfl
  · cases q <;> rfl

theorem flagsKept_connectionForConnHandle (t : Tracker) (h : Handle) :
    FlagsKept t (t.connectionForConnHandle h) := by
  unfold connectionForConnHandle
  split
  · exact .refl t
  · exact flagsKept_setConnection rfl

theorem flagsKept_touchConnection (t : Tracker) (h : Handle) : FlagsKept t (t.touchConnection h) :=
  flagsKept_setConnection rfl

theorem flagsKept_updateConnection (t : Tracker) (h : Handle) {f : BleConnection → BleConnection}
    (hf : ∀ c, (f c).hasDataToSend = c.hasDataToSend) : FlagsKept t (t.updateConnection h f) := by
  refine (flagsKept_connectionForConnHandle t h).trans ⟨fun k => ?_, fun q k => ?_⟩
  · simp only [updateConnection, connectionAt, OrdMap.get?_modify]
    split
    · cases (t.connectionForConnHandle h).connections.get? k with
      | none => rfl
      | some c => exact hf c
    · rfl
  · cases q <;> rfl

theorem flagsKept_processWrite (P : Platform) (ambient : Ambient) (t : Tracker) (origin : ConnPtr)
    (connection : BleConnection) (offset : UInt16) (buffer : Bytes) :
    FlagsKept t (processWrite P ambient t origin connection offset buffer).1 := by
  obtain ⟨_, _, _, _, _, _, _, _, he⟩ :=
    processWrite_frame P ambient t origin connection offset buffer
  rw [he]
  exact flagsKept_of_eq rfl rfl rfl

theorem flagsKept_announceToConnections (P : Platform) (now : UInt64) (hk : Keyed t.connections) :
    FlagsKept t (t.announceToConnections P now stale) := by
  obtain ⟨_, _, he⟩ := (enqueues_announceToConnections P now stale hk).eq
  rw [he]
  exact flagsKept_of_eq rfl rfl rfl

def reachesFlags : Event → Bool
  | .connectionComplete .. | .attConnected .. | .canSendNotification ..
  | .canWriteWithoutResponse ..
  | .sendPackets | .cleanupStaleItems => true
  | _ => false

theorem flagsKept_adjusts (h : Adjusts P t i r) (hi : reachesFlags i.event = false) :
    FlagsKept t r.1 := by
  cases h with
  | same => exact .refl t
  | find h => exact flagsKept_connectionForConnHandle t h
  | update h hf hv => exact flagsKept_updateConnection t h hf.hasDataToSend
  | advertise => exact flagsKept_of_eq rfl rfl rfl
  | report _ _ _ he =>
    rw [he] at hi
    cases hi
  | reportRole _ _ _ _ he =>
    rw [he] at hi
    cases hi
  | disconnect h =>
    have hset : FlagsKept t (t.setConnection h
        { t.connectionAt h with notificationEnabled := false, connected := false }) :=
      flagsKept_setConnection rfl
    exact hset.trans (flagsKept_of_eq rfl rfl rfl)
  | connect => exact .refl t
  | start => exact flagsKept_of_eq rfl rfl rfl
  | duplicates =>
    unfold getAnyDuplicateHandle
    split
    · exact .refl t
    · exact (flagsKept_touchConnection t _).trans (flagsKept_touchConnection _ _)

theorem flagsKept_step (P : Platform) (i : Input) (hk : Keyed t.connections)
    (hi : reachesFlags i.event = false) : FlagsKept t (step P t i).1 := by
  cases ho : ordinary i.event with
  | true => exact flagsKept_adjusts (adjusts_step ho) hi
  | false =>
    obtain ⟨event, ambient⟩ := i
    have hwrite (h : Handle) (origin : ConnPtr) (offset : UInt16) (buffer : Bytes) :
        FlagsKept t (processWrite P ambient (t.connectionForConnHandle h) origin
          ((t.connectionForConnHandle h).connectionAt h) offset buffer).1 :=
      (flagsKept_connectionForConnHandle t h).trans (flagsKept_processWrite ..)
    cases event with
    | attWrite h transaction att offset buffer =>
      obtain ⟨rfl, rfl⟩ := attWrite_of_not_ordinary ho
      exact hwrite h _ offset buffer
    | gattNotification h value => exact hwrite h _ 0 value
    | lifeCheck =>
      obtain ⟨_, _, he⟩ := handlePinActivity_frame P ambient t
      simp only [step, he]
      exact flagsKept_of_eq rfl rfl rfl
    | announceToConnections => exact flagsKept_announceToConnections P ambient.now hk
    | canSendNotification | canWriteWithoutResponse | sendPackets | cleanupStaleItems => cases hi
    | _ => cases ho

-- ---------------------------------------------------------------------------
-- Callbacks
-- ---------------------------------------------------------------------------

theorem connectionAt_setRawQueue : (t.setRawQueue queue m).connectionAt k = t.connectionAt k := by
  cases queue <;> rfl

theorem connectionAt_handOverFront : (handOverFront queue t h status).1.connectionAt k =
    t.connectionAt k := by
  unfold handOverFront
  split
  · rfl
  · simp only
    split
    · rw [connectionAt_setRawQueue, connectionAt_touchConnection]
    · exact connectionAt_touchConnection

theorem connectionAt_sendRawPacket : (sendRawPacket queue t h status).1.connectionAt k =
    t.connectionAt k := by
  unfold sendRawPacket
  simp only
  split
  · rw [connectionAt_touchConnection, connectionAt_handOverFront]
  · exact connectionAt_handOverFront

theorem valuesAt_sendRawPacket (status : UInt8)
    (hl : (t.rawQueue queue).lowerBound h = (j, data) :: rest)
    (hv : (t.rawQueue queue).valuesAt j = data :: vs) (q : RawQueue) (k : Handle) :
    ((sendRawPacket queue t h status).1.rawQueue q).valuesAt k =
      if q = queue ∧ k = j ∧ accepted status then vs else (t.rawQueue q).valuesAt k := by
  rw [sendRawPacket_rawQueue]
  simp only [handOverFront, hl]
  by_cases ha : accepted status
  · simp only [ha, if_true, rawQueue_setRawQueue, rawQueue_touchConnection, and_true]
    by_cases hq : q = queue
    · subst hq
      rw [if_pos rfl, (Multimap.lowerBound_head hl).2, Multimap.valuesAt_eraseLowerBound hv]
      simp
    · simp [hq]
  · simp [ha]

theorem takesLast_iff (hl : (t.rawQueue queue).lowerBound h = (j, data) :: rest)
    (hv : (t.rawQueue queue).valuesAt j = data :: vs) : TakesLast t queue h status ↔
      accepted status ∧ vs = [] ∧ ∀ q, q ≠ queue → (t.rawQueue q).valuesAt j = [] := by
  constructor
  · rintro ⟨ha, e, rest', he, hall⟩
    cases hl.symm.trans he
    refine ⟨ha, ?_, fun q hq => by rw [hall q, if_neg hq]⟩
    have hlast := hall queue
    rw [if_pos rfl, hv] at hlast
    exact (List.cons.inj hlast).2
  · rintro ⟨ha, rfl, hothers⟩
    refine ⟨ha, (j, data), rest, hl, fun q => ?_⟩
    split
    next hq => rw [hq, hv]
    next hq => exact hothers q hq

theorem hasQueued_sendRawPacket (hl : (t.rawQueue queue).lowerBound h = (j, data) :: rest)
    (hv : (t.rawQueue queue).valuesAt j = data :: vs) :
    HasQueued (sendRawPacket queue t h status).1 k ↔
      HasQueued t k ∧ ¬ (k = j ∧ TakesLast t queue h status) := by
  simp only [HasQueued, valuesAt_sendRawPacket status hl hv, takesLast_iff hl hv]
  constructor
  · rintro ⟨q, hq⟩
    split at hq
    next hc =>
      obtain ⟨rfl, rfl, -⟩ := hc
      exact ⟨⟨q, by simp [hv]⟩, fun hlast => hq hlast.2.2.1⟩
    next hc =>
      refine ⟨⟨q, hq⟩, ?_⟩
      rintro ⟨rfl, ha, -, hothers⟩
      exact hq (hothers q fun he => hc ⟨he, rfl, ha⟩)
  · rintro ⟨⟨q, hq⟩, hnot⟩
    by_contra hnone
    simp only [not_exists, not_not] at hnone
    by_cases hk : k = j ∧ accepted status
    · obtain ⟨rfl, ha⟩ := hk
      refine hnot ⟨rfl, ha, ?_, fun q he => ?_⟩
      · simpa [ha] using hnone queue
      · simpa [he] using hnone q
    · have hkept := hnone q
      rw [if_neg fun hc => hk hc.2] at hkept
      exact hq hkept

/-- A callback never clears the flag, so it must leave something to send. -/
theorem mirror_callback_iff (hm : FlagsMirror t) (queue : RawQueue) (h : Handle) (status : UInt8) :
    FlagsMirror (sendRawPacket queue t h status).1 ↔ ¬ TakesLast t queue h status := by
  cases hl : (t.rawQueue queue).lowerBound h with
  | nil =>
    have hkept : FlagsKept t (sendRawPacket queue t h status).1 := by
      refine ⟨fun k => by rw [connectionAt_sendRawPacket], fun q k => ?_⟩
      rw [sendRawPacket_rawQueue, handOverFront_idle hl]
    refine iff_of_true (hkept.mirror_iff.mpr hm) ?_
    rintro ⟨-, e, rest, he, -⟩
    rw [hl] at he
    cases he
  | cons e rest =>
    obtain ⟨j, data⟩ := e
    obtain ⟨vs, hv⟩ := Multimap.valuesAt_of_lowerBound hl
    have hj : HasQueued t j := ⟨queue, by simp [hv]⟩
    simp only [FlagsMirror, connectionAt_sendRawPacket, hasQueued_sendRawPacket hl hv, hm _]
    constructor
    · exact fun hall htake => ((hall j).mp hj).2 ⟨rfl, htake⟩
    · exact fun hnot k => ⟨fun hk => ⟨hk, fun hc => hnot hc.2⟩, And.left⟩

-- ---------------------------------------------------------------------------
-- Reports and cleanups
-- ---------------------------------------------------------------------------

theorem flags_report (hi : Reports i.event h address) (P : Platform) (t : Tracker) :
    (∀ k, ((step P t i).1.connectionAt k).hasDataToSend =
      if k = h then ((t.availableNeighbours.get? address).getD (t.connectionAt h)).hasDataToSend
      else (t.connectionAt k).hasDataToSend) ∧
    ∀ q, (step P t i).1.rawQueue q = t.rawQueue q := by
  rcases hi with ⟨addressType, he⟩ | ⟨addressType, role, he⟩
  · simp only [step, he]
    refine ⟨fun k => ?_, fun q => by cases q <;> rfl⟩
    simp only [reportConnection, connectionAt, OrdMap.get?_insert]
    split <;> rfl
  · simp only [step, he]
    refine ⟨fun k => ?_, fun q => by cases q <;> rfl⟩
    simp only [reportConnectionRole, setConnection, reportConnection, connectionAt,
      OrdMap.get?_insert]
    split
    · simp
    · rfl

theorem mirror_report_iff (hm : FlagsMirror t) (hb : BlankNeighbours t)
    (hi : Reports i.event h address) :
    FlagsMirror (step P t i).1 ↔ (HasNeighbour address t → ¬ HasQueued t h) := by
  obtain ⟨hflag, hqueue⟩ := flags_report hi P t
  have hqueued (k : Handle) : HasQueued (step P t i).1 k ↔ HasQueued t k := by
    simp only [HasQueued, hqueue]
  simp only [FlagsMirror, hflag, hqueued]
  cases hn : t.availableNeighbours.get? address with
  | none =>
    refine iff_of_true (fun k => ?_) fun hin => ?_
    · rw [← hm k]
      split
      next hk => rw [hk]; rfl
      next => rfl
    · simp [HasNeighbour, OrdMap.contains, hn] at hin
  | some n =>
    have hblank : n.hasDataToSend = false := congrArg LinkState.hasData (hb address n hn)
    have hin : HasNeighbour address t := by simp [HasNeighbour, OrdMap.contains, hn]
    simp only [Option.getD_some, hblank, hin, true_imp_iff]
    constructor
    · intro hall hq
      have hh := (hall h).mpr hq
      simp at hh
    · intro hq k
      split
      next hk => simp [hk, hq]
      next => exact hm k

theorem mirror_cleanup_iff (hm : FlagsMirror t) (time : UInt64) :
    FlagsMirror (t.cleanupStaleItems stale time) ↔ ∀ h c, t.connections.get? h = some c →
      connectionStale (t.getTimeMs time) c → ¬ HasQueued t h := by
  have hqueued (k : Handle) : HasQueued (t.cleanupStaleItems stale time) k ↔ HasQueued t k :=
    exists_congr fun q => by cases q <;> exact .rfl
  have hflag (k : Handle) : (t.cleanupStaleItems stale time).connectionAt k =
      ((t.connections.get? k).filter fun c => !connectionStale (t.getTimeMs time) c).getD {} := by
    simp only [connectionAt, cleanupStaleItems, OrdMap.get?_eraseIf]
  simp only [FlagsMirror, hflag, hqueued]
  constructor
  · intro hall h c hc hs hq
    have hh := (hall h).mpr hq
    rw [hc, Option.filter_some_neg (by simp [hs])] at hh
    cases hh
  · intro hall k
    cases hk : t.connections.get? k with
    | none =>
      have hmk := hm k
      rw [connectionAt, hk] at hmk
      exact hmk
    | some c =>
      cases hs : connectionStale (t.getTimeMs time) c with
      | true => simp [hs, hall k c hk hs, Option.filter_some]
      | false =>
        have hmk := hm k
        rw [connectionAt, hk] at hmk
        simpa [hs, Option.filter_some] using hmk

-- ---------------------------------------------------------------------------
-- Sending
-- ---------------------------------------------------------------------------

theorem hasData_setHasData (t : Tracker) (target : ConnPtr) (k : Handle) :
    ((t.setHasData target).connectionAt k).hasDataToSend ↔
      (t.connectionAt k).hasDataToSend ∨ target = .entry k ∧ t.connections.contains k := by
  cases target with
  | frame a => simp [setHasData]
  | entry j =>
    simp only [setHasData, connectionAt, OrdMap.get?_modify, OrdMap.contains, ConnPtr.entry.injEq]
    by_cases hk : k = j
    · subst hk
      cases t.connections.get? k <;> simp
    · simp [hk, Ne.symm hk]

theorem flags_send (hw : ProtocolWriter.writePacket t.peers packet = some data) (a : Addr)
    (target : ConnPtr) (connection : BleConnection) (k : Handle) :
    (((t.sendPacketToConnection a packet target connection).1.connectionAt k).hasDataToSend ↔
      (t.connectionAt k).hasDataToSend ∨ target = .entry k ∧ t.connections.contains k) ∧
    (HasQueued (t.sendPacketToConnection a packet target connection).1 k ↔
      HasQueued t k ∨ k = connection.connectionHandle) := by
  have hraw (q : RawQueue) : (t.setHasData target).rawQueue q = t.rawQueue q := by
    cases q <;> cases target <;> rfl
  simp only [sendPacketToConnection, hw]
  refine ⟨by rw [connectionAt_setRawQueue, hasData_setHasData], ?_⟩
  simp only [HasQueued, rawQueue_setRawQueue, hraw]
  constructor
  · rintro ⟨q, hq⟩
    split at hq
    · rw [Multimap.valuesAt_emplace] at hq
      split at hq
      next hk => exact .inr hk
      next => exact .inl ⟨_, hq⟩
    · exact .inl ⟨q, hq⟩
  · rintro (⟨q, hq⟩ | rfl)
    · refine ⟨q, ?_⟩
      split
      next he =>
        subst he
        rw [Multimap.valuesAt_emplace]
        split
        · simp
        · exact hq
      next => exact hq
    · exact ⟨queueFor connection, by simp [Multimap.valuesAt_emplace]⟩

theorem mirror_send_iff (hm : FlagsMirror t) (a : Addr) (packet : Packet) (target : ConnPtr)
    (connection : BleConnection) :
    FlagsMirror (t.sendPacketToConnection a packet target connection).1 ↔
      SendsOwn t packet target connection.connectionHandle := by
  cases hw : ProtocolWriter.writePacket t.peers packet with
  | none =>
    have hsame : (t.sendPacketToConnection a packet target connection).1 = t := by
      rw [sendPacketToConnection, hw]
    rw [hsame, SendsOwn, hw]
    exact iff_of_true hm (fun h => absurd h Bool.false_ne_true)
  | some data =>
    have hsends := flags_send hw a target connection
    simp only [FlagsMirror, (hsends _).1, (hsends _).2, hm _]
    rw [SendsOwn, hw]
    constructor
    · intro hall _
      refine ⟨(hall connection.connectionHandle).mpr (.inr rfl), fun k ht hk => ?_⟩
      exact (hall k).mp (.inr ⟨ht, hk⟩)
    · intro hown k
      obtain ⟨hh, hother⟩ := hown rfl
      constructor
      · rintro (hq | ⟨ht, hk⟩)
        · exact .inl hq
        · exact hother k ht hk
      · rintro (hq | rfl)
        · exact .inl hq
        · exact hh

theorem mirror_send_proper (stale : Stale) (hm : FlagsMirror t) (ht : Proper t c) (a : Addr)
    (packet : Packet) :
    FlagsMirror (t.sendPacketToConnection a packet c (t.derefConnection stale c)).1 := by
  obtain ⟨k, entry, rfl, hk, hown⟩ := ht
  rw [mirror_send_iff hm, derefConnection_entry hk, hown]
  refine fun _ => ⟨.inr ⟨rfl, by simp [OrdMap.contains, hk]⟩, fun j hj _ => .inr ?_⟩
  cases hj
  rfl

theorem flagsKept_recordSent (t : Tracker) (a : Addr) (c : ConnPtr) :
    FlagsKept t (t.recordSent a c) :=
  flagsKept_of_eq rfl rfl rfl

theorem mirror_sendTargeted (hm : FlagsMirror t) (ht : Proper t item.2) :
    FlagsMirror (sendTargeted stale t item).1 := by
  unfold sendTargeted
  simp only
  split
  · exact hm
  · exact (flagsKept_recordSent _ _ _).mirror_iff.mpr (mirror_send_proper stale hm ht _ _)

theorem mirror_sendBroadcastTo (hm : FlagsMirror t) (hk : Keyed t.connections) :
    FlagsMirror (sendBroadcastTo stale packet t h).1 := by
  unfold sendBroadcastTo
  split
  · exact hm
  next c hc =>
    split
    next ho =>
      have hconn : c.connected := available_connected (Bool.and_eq_true_iff.mp ho).1
      have hsend := mirror_send_proper stale hm ⟨h, c, rfl, hc, hk h c hc hconn⟩ packet
        (t.derefPacket stale packet)
      rw [derefConnection_entry hc] at hsend
      exact (flagsKept_recordSent _ _ _).mirror_iff.mpr hsend
    next => exact hm

theorem mirror_targetedPass (hm : FlagsMirror t) (hi : ∀ e ∈ entries, Proper t e.2) :
    FlagsMirror (run (sendTargeted stale) t entries).1 := by
  have hpass : FlagsMirror (run (sendTargeted stale) t entries).1 ∧
      SameConnections t (run (sendTargeted stale) t entries).1 :=
    run_state_invariant (fun u => FlagsMirror u ∧ SameConnections t u)
      (fun u item hp hu =>
        ⟨mirror_sendTargeted hu.1 (hp.sameConnections hu.2),
          sameConnections_sendTargeted hu.2 item⟩)
      ⟨hm, .refl t⟩ (along_of_forall hi t)
  exact hpass.1

theorem mirror_broadcastPass (hm : FlagsMirror t) (hk : Keyed t.connections) (packets : List Addr) :
    FlagsMirror (run (sendBroadcast stale) t packets).1 := by
  rw [run_sendBroadcast]
  have hpass (is : List (Addr × Handle)) : FlagsMirror (run (attempt stale) t is).1 ∧
      Keyed (run (attempt stale) t is).1.connections :=
    run_state_invariant (fun u => FlagsMirror u ∧ Keyed u.connections) (fun u i _ hu =>
      ⟨mirror_sendBroadcastTo hu.1 hu.2,
        hu.2.sameConnections (sends_sendBroadcastTo stale u i.1 i.2).connections⟩)
      ⟨hm, hk⟩ (along_true _ _)
  exact (hpass _).1

theorem mirror_sendPackets (hm : FlagsMirror t) (hk : Keyed t.connections)
    (ht : ∀ e ∈ t.targetedPacketsToSendList.entries, Proper t e.2) :
    FlagsMirror (t.sendPackets stale).1 := by
  unfold sendPackets
  split
  · exact hm
  · have hsends := sends_run (sends_sendTargeted stale) t t.targetedPacketsToSendList.entries
    have htargeted : FlagsMirror (sendTargetedPackets stale t).1 := mirror_targetedPass hm ht
    exact mirror_broadcastPass htargeted (hk.sameConnections hsends.connections) _

-- ---------------------------------------------------------------------------
-- Operations
-- ---------------------------------------------------------------------------

theorem eventKeeps_unreached (hi : reachesFlags i.event = false) : EventKeeps t i := by
  obtain ⟨event, ambient⟩ := i
  cases event with
  | connectionComplete | attConnected | canSendNotification | canWriteWithoutResponse | sendPackets
  | cleanupStaleItems => cases hi
  | _ => exact trivial

theorem mirror_event_iff (P : Platform) (i : Input) (ha : Announcing t) (hb : BlankNeighbours t)
    (hm : FlagsMirror t) : FlagsMirror (step P t i).1 ↔ EventKeeps t i := by
  cases hi : reachesFlags i.event with
  | false =>
    exact iff_of_true ((flagsKept_step P i ha.keyed hi).mirror_iff.mpr hm) (eventKeeps_unreached hi)
  | true =>
    obtain ⟨event, ambient⟩ := i
    cases event with
    | canSendNotification h status => exact mirror_callback_iff hm .notify h status
    | canWriteWithoutResponse h status => exact mirror_callback_iff hm .write h status
    | attConnected h address addressType => exact mirror_report_iff hm hb (.inl ⟨addressType, rfl⟩)
    | connectionComplete h address addressType role =>
      exact mirror_report_iff hm hb (.inr ⟨addressType, role, rfl⟩)
    | cleanupStaleItems => exact mirror_cleanup_iff hm ambient.now
    | sendPackets =>
      exact iff_of_true (mirror_sendPackets hm ha.keyed fun e he => (ha.targeted e he).2.1) trivial
    | _ => cases hi

theorem Announcing.send (h : Announcing t) (a : Addr) (packet : Packet) (target : ConnPtr)
    (connection : BleConnection) :
    Announcing (t.sendPacketToConnection a packet target connection).1 := by
  have hsame := (t.sendPacketToConnection_emits a packet target connection).connections
  have hlists : ∃ connections notify write,
    (t.sendPacketToConnection a packet target connection).1 =
      { t with connections := connections, rawPacketToNotify := notify,
               rawPacketToWrite := write } := by
    unfold sendPacketToConnection
    split
    · exact ⟨_, _, _, rfl⟩
    · cases target <;> cases queueFor connection <;> exact ⟨_, _, _, rfl⟩
  generalize (t.sendPacketToConnection a packet target connection).1 = u at hsame hlists
  obtain ⟨_, _, _, rfl⟩ := hlists
  refine ⟨h.keyed.sameConnections hsame, h.broadcast,
    fun c hc => (h.records c hc).sameConnections hsame, fun e he => ?_⟩
  obtain ⟨ha, hp, hn⟩ := h.targeted e he
  exact ⟨ha, hp.sameConnections hsame, hn⟩

theorem mirror_rawStep_iff (P : Platform) (op : RawOp) (ha : Announcing t) (hb : BlankNeighbours t)
    (hm : FlagsMirror t) : FlagsMirror (rawStep P t op).1 ↔ KeepsFlags t op := by
  cases op with
  | send a packet target connection => exact mirror_send_iff hm a packet target connection
  | event i => exact mirror_event_iff P i ha hb hm

theorem assertsHold_of_mirror (hm : FlagsMirror t) (P : Platform) (op : RawOp) :
    AssertsHold P t op := by
  intro queue h status hc hq
  rcases rawStep_cases P t op with ⟨hn, -⟩ | ⟨_, _, _, hs, he⟩
  · rw [hn] at hc
    cases hc
  · cases hs.symm.trans hc
    obtain ⟨more, ho, hr⟩ := sendRawPacket_out queue t h status
    rw [he, ho]
    cases hl : (t.rawQueue queue).lowerBound h with
    | nil =>
      rw [handOverFront_idle hl]
      rcases hr with rfl | rfl <;> simp
    | cons e es =>
      rw [handOverFront_out hl, if_pos ((hm h).mpr hq)]
      rcases hr with rfl | rfl <;> simp

-- ---------------------------------------------------------------------------
-- Runs
-- ---------------------------------------------------------------------------

theorem flagsMirror_empty (addr : Addr) : FlagsMirror { announceAddr := addr } := by
  intro h
  refine iff_of_false Bool.false_ne_true ?_
  rintro ⟨q, hq⟩
  cases q <;> exact hq rfl

/-- The flags tell what is queued all through a run exactly if no callback takes the
last of a handle's data, no handle with data is given the record of a neighbour or
loses its own, and each send goes to a record under its own handle. -/
theorem flagsMirror_iff (P : Platform) (addr : Addr) (ops : List RawOp) :
    ((∀ before, before <+: ops → FlagsMirror (run (rawStep P) { announceAddr := addr } before).1) ∧
      Along (rawStep P) (AssertsHold P) { announceAddr := addr } ops) ↔
    Along (rawStep P) KeepsFlags { announceAddr := addr } ops := by
  have hbase (t : Tracker) (op : RawOp) (h : Announcing t ∧ BlankNeighbours t) :
      Announcing (rawStep P t op).1 ∧ BlankNeighbours (rawStep P t op).1 := by
    cases op with
    | send a packet target connection =>
      refine ⟨h.1.send .., h.2.congr ?_⟩
      obtain ⟨_, _, _, _, he⟩ := (t.sendPacketToConnection_emits a packet target connection).eq
      exact (congrArg availableNeighbours he :)
    | event i => exact ⟨h.1.step P i, blankNeighbours_step P t i h.2⟩
  have hinit : Announcing { announceAddr := addr } ∧ BlankNeighbours { announceAddr := addr } :=
    ⟨announcing_init addr, blankNeighbours_run P addr []⟩
  have hall (before : List RawOp) : Announcing (run (rawStep P) { announceAddr := addr } before).1 ∧
      BlankNeighbours (run (rawStep P) { announceAddr := addr } before).1 :=
    run_state_invariant (fun t => Announcing t ∧ BlankNeighbours t) (fun t op _ h => hbase t op h)
      hinit (along_true _ before)
  have hiff : (∀ before, before <+: ops →
      (Announcing (run (rawStep P) { announceAddr := addr } before).1 ∧
        BlankNeighbours (run (rawStep P) { announceAddr := addr } before).1) ∧
      FlagsMirror (run (rawStep P) { announceAddr := addr } before).1) ↔
      Along (rawStep P) KeepsFlags { announceAddr := addr } ops := by
    refine forall_prefix_iff_along (fun t => (Announcing t ∧ BlankNeighbours t) ∧ FlagsMirror t)
      (fun t op h => ?_) ⟨hinit, flagsMirror_empty addr⟩
    rw [← mirror_rawStep_iff P op h.1.1 h.1.2 h.2]
    exact ⟨fun hn => hn.2, fun hn => ⟨hbase t op h.1, hn⟩⟩
  rw [← hiff]
  constructor
  · exact fun h before hp => ⟨hall before, h.1 before hp⟩
  · intro h
    refine ⟨fun before hp => (h before hp).2, along_of_prefixes fun before op after he _ => ?_⟩
    exact assertsHold_of_mirror (h before (he ▸ List.prefix_append ..)).2 P op

/-- The life check goes out, and the flag stays up with nothing left to send. -/
theorem flag_stays_up : ¬ ∀ (P : Platform) (addr : Addr) (ops : List RawOp),
    (∀ before, before <+: ops → FlagsMirror (run (rawStep P) { announceAddr := addr } before).1) ∧
      Along (rawStep P) (AssertsHold P) { announceAddr := addr } ops := by
  intro h
  let events : List Input :=
    oldLink ++ [⟨.lifeCheck, .idle⟩, ⟨.sendPackets, .idle⟩, ⟨.canSendNotification 64 0, .idle⟩]
  let ops := events.map RawOp.event
  have hlast := (h .bare 0 ops).1 ops (List.prefix_refl _) 64
  have hflag : ((run (rawStep .bare) { announceAddr := 0 } ops).1.connectionAt
      64).hasDataToSend := by
    decide +kernel
  obtain ⟨q, hq⟩ := hlast.mp hflag
  cases q
  · exact hq (by decide +kernel)
  · exact hq (by decide +kernel)

end BitchatRepeater
