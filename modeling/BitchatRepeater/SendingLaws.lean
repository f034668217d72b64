import BitchatRepeater.Sending
import BitchatRepeater.Memory

/-!
# What sending can do

Sending changes four things only: the flag for pending data of a connection,
the raw queues, the record of what was sent where, and, when a pass over a list
is complete, that list. `Emits` says so for single calls and for any sequence of
them, `Sends` adds the record.
-/

namespace BitchatRepeater.Tracker

open Lib

variable {t u v : Tracker} {stale : Stale} {out out' : List Effect}

-- ---------------------------------------------------------------------------
-- Effects
-- ---------------------------------------------------------------------------

def queued (queue : RawQueue) (h : Handle) (log : List Effect) : List Bytes :=
  log.filterMap fun
    | .queueRaw _ q k data => if q = queue ∧ k = h then some data else none
    | _ => none

def sending : Effect → Bool
  | .sendPacketToConnection .. | .queueRaw .. | .requestToSend .. | .assertFailed
  | .nullDereference => true
  | _ => false

@[simp] theorem queued_nil : queued queue h [] = [] := rfl

@[simp] theorem queued_append : queued queue h (out ++ out') =
    queued queue h out ++ queued queue h out' :=
  List.filterMap_append

-- ---------------------------------------------------------------------------
-- Connections
-- ---------------------------------------------------------------------------

def settled (c : BleConnection) : BleConnection := { c with hasDataToSend := false }

def SameConnections (t u : Tracker) : Prop :=
  u.connections.keys = t.connections.keys ∧
    ∀ h, (u.connections.get? h).map settled = (t.connections.get? h).map settled

theorem SameConnections.refl (t : Tracker) : SameConnections t t := ⟨rfl, fun _ => rfl⟩

theorem SameConnections.trans (h : SameConnections t u) (h' : SameConnections u v) :
    SameConnections t v :=
  ⟨h'.1.trans h.1, fun k => (h'.2 k).trans (h.2 k)⟩

theorem connectionHandle_of_settled (h : settled c' = settled c) :
    c'.connectionHandle = c.connectionHandle :=
  (congrArg BleConnection.connectionHandle h :)

theorem available_of_settled (h : settled c' = settled c) : available c' = available c :=
  (congrArg available h :)

theorem SameConnections.settled_deref (h : SameConnections t u) (stale : Stale) (p : ConnPtr) :
    settled (u.derefConnection stale p) = settled (t.derefConnection stale p) := by
  cases p with
  | frame a => rfl
  | entry k =>
    have hk := h.2 k
    simp only [derefConnection]
    cases hu : u.connections.get? k <;> cases ht : t.connections.get? k <;> simp_all

theorem SameConnections.handle (h : SameConnections t u) (stale : Stale) (p : ConnPtr) :
    (u.derefConnection stale p).connectionHandle = (t.derefConnection stale p).connectionHandle :=
  connectionHandle_of_settled (h.settled_deref stale p)

theorem derefConnection_entry (h : t.connections.get? k = some c) :
    t.derefConnection stale (.entry k) = c := by
  simp [derefConnection, h]

-- ---------------------------------------------------------------------------
-- SendPacketToConnection
-- ---------------------------------------------------------------------------

/-- What calls of `SendPacketToConnection` change, whatever is recorded of them. -/
structure Emits (t u : Tracker) (out : List Effect) : Prop where
  eq : ∃ connections notify write sent, u = { t with
    connections := connections
    rawPacketToNotify := notify
    rawPacketToWrite := write
    packetsConnectionsSentList := sent }
  connections : SameConnections t u
  raw : ∀ q h, (u.rawQueue q).valuesAt h = (t.rawQueue q).valuesAt h ++ queued q h out
  kinds : ∀ e ∈ out, sending e

theorem Emits.refl (t : Tracker) : Emits t t [] :=
  ⟨⟨_, _, _, _, rfl⟩, .refl t, by simp, by simp⟩

theorem Emits.trans (h : Emits t u out) (h' : Emits u v out') : Emits t v (out ++ out') := by
  refine ⟨?_, h.connections.trans h'.connections, ?_, ?_⟩
  · obtain ⟨_, _, _, _, rfl⟩ := h.eq
    obtain ⟨_, _, _, _, rfl⟩ := h'.eq
    exact ⟨_, _, _, _, rfl⟩
  · intro q k
    rw [h'.raw, h.raw, queued_append, List.append_assoc]
  · intro e he
    rcases List.mem_append.mp he with he | he
    · exact h.kinds e he
    · exact h'.kinds e he

theorem Emits.stored (h : Emits t u out) : u.stored = t.stored := by
  obtain ⟨_, _, _, _, rfl⟩ := h.eq
  rfl

theorem Emits.peers (h : Emits t u out) : u.peers = t.peers := by
  obtain ⟨_, _, _, _, rfl⟩ := h.eq
  rfl

theorem Emits.derefPacket (h : Emits t u out) : u.derefPacket stale a = t.derefPacket stale a := by
  obtain ⟨_, _, _, _, rfl⟩ := h.eq
  rfl

theorem sameConnections_setHasData (t : Tracker) (k : Handle) :
    SameConnections t (t.setHasData (.entry k)) := by
  refine ⟨OrdMap.keys_modify, fun h => ?_⟩
  simp only [setHasData, OrdMap.get?_modify]
  split
  · rw [Option.map_map]
    rfl
  · rfl

@[simp] theorem rawQueue_setRawQueue (q : RawQueue) : (t.setRawQueue queue m).rawQueue q =
    if q = queue then m else t.rawQueue q := by
  cases q <;> cases queue <;> rfl

theorem emits_queue (t : Tracker) (queue : RawQueue) (h : Handle) (data : Bytes) (address : Addr) :
    Emits t (t.setRawQueue queue ((t.rawQueue queue).emplace h data))
      [.queueRaw address queue h data] := by
  refine ⟨?_, ?_, fun q k => ?_, by simp [sending]⟩
  · cases queue <;> exact ⟨_, _, _, _, rfl⟩
  · cases queue <;> exact .refl t
  · rw [rawQueue_setRawQueue]
    by_cases hq : q = queue
    · subst hq
      by_cases hk : k = h <;> simp [Multimap.valuesAt_emplace, queued, hk, eq_comm]
    · simp [queued, hq, eq_comm]

theorem emits_nothing (t : Tracker) (hs : ∀ e ∈ out, sending e) (hq : ∀ q h, queued q h out = []) :
    Emits t t out :=
  ⟨⟨_, _, _, _, rfl⟩, .refl t, by simp [hq], hs⟩

theorem emits_setHasData (t : Tracker) (target : ConnPtr) : Emits t (t.setHasData target) [] := by
  cases target with
  | frame a => exact .refl t
  | entry k =>
    refine ⟨⟨_, _, _, _, rfl⟩, sameConnections_setHasData t k, fun q h => ?_, by simp⟩
    cases q <;> exact (List.append_nil _).symm

theorem sendPacketToConnection_emits (t : Tracker) (address : Addr) (packet : Packet)
    (target : ConnPtr) (connection : BleConnection) :
    Emits t (t.sendPacketToConnection address packet target connection).1
      (t.sendPacketToConnection address packet target connection).2 := by
  unfold sendPacketToConnection
  simp only
  split
  · exact emits_nothing t (by simp [sending]) (by simp [queued])
  next data hd =>
    have hcall : Emits t t ([.sendPacketToConnection address target connection.connectionHandle] ++
        if data.length > connection.btMtu.toNat then [.assertFailed] else []) :=
      emits_nothing t (by split <;> simp [sending]) (by intro q h; split <;> simp [queued])
    have hqueue := emits_queue (t.setHasData target) (queueFor connection)
      connection.connectionHandle data address
    have hrequest (u : Tracker) :
        Emits u u [.requestToSend (queueFor connection) connection.connectionHandle] :=
      emits_nothing u (by simp [sending]) (by simp [queued])
    simpa using (hcall.trans (emits_setHasData t target)).trans (hqueue.trans (hrequest _))

theorem sendPacketToConnection_out (t : Tracker) (address : Addr) (packet : Packet)
    (target : ConnPtr) (connection : BleConnection) :
    ∃ rest, (t.sendPacketToConnection address packet target connection).2 =
        .sendPacketToConnection address target connection.connectionHandle :: rest ∧
      (∀ a c h, .sendPacketToConnection a c h ∉ rest) ∧
      ∀ a q h data, .queueRaw a q h data ∈ rest →
        a = address ∧ h = connection.connectionHandle ∧
          ProtocolWriter.writePacket t.peers packet = some data := by
  unfold sendPacketToConnection
  simp only
  split
  · exact ⟨_, rfl, by simp, by simp⟩
  next data hd =>
    refine ⟨_, rfl, ?_, ?_⟩
    · intro a c h
      split <;> simp
    · intro a q h d hm
      have hq : Effect.queueRaw a q h d =
          .queueRaw address (queueFor connection) connection.connectionHandle data := by
        split at hm <;> simpa using hm
      cases hq
      exact ⟨rfl, rfl, hd⟩

-- ---------------------------------------------------------------------------
-- Recorded sends
-- ---------------------------------------------------------------------------

/-- What the sending loops change: every call is recorded, and what is queued
is the packet as it stands. -/
structure Sends (stale : Stale) (t u : Tracker) (out : List Effect) : Prop extends
    Emits t u out where
  sent : ∀ a c, (a, c) ∈ u.packetsConnectionsSentList.entries ↔
    (a, c) ∈ t.packetsConnectionsSentList.entries ∨ ∃ h, .sendPacketToConnection a c h ∈ out
  handle : ∀ a c h, .sendPacketToConnection a c h ∈ out →
    h = (t.derefConnection stale c).connectionHandle
  data : ∀ a q h data, .queueRaw a q h data ∈ out → (∃ c, .sendPacketToConnection a c h ∈ out) ∧
    ProtocolWriter.writePacket t.peers (t.derefPacket stale a) = some data

theorem Sends.refl (stale : Stale) (t : Tracker) : Sends stale t t [] :=
  { Emits.refl t with
    sent := by simp
    handle := by simp
    data := by simp }

theorem Sends.trans (h : Sends stale t u out) (h' : Sends stale u v out') :
    Sends stale t v (out ++ out') := by
  refine { h.toEmits.trans h'.toEmits with sent := ?_, handle := ?_, data := ?_ }
  · intro a c
    simp only [h'.sent, h.sent, List.mem_append, exists_or, or_assoc]
  · intro a c k hm
    rcases List.mem_append.mp hm with hm | hm
    · exact h.handle a c k hm
    · rw [h'.handle a c k hm, h.connections.handle]
  · intro a q k d hm
    rcases List.mem_append.mp hm with hm | hm
    · obtain ⟨⟨c, hc⟩, hw⟩ := h.data a q k d hm
      exact ⟨⟨c, List.mem_append_left _ hc⟩, hw⟩
    · obtain ⟨⟨c, hc⟩, hw⟩ := h'.data a q k d hm
      rw [h.peers, h.derefPacket] at hw
      exact ⟨⟨c, List.mem_append_right _ hc⟩, hw⟩

theorem sendPacketToConnection_sent :
    (t.sendPacketToConnection a packet target connection).1.packetsConnectionsSentList =
      t.packetsConnectionsSentList := by
  unfold sendPacketToConnection
  simp only
  split
  · rfl
  · cases queueFor connection <;> cases target <;> rfl

theorem sends_recorded (stale : Stale) (t : Tracker) (a : Addr) (c : ConnPtr) :
    Sends stale t
      ((t.sendPacketToConnection a (t.derefPacket stale a) c
        (t.derefConnection stale c)).1.recordSent
        a c)
      (t.sendPacketToConnection a (t.derefPacket stale a) c (t.derefConnection stale c)).2 := by
  have he := t.sendPacketToConnection_emits a (t.derefPacket stale a) c (t.derefConnection stale c)
  obtain ⟨rest, ho, hcall, hraw⟩ :=
    t.sendPacketToConnection_out a (t.derefPacket stale a) c (t.derefConnection stale c)
  refine { eq := ?_, connections := he.connections, raw := he.raw, kinds := he.kinds,
           sent := ?_, handle := ?_, data := ?_ }
  · obtain ⟨_, _, _, _, hu⟩ := he.eq
    rw [hu]
    exact ⟨_, _, _, _, rfl⟩
  · intro b d
    simp only [recordSent, sendPacketToConnection_sent, Multimap.mem_emplace, ho,
      List.mem_cons, hcall,
      or_false, Effect.sendPacketToConnection.injEq, exists_and_left, exists_eq, and_true,
      Prod.mk.injEq]
    exact or_comm
  · intro b d k hm
    rw [ho, List.mem_cons] at hm
    rcases hm with hm | hm
    · cases hm
      rfl
    · exact absurd hm (hcall b d k)
  · intro b q k d hm
    rw [ho, List.mem_cons] at hm
    rcases hm with hm | hm
    · cases hm
    · obtain ⟨rfl, rfl, hw⟩ := hraw b q k d hm
      exact ⟨⟨c, ho ▸ List.mem_cons_self⟩, hw⟩

def Calls (out : List Effect) (a : Addr) (c : ConnPtr) : Prop :=
  ∃ h, .sendPacketToConnection a c h ∈ out

instance : Decidable (Calls out a c) :=
  decidable_of_iff (out.any fun
    | .sendPacketToConnection b d _ => b = a && d = c
    | _ => false) (by
      simp only [List.any_eq_true, Calls]
      constructor
      · rintro ⟨e, he, hs⟩
        cases e with
        | sendPacketToConnection b d h =>
          obtain ⟨rfl, rfl⟩ : b = a ∧ d = c := by simpa using hs
          exact ⟨h, he⟩
        | _ => cases hs
      · rintro ⟨h, he⟩
        exact ⟨_, he, by simp⟩)

theorem calls_append : Calls (out ++ out') a c ↔ Calls out a c ∨ Calls out' a c := by
  simp [Calls, exists_or]

theorem not_calls_nil : ¬ Calls [] a c := by
  simp [Calls]

theorem calls_sendPacketToConnection :
    Calls (t.sendPacketToConnection a packet target connection).2 b c ↔ b = a ∧ c = target := by
  obtain ⟨rest, ho, hcall, -⟩ := t.sendPacketToConnection_out a packet target connection
  simp [Calls, ho, hcall]

theorem sendTargeted_cases (stale : Stale) (t : Tracker) (a : Addr) (c : ConnPtr) :
    (t.packetSentTo stale a (t.derefConnection stale c).connectionHandle = true ∧
      sendTargeted stale t (a, c) = (t, [])) ∨
    (t.packetSentTo stale a (t.derefConnection stale c).connectionHandle = false ∧
      Sends stale t (sendTargeted stale t (a, c)).1 (sendTargeted stale t (a, c)).2 ∧
      ∀ b d, Calls (sendTargeted stale t (a, c)).2 b d ↔ b = a ∧ d = c) := by
  unfold sendTargeted
  by_cases hs : t.packetSentTo stale a (t.derefConnection stale c).connectionHandle
  · exact .inl ⟨hs, if_pos hs⟩
  · rw [if_neg hs]
    exact .inr ⟨by simpa using hs, sends_recorded stale t a c,
      fun b d => calls_sendPacketToConnection⟩

/-- The two filters a connection has to pass in the broadcast loop. -/
def Open (stale : Stale) (t : Tracker) (a : Addr) (k : Handle) : Prop :=
  ∃ c, t.connections.get? k = some c ∧ available c ∧ t.sendable stale a c

theorem sendBroadcastTo_cases (stale : Stale) (t : Tracker) (a : Addr) (k : Handle) :
    (¬ Open stale t a k ∧ sendBroadcastTo stale a t k = (t, [])) ∨
    (Open stale t a k ∧
      Sends stale t (sendBroadcastTo stale a t k).1 (sendBroadcastTo stale a t k).2 ∧
      ∀ b d, Calls (sendBroadcastTo stale a t k).2 b d ↔ b = a ∧ d = .entry k) := by
  unfold sendBroadcastTo
  cases hk : t.connections.get? k with
  | none => exact .inl ⟨by simp [Open, hk], rfl⟩
  | some c =>
    by_cases ho : available c && t.sendable stale a c
    · simp only [ho, if_true]
      have hs := sends_recorded stale t a (.entry k)
      rw [derefConnection_entry hk] at hs
      rw [Bool.and_eq_true] at ho
      exact .inr ⟨⟨c, hk, ho⟩, hs, fun b d => calls_sendPacketToConnection⟩
    · simp only [ho, Bool.false_eq_true, if_false]
      refine .inl ⟨?_, trivial⟩
      rintro ⟨c', hc, ha, hs⟩
      rw [hk] at hc
      cases hc
      exact ho (by simp [ha, hs])

theorem sends_sendTargeted (stale : Stale) (t : Tracker) (item : Addr × ConnPtr) :
    Sends stale t (sendTargeted stale t item).1 (sendTargeted stale t item).2 := by
  rcases sendTargeted_cases stale t item.1 item.2 with ⟨-, he⟩ | ⟨-, hs, -⟩
  · rw [he]
    exact .refl stale t
  · exact hs

theorem sends_sendBroadcastTo (stale : Stale) (t : Tracker) (a : Addr) (k : Handle) :
    Sends stale t (sendBroadcastTo stale a t k).1 (sendBroadcastTo stale a t k).2 := by
  rcases sendBroadcastTo_cases stale t a k with ⟨-, he⟩ | ⟨-, hs, -⟩
  · rw [he]
    exact .refl stale t
  · exact hs

theorem sends_run {step : Tracker → ι → Tracker × List Effect}
    (h : ∀ t i, Sends stale t (step t i).1 (step t i).2) (t : Tracker) (is : List ι) :
    Sends stale t (run step t is).1 (run step t is).2 :=
  run_relation (Sends stale) (.refl stale) (fun _ _ _ _ _ h h' => h.trans h') (fun t i _ => h t i) t

theorem sends_sendBroadcast (stale : Stale) (t : Tracker) (a : Addr) :
    Sends stale t (sendBroadcast stale t a).1 (sendBroadcast stale t a).2 :=
  sends_run (fun t k => sends_sendBroadcastTo stale t a k) t _

-- ---------------------------------------------------------------------------
-- sendPackets
-- ---------------------------------------------------------------------------

theorem Sends.withTargeted (h : Sends stale t u out) (targeted : Multimap Addr ConnPtr) :
    Sends stale { t with targetedPacketsToSendList := targeted }
      { u with targetedPacketsToSendList := targeted } out := by
  refine { eq := ?_, connections := h.connections, raw := ?_, kinds := h.kinds, sent := h.sent,
           handle := ?_, data := h.data }
  · obtain ⟨_, _, _, _, rfl⟩ := h.eq
    exact ⟨_, _, _, _, rfl⟩
  · intro q k
    cases q with
    | notify => exact h.raw .notify k
    | write => exact h.raw .write k
  · intro a c k hm
    cases c <;> exact h.handle a _ k hm

theorem Sends.targeted (h : Sends stale t u out) :
    u.targetedPacketsToSendList = t.targetedPacketsToSendList := by
  obtain ⟨_, _, _, _, rfl⟩ := h.eq
  rfl

theorem Sends.targeted_self (h : Sends stale t u out) :
    { u with targetedPacketsToSendList := t.targetedPacketsToSendList } = u := by
  obtain ⟨_, _, _, _, rfl⟩ := h.eq
  rfl

theorem Sends.broadcast (h : Sends stale t u out) :
    u.broadcastPacketsToSendList = t.broadcastPacketsToSendList := by
  obtain ⟨_, _, _, _, rfl⟩ := h.eq
  rfl

theorem sendBroadcastPackets_eq (stale : Stale) (t : Tracker) :
    (sendBroadcastPackets stale t).1 =
      { (run (sendBroadcast stale) t t.broadcastPacketsToSendList).1 with
        broadcastPacketsToSendList := [] } := by
  have hb := (sends_run (sends_sendBroadcast stale) t t.broadcastPacketsToSendList).broadcast
  simp [sendBroadcastPackets, hb]

/-- `sendPackets` sends, and then takes entries off its two lists: the
broadcast list is empty afterwards. -/
theorem sendPackets_sends (stale : Stale) (t : Tracker) : ∃ v targeted,
    Sends stale t v (t.sendPackets stale).2 ∧
    (t.sendPackets stale).1 = { v with
      broadcastPacketsToSendList := []
      targetedPacketsToSendList := targeted } ∧
    ∀ e ∈ targeted.entries, e ∈ t.targetedPacketsToSendList.entries := by
  unfold sendPackets
  split
  next he =>
    have hb : t.broadcastPacketsToSendList = [] := by
      simp only [Bool.and_eq_true, List.isEmpty_iff] at he
      exact he.1
    refine ⟨t, t.targetedPacketsToSendList, .refl stale t, ?_, fun _ h => h⟩
    cases t
    simp_all
  next =>
    have h₁ := sends_run (sends_sendTargeted stale) t t.targetedPacketsToSendList.entries
    have h₂ := sends_run (sends_sendBroadcast stale) (sendTargetedPackets stale t).1
      (sendTargetedPackets stale t).1.broadcastPacketsToSendList
    have h₃ := h₁.trans (h₁.targeted_self ▸ h₂.withTargeted t.targetedPacketsToSendList)
    refine ⟨_, (sendTargetedPackets stale t).1.targetedPacketsToSendList, h₃, ?_, ?_⟩
    · simp only [sendBroadcastPackets_eq]
      rw [h₂.targeted]
    · intro e he
      rw [← h₁.targeted]
      exact (Multimap.mem_eraseIf.mp he).1

theorem calls_run_iff {step : Tracker → ι → Tracker × List Effect} {is : List ι} :
    Calls (run step t is).2 a c ↔
      ∃ before i after, is = before ++ i :: after ∧ Calls (step (run step t before).1 i).2 a c := by
  constructor
  · rintro ⟨h, hm⟩
    obtain ⟨before, i, after, he, hi⟩ := mem_run.mp hm
    exact ⟨before, i, after, he, h, hi⟩
  · rintro ⟨before, i, after, he, h, hi⟩
    exact ⟨h, mem_run.mpr ⟨before, i, after, he, hi⟩⟩

theorem calls_run {step : Tracker → ι → Tracker × List Effect} {is : List ι}
    (ok : Addr → ConnPtr → Prop) (h : ∀ t, ∀ i ∈ is, ∀ a c, Calls (step t i).2 a c → ok a c)
    (t : Tracker) : ∀ a c, Calls (run step t is).2 a c → ok a c :=
  run_relation (fun _ _ out => ∀ a c, Calls out a c → ok a c)
    (fun _ _ _ hc => absurd hc not_calls_nil)
    (fun _ _ _ _ _ h h' a c hc => (calls_append.mp hc).elim (h a c) (h' a c)) h t

theorem calls_sendTargeted (h : Calls (sendTargeted stale t item).2 a c) : (a, c) = item := by
  rcases sendTargeted_cases stale t item.1 item.2 with ⟨-, he⟩ | ⟨-, -, hc⟩
  · rw [he] at h
    exact absurd h not_calls_nil
  · obtain ⟨rfl, rfl⟩ := (hc a c).mp h
    rfl

theorem calls_sendBroadcastTo (h : Calls (sendBroadcastTo stale p t k).2 a c) :
    a = p ∧ c = .entry k := by
  rcases sendBroadcastTo_cases stale t p k with ⟨-, he⟩ | ⟨-, -, hc⟩
  · rw [he] at h
    exact absurd h not_calls_nil
  · exact (hc a c).mp h

theorem calls_sendTargeted_iff : Calls (sendTargeted stale t (a, c)).2 a c ↔
    ¬ t.packetSentTo stale a (t.derefConnection stale c).connectionHandle = true := by
  rcases sendTargeted_cases stale t a c with ⟨hs, he⟩ | ⟨hs, -, hc⟩
  · simp [he, hs, not_calls_nil]
  · simp [hc, hs]

theorem calls_sendBroadcastTo_iff :
    Calls (sendBroadcastTo stale p t k).2 p (.entry k) ↔ Open stale t p k := by
  rcases sendBroadcastTo_cases stale t p k with ⟨ho, he⟩ | ⟨ho, -, hc⟩
  · simp [he, ho, not_calls_nil]
  · simp [hc, ho]

theorem broadcast_sendTargetedPackets :
    (sendTargetedPackets stale t).1.broadcastPacketsToSendList = t.broadcastPacketsToSendList :=
  (sends_run (sends_sendTargeted stale) t t.targetedPacketsToSendList.entries).broadcast

theorem sendPackets_out (stale : Stale) (t : Tracker) :
    (t.sendPackets stale).2 = (run (sendTargeted stale) t t.targetedPacketsToSendList.entries).2 ++
      (run (sendBroadcast stale) (sendTargetedPackets stale t).1
        t.broadcastPacketsToSendList).2 := by
  unfold sendPackets
  split
  next he =>
    simp only [Bool.and_eq_true, List.isEmpty_iff] at he
    rw [he.1, he.2]
    rfl
  next =>
    simp only [sendBroadcastPackets, broadcast_sendTargetedPackets]
    rfl

theorem calls_sendPackets (h : Calls (t.sendPackets stale).2 a c) :
    (a, c) ∈ t.targetedPacketsToSendList.entries ∨
      Calls (run (sendBroadcast stale) (sendTargetedPackets stale t).1
        t.broadcastPacketsToSendList).2 a c := by
  rw [sendPackets_out, calls_append] at h
  refine h.imp_left (calls_run (fun a c => (a, c) ∈ _) (fun u item hi b d hc => ?_) t a c)
  exact calls_sendTargeted hc ▸ hi

theorem sendPackets_calls (h : Calls (t.sendPackets stale).2 a c) :
    (a, c) ∈ t.targetedPacketsToSendList.entries ∨
      (a ∈ t.broadcastPacketsToSendList ∧ ∃ k, c = .entry k) := by
  refine (calls_sendPackets h).imp_right
    (calls_run (fun a c => a ∈ _ ∧ ∃ k, c = .entry k) (fun u p hp b d hc => ?_) _ a c)
  refine calls_run (fun a c => a ∈ _ ∧ ∃ k, c = .entry k) (fun v k _ b d hc => ?_) u b d hc
  obtain ⟨rfl, rfl⟩ := calls_sendBroadcastTo hc
  exact ⟨hp, k, rfl⟩

end BitchatRepeater.Tracker
