import BitchatRepeater.ArrivalOrder
import BitchatRepeater.Broadcast
import BitchatRepeater.DataFlags
import BitchatRepeater.FirstCopies
import BitchatRepeater.Relay
import BitchatRepeater.ReusedHandles
import BitchatRepeater.SendRequests

/-!
# Hops

A repeater on the path of a packet. The packet comes in over one link, `sendPackets`
queues it for every other, and asks the stack to call back for each. The registration
of the queue is that of the last request, so the link on which the packet is to leave
gets it if no other link of the queue that it is sent to has a greater handle
(`Hop.Forwards.passes`).
-/

namespace BitchatRepeater

open Lib Tracker ProtocolProcessor

/-- What the program sees of data that another repeater handed to its stack from this queue. -/
def arriving : RawQueue → Handle → Bytes → Event
  | .notify, h, data => .gattNotification h data
  | .write, h, data => .attWrite h false .value 0 data

/-- No assertion fails, and nothing is read through a null pointer. -/
def Unfailing (out : List Effect) : Prop := .assertFailed ∉ out ∧ .nullDereference ∉ out

instance (out : List Effect) : Decidable (Unfailing out) := inferInstanceAs (Decidable (_ ∧ _))

/-- A repeater on the path: the packet comes in over one link, from that queue of the
repeater before, and goes out over another, from that queue of its own. -/
structure Hop (ι : Type) where
  node : ι
  entersBy : RawQueue
  arrives : Handle
  leavesBy : RawQueue
  leaves : Handle
  ambient : Ambient

namespace Hop

variable {ι : Type}

def receiving (hop : Hop ι) (bytes : Bytes) : Input :=
  ⟨arriving hop.entersBy hop.arrives bytes, hop.ambient⟩

def origin (hop : Hop ι) : ConnPtr :=
  match hop.entersBy with
  | .notify => .frame hop.ambient.frame
  | .write => .entry hop.arrives

/-- What `sendPackets` takes for the handle of the origin. Behind a notification
it reads it from a frame that is gone. -/
def originHandle (hop : Hop ι) : Handle :=
  match hop.entersBy with
  | .notify => (hop.ambient.stale.connection (.frame hop.ambient.frame)).connectionHandle
  | .write => hop.arrives

/-- The packet can come in, and the tracker does not hold it. -/
structure Receptive (P : Platform) (p : Incoming) (hop : Hop ι) (t : Tracker) : Prop where
  arrival : ∃ c, t.connections.get? hop.arrives = some c ∧ c.connected
  new : ∀ key, Copy P p key → t.retained key = none

/-- The tracker has nothing else to send, and no record of its own stands in the way of
a packet of this size that will lie at the address the allocator gives it. All links
can take it, and of those that it is sent to from the same queue none comes behind. -/
structure Forwards (size : Nat) (hop : Hop ι) (t : Tracker) : Prop where
  broadcast : t.broadcastPacketsToSendList = []
  targeted : t.targetedPacketsToSendList.entries = []
  link : ∃ c, t.connections.get? hop.leaves = some c ∧ available c ∧ queueFor c = hop.leavesBy
  other : hop.originHandle ≠ hop.leaves
  unsent : ∀ e ∈ t.packetsConnectionsSentList.entries, t.allocate hop.ambient.place ≤ e.1 →
    handleOf hop.ambient.stale t e.2 ≠ hop.leaves
  fits : ∀ k c, t.connections.get? k = some c → available c → size ≤ c.btMtu.toNat
  last : ∀ k c, t.connections.get? k = some c → available c → queueFor c = hop.leavesBy →
    k = hop.originHandle ∨ k ≤ hop.leaves
  idle : (t.rawQueue hop.leavesBy).valuesAt hop.leaves = []

end Hop

/-- The packet is there, with this ttl. -/
def Tracker.Holds (t : Tracker) (p : Incoming) (ttl : UInt8) : Prop :=
  ∃ a packet, (a, packet) ∈ t.stored ∧ Parsed { p with ttl := ttl } packet

-- ---------------------------------------------------------------------------
-- Frames that go on
-- ---------------------------------------------------------------------------

/-- A frame whose payload the writer writes as it was read. -/
structure Frame.Plain (f : Frame) : Prop where
  unsigned : f.isSigned = false
  uncompressed : f.isCompressed = false
  relayable : Relayable f.header.type f.body
  fits : f.bytes.length + 1 < 2 ^ 16

/-- How many repeaters may hold the packet one after the other. -/
def Frame.reach (f : Frame) : Nat :=
  f.header.ttl.toNat + if f.header.type = PacketType.typeMessage.code then 1 else 0

/-- The frame as the next repeater reads it. -/
def Frame.next (f : Frame) : Frame := f.relayed f.body

section Next
variable {f : Frame}

theorem Frame.header_next (f : Frame) : f.next.header = { f.header with ttl := f.header.ttl - 1 } :=
  (congrArg (relayedHeader f.header) (Nat.min_eq_right (Nat.le_of_lt_succ f.length_body_lt))).trans
    (relayedHeader_length f)

theorem Frame.body_next (f : Frame) : f.next.body = f.body :=
  List.take_of_length_le (Nat.le_of_lt_succ f.length_body_lt)

theorem Frame.Plain.signature (h : f.Plain) : f.signature = [] := by
  have hs := f.signed
  rw [show hasFlag f.header.packetFlags packetFlagHasSignature = false from h.unsigned] at hs
  exact List.length_eq_zero_iff.mp hs

theorem Frame.Plain.signature_next (h : f.Plain) : f.next.signature = [] :=
  if_neg (by simp [h.unsigned])

theorem Frame.Plain.incoming_next (h : f.Plain) :
    f.next.incoming f.next.body = { f.incoming f.body with ttl := f.header.ttl - 1 } := by
  simp only [Frame.incoming, f.header_next, f.body_next, h.signature, h.signature_next]

theorem Frame.Plain.length_next (h : f.Plain) : f.next.bytes.length + 1 = f.bytes.length + 1 := by
  simp only [Frame.bytes, List.length_append, f.body_next, h.signature, h.signature_next,
    Header.length_bytes, f.header_next]

theorem Frame.stored_of_reach (h : 0 < f.reach) :
    f.header.type = PacketType.typeMessage.code ∨ ¬ f.header.ttl < 1 := by
  rw [UInt8.lt_iff_toNat_lt]
  unfold Frame.reach at h
  split at h
  · exact .inl ‹_›
  · exact .inr (Nat.not_lt.mpr h)

theorem Frame.ttl_of_reach (h : 1 < f.reach) : 0 < f.header.ttl.toNat := by
  unfold Frame.reach at h
  split at h <;> omega

theorem Frame.reach_next (h : n + 1 < f.reach) : n < f.next.reach := by
  have hpos : 0 < f.header.ttl.toNat := f.ttl_of_reach (Nat.lt_of_le_of_lt (Nat.le_add_left 1 n) h)
  have hsub : (f.header.ttl - 1).toNat = f.header.ttl.toNat - 1 :=
    UInt8.toNat_sub_of_le _ _ (UInt8.le_iff_toNat_le.mpr hpos)
  simp only [Frame.reach, f.header_next, hsub] at h ⊢
  omega

theorem Frame.Plain.next (h : f.Plain) : f.next.Plain where
  unsigned := by
    rw [Frame.isSigned, f.header_next]
    exact h.unsigned
  uncompressed := by
    rw [Frame.isCompressed, f.header_next]
    exact h.uncompressed
  relayable := by
    rw [f.header_next, f.body_next]
    exact h.relayable
  fits := h.length_next.trans_lt h.fits

theorem Frame.Plain.writePacket (h : f.Plain) (hk : PeersKeyed t.peers)
    (hs : Stores P origin (f.incoming f.body) t t' a packet u) :
    ProtocolWriter.writePacket u.peers packet = some (f.next.bytes ++ [0]) := by
  have hw := hs.writePacket_frame ((writePayload_iff hk hs).mpr h.relayable.canonical)
  have ho : f.overhang = [0] := by simp [Frame.overhang, h.unsigned, flagged]
  rw [ho] at hw
  exact hw

end Next

theorem Relayable.copy (hr : Relayable p.type p.payload) (hl : p.payload.length < 2 ^ 16) :
    ∃ key, Copy P p key := by
  rcases hr with ⟨type, hc, hp⟩ | ⟨hm, w, he, -, -⟩
  · exact ⟨_, .passAlong hc hp⟩
  · exact ⟨_, .message hm (by rw [← he, processMessage_encode w (he ▸ hl)])⟩

-- ---------------------------------------------------------------------------
-- Coming in
-- ---------------------------------------------------------------------------

namespace Hop

variable {ι : Type} {P : Platform} {hop : Hop ι} {t u : Tracker} {p : Incoming} {f : Frame}
  {padding : Bytes} {packet : Packet}

theorem Receptive.next (h : Receptive P (f.incoming f.body) hop t) (hf : f.Plain) :
    Receptive P (f.next.incoming f.next.body) hop t where
  arrival := h.arrival
  new key hc := by
    rw [hf.incoming_next] at hc
    exact h.new key (hc.withTtl f.header.ttl)

theorem step_receiving (hc : t.connections.get? hop.arrives = some c) (bytes : Bytes) :
    step P t (hop.receiving bytes) =
      processWrite P hop.ambient t hop.origin (t.connectionAt hop.arrives) 0 bytes := by
  have hsame : t.connectionForConnHandle hop.arrives = t := by
    rw [connectionForConnHandle, if_pos (by rw [OrdMap.contains, hc]; rfl)]
  cases hn : hop.entersBy with
  | notify => simp only [step, receiving, arriving, hn, valueUpdate, hsame, origin]
  | write =>
    simp only [step, receiving, arriving, hn, attWriteCallback, hsame, origin,
      Bool.false_eq_true, if_false]

theorem Receptive.stores (h : Receptive P (f.incoming f.body) hop t) (hf : f.Plain)
    (hl : (f.bytes ++ padding).length < 2 ^ 16) (hreach : 0 < f.reach) :
    ∃ t' packet, Learns t t' ∧
      Stores P hop.origin (f.incoming f.body) t t' (t.allocate hop.ambient.place) packet
        (step P t (hop.receiving (f.bytes ++ padding))).1 ∧
      (step P t (hop.receiving (f.bytes ++ padding))).2 =
        [.storedNew (t.allocate hop.ambient.place) hop.origin] := by
  obtain ⟨c, hc, -⟩ := h.arrival
  obtain ⟨key, hcopy⟩ : ∃ key, Copy P (f.incoming f.body) key :=
    Relayable.copy hf.relayable f.length_body_lt
  obtain ⟨a, ha⟩ := Fresh.stored ⟨key, hcopy, h.new key hcopy, f.stored_of_reach hreach⟩
    hop.ambient hop.origin (t.connectionAt hop.arrives)
  have hh : Handled P hop.ambient.place hop.origin (f.incoming f.body) t
      (dispatch P hop.ambient t hop.origin (t.connectionAt hop.arrives) (f.incoming f.body)) :=
    dispatch_handled
  rw [step_receiving hc, processWrite, f.readPacket_plain hf.uncompressed padding hl P.inflate]
  rcases hh with ⟨-, ho⟩ | ⟨t', packet, hlearns, hs, ho⟩
  · simp [ho] at ha
  · exact ⟨t', packet, hlearns, hs, ho⟩

theorem handleOf_origin (hop : Hop ι) (hk : Keyed t.connections)
    (ha : ∃ c, t.connections.get? hop.arrives = some c ∧ c.connected) :
    handleOf hop.ambient.stale t hop.origin = hop.originHandle := by
  obtain ⟨c, hc, hcon⟩ := ha
  cases hn : hop.entersBy with
  | notify => simp [origin, originHandle, hn, handleOf, derefConnection]
  | write =>
    simp only [origin, originHandle, hn, handleOf]
    rw [derefConnection_entry hc, hk _ c hc hcon]

/-- The packet that has come in is due on the connection it is to leave on, and
the walk over the sent list meets nothing there. -/
theorem Forwards.due (h : Forwards size hop t) (hk : Keyed t.connections)
    (hr : Receives t u (t.allocate hop.ambient.place) packet hop.origin sender)
    (ha : ∃ c, t.connections.get? hop.arrives = some c ∧ c.connected)
    (hpos : packet.base.packetTtl > 0) :
    ∃ c, Due hop.ambient.stale u (t.allocate hop.ambient.place) hop.leaves c ∧
      c.connectionHandle = hop.leaves ∧
      ¬ Missed hop.ambient.stale u (t.allocate hop.ambient.place) hop.leaves c := by
  obtain ⟨c, hc, havail, -⟩ := h.link
  have hconn : c.connectionHandle = hop.leaves := hk _ c hc (available_connected havail)
  obtain ⟨_, _, _, _, _, he⟩ := hr.eq
  have hconns : u.connections = t.connections := by rw [he]
  have hhandle (d : ConnPtr) : handleOf hop.ambient.stale u d = handleOf hop.ambient.stale t d := by
    cases d <;> simp only [handleOf, derefConnection, hconns]
  have hlist : u.broadcastPacketsToSendList = [t.allocate hop.ambient.place] := by
    rw [he]
    simp [h.broadcast, hpos]
  -- no record at the packet's address or above it has the handle
  have hunsent : ∀ e ∈ u.packetsConnectionsSentList.entries, t.allocate hop.ambient.place ≤ e.1 →
      handleOf hop.ambient.stale u e.2 ≠ hop.leaves := by
    intro e hm hle
    rw [he] at hm
    rw [hhandle]
    rcases Multimap.mem_emplace.mp hm with rfl | hm
    · rw [hop.handleOf_origin hk ha]
      exact h.other
    · exact h.unsent e hm hle
  refine ⟨c, ⟨by simp [hlist], by rw [hconns]; exact hc, havail, fun c' hm => ?_⟩,
    hconn, fun hm => ?_⟩
  · rw [hconn]
    exact hunsent _ hm le_rfl
  · rcases hm.meets with ⟨e, hrec, hle, hh⟩ | ⟨q, hq, -⟩ | ⟨j, hj, hav, hh⟩
    · rcases hrec with hrec | hrec
      · exact hunsent e hrec hle (hh.trans hconn)
      · rw [he] at hrec
        simp [h.targeted] at hrec
    · simp [packetsBefore, hlist] at hq
    · obtain ⟨d, hd, havail'⟩ := hav
      have hne : j ≠ hop.leaves := by simpa using List.mem_takeWhile_imp hj
      rw [hconns] at hd
      have hjd := hk j d hd (available_connected havail')
      rw [hhandle, handleOf, derefConnection_entry hd, hjd, hconn] at hh
      exact hne hh

end Hop

-- ---------------------------------------------------------------------------
-- One packet to send
-- ---------------------------------------------------------------------------

namespace Tracker

variable {stale : Stale} {t u s : Tracker} {a : Addr} {data : Bytes} {out : List Effect}
    {h k : Handle}
  {c : BleConnection}

/-- One packet is to be broadcast, it is written like this, and all links can take that. -/
structure Outgoing (stale : Stale) (u : Tracker) (a : Addr) (data : Bytes) : Prop where
  broadcast : u.broadcastPacketsToSendList = [a]
  targeted : u.targetedPacketsToSendList.entries = []
  keyed : Keyed u.connections
  sorted : u.connections.Sorted
  written : ProtocolWriter.writePacket u.peers (u.derefPacket stale a) = some data
  fits : ∀ k c, u.connections.get? k = some c → available c → data.length ≤ c.btMtu.toNat

/-- The packet has a record for this handle. -/
def SentTo (stale : Stale) (u : Tracker) (a : Addr) (k : Handle) : Prop :=
  ∃ c, (a, c) ∈ u.packetsConnectionsSentList.entries ∧ handleOf stale u c = k

theorem Outgoing.sendPackets_eq (ho : Outgoing stale u a data) : u.sendPackets stale =
    ({ (run (sendBroadcastTo stale a) u u.connections.keys).1 with
        broadcastPacketsToSendList := [] },
      (run (sendBroadcastTo stale a) u u.connections.keys).2) := by
  have htargeted : sendTargetedPackets stale u = (u, []) := by
    simp [sendTargetedPackets, ho.targeted, Multimap.eraseIf_eq_self, sentPackets]
  have hone : run (sendBroadcast stale) u [a] =
      run (sendBroadcastTo stale a) u u.connections.keys := by
    simp [run, sendBroadcast]
  have hpass : sendBroadcastPackets stale u =
      ({ (run (sendBroadcastTo stale a) u u.connections.keys).1 with
          broadcastPacketsToSendList := [] },
        (run (sendBroadcastTo stale a) u u.connections.keys).2) := by
    rw [← hone, ← ho.broadcast]
    exact Prod.ext (sendBroadcastPackets_eq stale u) rfl
  rw [sendPackets, if_neg (by simp [ho.broadcast]), htargeted]
  simp only [hpass, List.nil_append]

theorem Outgoing.written_of_sends (ho : Outgoing stale u a data) (hs : Sends stale u s out) :
    ProtocolWriter.writePacket s.peers (s.derefPacket stale a) = some data := by
  rw [hs.peers, hs.derefPacket]
  exact ho.written

theorem Outgoing.round (ho : Outgoing stale u a data) (hs : Sends stale u s out) (k : Handle) :
    sendBroadcastTo stale a s k = (s, []) ∨
    ∃ c, u.connections.get? k = some c ∧ available c ∧ ¬ SentTo stale u a k ∧
      (sendBroadcastTo stale a s k).2 =
        [.sendPacketToConnection a (.entry k) k, .queueRaw a (queueFor c) k data,
          .requestToSend (queueFor c) k] := by
  rcases sendBroadcastTo_cases stale s a k with ⟨-, he⟩ | ⟨⟨c', hc', havail', hopen⟩, -⟩
  · exact .inl he
  right
  have hsame := hs.connections.2 k
  rw [hc', Option.map_some] at hsame
  obtain ⟨c, hc, hsettled⟩ := Option.map_eq_some_iff.mp hsame.symm
  have havail : available c := available_of_settled hsettled.symm ▸ havail'
  have hconn : c.connectionHandle = k := ho.keyed k c hc (available_connected havail)
  have hconn' : c'.connectionHandle = k := (connectionHandle_of_settled hsettled.symm).trans hconn
  have hqueue : queueFor c' = queueFor c := (congrArg queueFor hsettled.symm :)
  have hmtu : c'.btMtu = c.btMtu := (congrArg BleConnection.btMtu hsettled.symm :)
  refine ⟨c, hc, havail, ?_, ?_⟩
  · rintro ⟨d, hd, hh⟩
    have hrecord := (hs.sent a d).mpr (.inl hd)
    have hclosed : s.sendable stale a c' = false :=
      sendable_iff.mpr ⟨⟨d, hrecord⟩, _, hrecord,
        le_refl a, by rw [handleOf_same hs.connections, hh, hconn']⟩
    rw [hclosed] at hopen
    cases hopen
  · have hwritten := ho.written_of_sends hs
    have hfits : ¬ data.length > c'.btMtu.toNat := by
      rw [hmtu]
      exact Nat.not_lt.mpr (ho.fits k c hc havail)
    simp [sendBroadcastTo, hc', havail', hopen, sendPacketToConnection, hwritten, hfits,
      hconn', hqueue]

theorem Outgoing.mem_sendPackets (ho : Outgoing stale u a data) (he : e ∈ (u.sendPackets stale).2) :
    ∃ k c, u.connections.get? k = some c ∧ available c ∧ ¬ SentTo stale u a k ∧
      (e = .sendPacketToConnection a (.entry k) k ∨ e = .queueRaw a (queueFor c) k data ∨
        e = .requestToSend (queueFor c) k) := by
  rw [ho.sendPackets_eq] at he
  obtain ⟨before, k, after, -, he⟩ := mem_run.mp he
  rcases ho.round (sends_run (fun t k => sends_sendBroadcastTo stale t a k) u before) k with
    hnone | ⟨c, hc, havail, hunsent, hout⟩
  · rw [hnone] at he
    cases he
  · rw [hout] at he
    exact ⟨k, c, hc, havail, hunsent, by simpa using he⟩

theorem Outgoing.unfailing (ho : Outgoing stale u a data) : Unfailing (u.sendPackets stale).2 := by
  constructor
  all_goals
    intro hm
    obtain ⟨k, c, -, -, -, he | he | he⟩ := ho.mem_sendPackets hm <;> cases he

/-- Where the packet is sent it is queued, and the stack asked to call back. If it is sent to
no greater handle from the same queue, that is the last request for the queue. -/
theorem Outgoing.asked (ho : Outgoing stale u a data)
    (hcall : Calls (u.sendPackets stale).2 a (.entry k)) (hc : u.connections.get? k = some c)
    (hlast : ∀ j d, u.connections.get? j = some d → available d → queueFor d = queueFor c →
      SentTo stale u a j ∨ j ≤ k) (status : RawQueue × Handle → UInt8) (r : Registrations) :
    .queueRaw a (queueFor c) k data ∈ (u.sendPackets stale).2 ∧
      (queueFor c, k) ∈ requests (u.sendPackets stale).2 ∧
      ((requests (u.sendPackets stale).2).foldl (Registrations.request status) r).context
        (queueFor c) = k := by
  have hkeys : u.connections.keys.Pairwise (· < ·) := OrdMap.sorted_iff_keys.mp ho.sorted
  obtain ⟨j, hcall⟩ := hcall
  rw [ho.sendPackets_eq] at hcall ⊢
  obtain ⟨before, i, after, hsplit, hcall⟩ := mem_run.mp hcall
  have hsends := sends_run (fun t k => sends_sendBroadcastTo stale t a k) u before
  -- the round in which it goes to this handle
  rcases ho.round hsends i with hnone | ⟨d, hd, -, -, hout⟩
  · rw [hnone] at hcall
    cases hcall
  obtain ⟨-, hi⟩ := calls_sendBroadcastTo ⟨j, hcall⟩
  obtain rfl : k = i := ConnPtr.entry.inj hi
  obtain rfl : c = d := Option.some.inj (hc.symm.trans hd)
  have hround : requests (sendBroadcastTo stale a (run (sendBroadcastTo stale a) u before).1 k).2 =
      [(queueFor c, k)] := by
    rw [hout]
    rfl
  rw [hsplit] at hkeys ⊢
  have hsends' := hsends.trans (sends_sendBroadcastTo stale
    (run (sendBroadcastTo stale a) u before).1 a k)
  simp only [run_append, run, requests_append, hround]
  refine ⟨by simp [hout], by simp, ?_⟩
  -- behind it the queue is asked for no more
  generalize (sendBroadcastTo stale a (run (sendBroadcastTo stale a) u before).1 k).1 = s at hsends'
  rw [List.foldl_append, List.foldl_append]
  rcases Registrations.context_request (requests
    (run (sendBroadcastTo stale a) s after).2) with hm | ⟨-, hsame⟩
  · exfalso
    obtain ⟨first, l, rest, hafter, hm⟩ := mem_run.mp (mem_requests.mp hm)
    have hlater := hsends'.trans (sends_run (fun t k => sends_sendBroadcastTo stale t a k) s first)
    rcases ho.round hlater l with hnone | ⟨d, hd, havail, hunsent, hout⟩
    · rw [hnone] at hm
      cases hm
    · rw [hout] at hm
      obtain ⟨hqueue, -⟩ : queueFor c = queueFor d ∧ _ = l := by simpa using hm
      have hgreater : k < l :=
        (List.pairwise_cons.mp (List.pairwise_append.mp hkeys).2.1).1 l (by simp [hafter])
      rcases hlast l d hd havail hqueue.symm with hsent | hle
      · exact hunsent hsent
      · exact absurd hgreater (not_lt.mpr hle)
  · rw [hsame]
    simp [Registrations.request]

theorem hasData_sendBroadcastTo (ho : Outgoing stale u a data) (hs : Sends stale u s out)
    (j : Handle) :
    ((sendBroadcastTo stale a s j).1.connectionAt k).hasDataToSend ↔
      (s.connectionAt k).hasDataToSend ∨ Calls (sendBroadcastTo stale a s j).2 a (.entry k) := by
  rcases sendBroadcastTo_cases stale s a j with ⟨-, he⟩ | ⟨⟨c, hc, havail, hopen⟩, -, hcalls⟩
  · simp [he, not_calls_nil]
  · have hwritten := ho.written_of_sends hs
    have hflags := (flags_send hwritten a (.entry j) c k).1
    have hstep : (sendBroadcastTo stale a s j).1 =
        (s.sendPacketToConnection a (s.derefPacket stale a) (.entry j) c).1.recordSent a
          (.entry j) := by
      simp [sendBroadcastTo, hc, havail, hopen]
    rw [hstep, hcalls, recordSent]
    refine hflags.trans (or_congr_right ?_)
    simp only [true_and, ConnPtr.entry.injEq, eq_comm (a := j), and_iff_left_iff_imp]
    rintro rfl
    simp [OrdMap.contains, hc]

theorem Outgoing.hasData (ho : Outgoing stale u a data)
    (hcall : Calls (u.sendPackets stale).2 a (.entry k)) :
    ((u.sendPackets stale).1.connectionAt k).hasDataToSend = true := by
  have hrun (keys : List Handle) (s : Tracker) (out : List Effect) (hs : Sends stale u s out) :
      (s.connectionAt k).hasDataToSend ∨ Calls (run (sendBroadcastTo stale a) s keys).2
        a (.entry k) →
        ((run (sendBroadcastTo stale a) s keys).1.connectionAt k).hasDataToSend := by
    induction keys generalizing s out with
    | nil => simp [not_calls_nil]
    | cons j keys ih =>
      intro hor
      refine ih _ _ (hs.trans (sends_sendBroadcastTo stale s a j)) ?_
      rw [hasData_sendBroadcastTo ho hs, or_assoc]
      exact hor.imp_right calls_append.mp
  rw [ho.sendPackets_eq] at hcall ⊢
  exact hrun _ u [] (.refl stale u) (.inr hcall)

theorem Outgoing.valuesAt (ho : Outgoing stale u a data)
    (hidle : (u.rawQueue queue).valuesAt k = [])
    (hqueued : .queueRaw a queue k data ∈ (u.sendPackets stale).2) :
    ∃ rest, ((u.sendPackets stale).1.rawQueue queue).valuesAt k = data :: rest := by
  rw [(sendPackets_appends stale u queue k).1, hidle, List.nil_append]
  cases hq : queued queue k (u.sendPackets stale).2 with
  | nil =>
    have hmem := mem_queued.mpr ⟨a, hqueued⟩
    rw [hq] at hmem
    cases hmem
  | cons d rest =>
    obtain ⟨b, hm⟩ := mem_queued.mp (hq ▸ List.mem_cons_self : d ∈
      queued queue k (u.sendPackets stale).2)
    obtain ⟨j, c, -, -, -, he | he | he⟩ := ho.mem_sendPackets hm <;> cases he
    exact ⟨rest, rfl⟩

end Tracker

-- ---------------------------------------------------------------------------
-- Going out
-- ---------------------------------------------------------------------------

section Passing
variable {ι : Type} {P : Platform} {hop : Hop ι} {t t' u : Tracker} {f : Frame} {packet : Packet}

def Hop.sending (hop : Hop ι) : StackInput :=
  ⟨.makes ⟨.event ⟨.sendPackets, hop.ambient⟩, rfl⟩, fun _ => 0⟩

def Hop.handing (hop : Hop ι) : StackInput :=
  ⟨.canSend hop.leavesBy hop.leaves 0 hop.ambient, fun _ => 0⟩

theorem Hop.Forwards.outgoing (h : hop.Forwards (f.bytes.length + 1) t) (hk : Keyed t.connections)
    (hs : t.connections.Sorted) (hpeers : PeersKeyed t.peers) (hf : f.Plain) (hl : Learns t t')
    (hstores : Stores P hop.origin (f.incoming f.body) t t' (t.allocate hop.ambient.place) packet u)
    (hpos : f.header.ttl > 0) :
    Outgoing hop.ambient.stale u (t.allocate hop.ambient.place) (f.next.bytes ++ [0]) := by
  have hrec := hstores.receives hl
  obtain ⟨_, _, _, _, _, he⟩ := hrec.eq
  have httl : packet.base.packetTtl > 0 := by
    rw [hstores.ttl]
    exact hpos
  have hconns : u.connections = t.connections := by rw [he]
  have hann : u.announceAddr = t.announceAddr := by rw [he]
  have hpacket : u.derefPacket hop.ambient.stale (t.allocate hop.ambient.place) = packet := by
    rw [derefPacket, packetAt_of_adds hrec.adds hann, Option.getD_some]
  refine ⟨?_, ?_, hconns ▸ hk, hconns ▸ hs, hpacket ▸ hf.writePacket hpeers hstores,
    fun k c hc ha => ?_⟩
  · rw [he]
    simp [h.broadcast, httl]
  · rw [he]
    exact h.targeted
  · rw [List.length_append, List.length_singleton, hf.length_next]
    exact h.fits k c (hconns ▸ hc) ha

theorem sendRawPacket_hands {queue : RawQueue} {k : Handle}
    (hv : (t.rawQueue queue).valuesAt k = data :: rest)
    (hflag : (t.connectionAt k).hasDataToSend = true) :
    Unfailing (sendRawPacket queue t k 0).2 ∧
    ∃ w, .handOver queue k w data 0 ∈ (sendRawPacket queue t k 0).2 := by
  obtain ⟨es, hl⟩ := Multimap.lowerBound_of_valuesAt hv
  obtain ⟨more, ho, hm⟩ := sendRawPacket_out queue t k 0
  rw [ho, handOverFront_out hl, if_pos hflag]
  refine ⟨?_, (t.connectionAt k).bitchatCharacteristicValueHandle, by simp⟩
  rcases hm with rfl | rfl <;> simp [Unfailing]

/-- A packet that has come in at a hop is queued for the link on which it is to leave, and
handed to the stack when that link calls back. -/
theorem Hop.Forwards.passes (h : hop.Forwards (f.bytes.length + 1) t) (hk : Keyed t.connections)
    (hs : t.connections.Sorted) (hpeers : PeersKeyed t.peers) (hf : f.Plain)
    (ha : ∃ c, t.connections.get? hop.arrives = some c ∧ c.connected) (hl : Learns t t')
    (hstores : Stores P hop.origin (f.incoming f.body) t t' (t.allocate hop.ambient.place) packet u)
    (hpos : f.header.ttl > 0) (r : Registrations) :
    let sent := stackStep P (u, r) hop.sending
    let handed := stackStep P sent.1 hop.handing
    Unfailing sent.2 ∧ (hop.leavesBy, hop.leaves) ∈ sent.1.2.owed ∧ Unfailing handed.2 ∧
      ∃ w, .handOver hop.leavesBy hop.leaves w (f.next.bytes ++ [0]) 0 ∈ handed.2 := by
  intro sent handed
  have ho := h.outgoing hk hs hpeers hf hl hstores hpos
  have hrec := hstores.receives hl
  obtain ⟨_, _, _, _, _, he⟩ := hrec.eq
  have hconns : u.connections = t.connections := by rw [he]
  have hraw : u.rawQueue hop.leavesBy = t.rawQueue hop.leavesBy := by
    rw [he]
    cases hop.leavesBy <;> rfl
  have httl : packet.base.packetTtl > 0 := by
    rw [hstores.ttl]
    exact hpos
  obtain ⟨c, hdue, -, hno⟩ := h.due hk hrec ha httl
  have hcall := (calls_iff_not_missed hdue).mpr hno
  obtain ⟨d, hd, -, hqueue⟩ := h.link
  obtain rfl : d = c := Option.some.inj ((hconns ▸ hd).symm.trans hdue.entry)
  -- the origin has a record, and so gets nothing
  have hlast (j : Handle) (d' : BleConnection) (hj : u.connections.get? j = some d')
    (havail : available d')
      (hq : queueFor d' = queueFor d) :
      SentTo hop.ambient.stale u (t.allocate hop.ambient.place) j ∨ j ≤ hop.leaves := by
    refine (h.last j d' (hconns ▸ hj) havail (hq.trans hqueue)).imp_left fun heq =>
      ⟨hop.origin, ?_, ?_⟩
    · rw [he]
      exact Multimap.mem_emplace.mpr (.inl rfl)
    · rw [heq]
      exact hop.handleOf_origin (hconns ▸ hk) (hconns ▸ ha)
  obtain ⟨hqueued, hasked, hcontext⟩ := ho.asked hcall hdue.entry hlast (fun _ => 0)
    { r with owed := r.owed.filter (¬ hop.sending.action.Settles ·) }
  rw [hqueue] at hqueued hasked hcontext
  obtain ⟨rest, hvalues⟩ := ho.valuesAt (hraw ▸ h.idle) hqueued
  have hsent : sent.2 = (u.sendPackets hop.ambient.stale).2 := rfl
  have hcontext' : sent.1.2.context hop.leavesBy = hop.leaves := hcontext
  have hhanded : handed.2 = (sendRawPacket hop.leavesBy sent.1.1 hop.leaves 0).2 := by
    rcases stackStep_cases P sent.1 hop.handing with ⟨hnone, -⟩ | ⟨queue, link, status, hc, -, hout⟩
    · cases hnone
    · cases hc
      rw [← hcontext']
      exact hout
  obtain ⟨hunfailing, w, hover⟩ := sendRawPacket_hands hvalues (ho.hasData hcall)
  refine ⟨hsent ▸ ho.unfailing, mem_owed_stackStep.mpr (.inr ⟨hasked, rfl⟩), ?_, w, ?_⟩
  · rw [hhanded]
    exact hunfailing
  · rw [hhanded]
    exact hover

end Passing

end BitchatRepeater
