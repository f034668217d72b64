import BitchatRepeater.ProcessorLaws

/-!
# What rejected input leaves behind

An unreadable payload changes nothing. A message is rejected only while its
payload is read, and by then its sender is in the peer table, and so is the peer
that the sender peer field names if the reading has come that far.
-/

namespace BitchatRepeater.ProtocolProcessor

open Lib Tracker

variable {peers : Peers} {t : Tracker}

-- ---------------------------------------------------------------------------
-- Peers in the table
-- ---------------------------------------------------------------------------

theorem checkSenderInPeers_eq_self_iff :
    checkSenderInPeers peers sender = peers ↔ peers.contains sender := by
  constructor
  · intro h
    rw [← h]
    exact contains_checkSenderInPeers peers sender
  · intro h
    exact if_pos h

-- ---------------------------------------------------------------------------
-- Rejection
-- ---------------------------------------------------------------------------

/-- The payload is unreadable, or `processMessage` returns false on that of a message. -/
def NotAccepted (P : Platform) (t : Tracker) (offset : UInt16) (buffer : Bytes) : Prop :=
  readPacket P.inflate offset buffer = .rejected ∨
    ∃ p, readPacket P.inflate offset buffer = .packet p ∧ p.type = PacketType.typeMessage.code ∧
      (processMessage (checkSenderInPeers t.peers p.sender) p.message p.payload).2 = none

/-- The sender is in the peer table, and so is the peer the payload names. -/
def Introduced (t : Tracker) (p : Incoming) : Prop :=
  t.peers.contains p.sender ∧ ∀ peerId, namedPeer p.message p.payload = some peerId →
  t.peers.contains peerId

theorem dispatch_rejected (hp : p.type = PacketType.typeMessage.code)
    (hr : (processMessage (checkSenderInPeers t.peers p.sender) p.message p.payload).2 = none) :
    dispatch P ambient t origin connection p =
      ({ t with peers :=
          (processMessage (checkSenderInPeers t.peers p.sender) p.message p.payload).1 }, []) := by
  have htype : PacketType.ofCode? p.type = some .typeMessage := by rw [hp, PacketType.ofCode?_code]
  simp only [dispatch, htype, handleMessage]
  rw [hr]

theorem entered_eq_self_iff (p : Incoming) :
    (processMessage (checkSenderInPeers t.peers p.sender) p.message p.payload).1 = t.peers ↔
      Introduced t p := by
  rw [peers_processMessage, Introduced]
  rcases namedPeer p.message p.payload with _ | peerId
  · simp [checkSenderInPeers_eq_self_iff]
  · simp only [Option.some.injEq, forall_eq']
    constructor
    · intro h
      have hsender : t.peers.contains p.sender := by
        rw [← h]
        exact contains_checkSenderInPeers_of_contains (contains_checkSenderInPeers _ _)
      rw [checkSenderInPeers_eq_self_iff.mpr hsender, checkSenderInPeers_eq_self_iff] at h
      exact ⟨hsender, h⟩
    · rintro ⟨hsender, hpeer⟩
      rw [checkSenderInPeers_eq_self_iff.mpr hsender, checkSenderInPeers_eq_self_iff.mpr hpeer]

/-- Rejected input leaves the whole tracker as it was exactly if the peers it
names were known. -/
theorem rejected_unchanged_iff (P : Platform) (ambient : Ambient) (t : Tracker) (origin : ConnPtr)
    (connection : BleConnection) (offset : UInt16) (buffer : Bytes)
    (h : NotAccepted P t offset buffer) :
    (processWrite P ambient t origin connection offset buffer).1 = t ↔
      ∀ p, readPacket P.inflate offset buffer = .packet p → Introduced t p := by
  unfold processWrite
  rcases h with hr | ⟨p, hr, hp, hm⟩
  · rw [hr]
    exact ⟨fun _ p hp => (by cases hp), fun _ => rfl⟩
  · rw [hr]
    simp only [dispatch_rejected hp hm, ReadOutcome.packet.injEq, forall_eq']
    rw [← entered_eq_self_iff]
    constructor
    · intro h
      exact congrArg Tracker.peers h
    · intro h
      rw [h]

def emptyMessage : Bytes :=
  [1, 4, 3, 0, 0, 0, 0, 0, 0, 0, 9, 0, 0, 0, 0, 0, 0, 0, 0, 0, 0, 7]

theorem readPacket_emptyMessage : readPacket Platform.bare.inflate 0 emptyMessage = .packet
    { type := 4, ttl := 3, timestampMs := 9, packetFlags := 0, payloadLength := 0, sender := 7,
      recipient := 0, payload := [], signature := [] } := by
  decide +kernel

theorem empty_message_unchanged :
    let t : Tracker := { announceAddr := 0, peers := OrdMap.empty.insert 7 { id := 7 } }
    NotAccepted .bare t 0 emptyMessage ∧
      (processWrite .bare .idle t (.entry 3) {} 0 emptyMessage).1 = t := by
  intro t
  have h : NotAccepted .bare t 0 emptyMessage :=
    .inr ⟨_, readPacket_emptyMessage, rfl, by decide +kernel⟩
  refine ⟨h, (rejected_unchanged_iff .bare .idle t (.entry 3) {} 0 emptyMessage h).mpr fun p hp =>
    ?_⟩
  cases readPacket_emptyMessage.symm.trans hp
  refine ⟨by decide +kernel, fun peerId hpeer => ?_⟩
  have hnone : namedPeer (Message.new 3 9 0 7 0 []) [] = none := rfl
  cases hnone.symm.trans hpeer

/-- The sender is in the table although its message is not accepted. -/
theorem empty_message_enters_sender :
    let t : Tracker := { announceAddr := 0 }
    NotAccepted .bare t 0 emptyMessage ∧ t.peers.keys = [] ∧
      (processWrite .bare .idle t (.entry 3) {} 0 emptyMessage).1.peers.keys = [7] ∧
      (processWrite .bare .idle t (.entry 3) {} 0 emptyMessage).1 ≠ t := by
  intro t
  have hkeys : (processWrite .bare .idle t (.entry 3) {} 0 emptyMessage).1.peers.keys = [7] := by
    decide +kernel
  refine ⟨.inr ⟨_, readPacket_emptyMessage, rfl, by decide +kernel⟩, rfl, hkeys, fun h => ?_⟩
  rw [h] at hkeys
  cases hkeys

end BitchatRepeater.ProtocolProcessor
