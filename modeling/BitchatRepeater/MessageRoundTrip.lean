import BitchatRepeater.EventLaws
import BitchatRepeater.MessageCodec

/-!
# Messages written and read again

`writeMessagePayload` and `processMessage` agree on every message that is not
encrypted and fits the length prefixes, whatever flags it has. Fields that no
flag shows are not written and may be of any length.
-/

namespace BitchatRepeater

open Lib Tracker ProtocolProcessor BinaryWriter

variable {peers ps : Peers} {m m' : Message}

/-- What the length prefixes can describe, and a sender peer where one is flagged. -/
structure Message.Writable (peers : Peers) (m : Message) : Prop where
  id : m.messageId.length ≤ 255
  sender : m.senderNickname.length ≤ 255
  content : m.content.length ≤ 65535
  originalSender : m.hasOriginalSender → m.originalSenderNickname.length ≤ 255
  recipient : m.hasRecipientNickname → m.recipientNickname.length ≤ 255
  senderPeer : m.hasSenderPeerID → ∃ id, ProtocolWriter.senderPeerId peers m = some id
  mentions : m.hasMentions → m.mentions.length ≤ 255
  mention : m.hasMentions → ∀ s ∈ m.mentions, s.length ≤ 255
  channel : m.hasChannel → m.channel.length ≤ 255

/-- `m'`, with its sender peer in `ps`, says what `m` says with its in `peers`. -/
structure SaysTheSame (peers : Peers) (m : Message) (ps : Peers) (m' : Message) : Prop where
  flags : m'.messageFlags = m.messageFlags
  timestamp : m'.messageTimestamp = m.messageTimestamp
  id : m'.messageId = m.messageId
  sender : m'.senderNickname = m.senderNickname
  content : m'.content = m.content
  originalSender : m.hasOriginalSender → m'.originalSenderNickname = m.originalSenderNickname
  recipient : m.hasRecipientNickname → m'.recipientNickname = m.recipientNickname
  senderPeer : m.hasSenderPeerID →
    ProtocolWriter.senderPeerId ps m' = ProtocolWriter.senderPeerId peers m
  mentions : m.hasMentions → m'.mentions = m.mentions
  channel : m.hasChannel → m'.channel = m.channel

-- ---------------------------------------------------------------------------
-- Fields that do not show
-- ---------------------------------------------------------------------------

/-- The message without what its flags hide. -/
def Message.shown (m : Message) : Message := { m with
  originalSenderNickname := flagged m.hasOriginalSender m.originalSenderNickname
  recipientNickname := flagged m.hasRecipientNickname m.recipientNickname
  mentions := if m.hasMentions then m.mentions else []
  channel := flagged m.hasChannel m.channel }

theorem writeField_hidden (flag : Bool) (s : Bytes) :
    (if flag then writeField (flagged flag s) else []) = if flag then writeField s else [] := by
  cases flag <;> rfl

theorem writeMentions_hidden (flag : Bool) (ms : List Bytes) :
    (if flag then ProtocolWriter.writeMentions (if flag then ms else []) else []) =
      if flag then ProtocolWriter.writeMentions ms else [] := by
  cases flag <;> rfl

theorem writeMessagePayload_shown (peers : Peers) (m : Message) :
    ProtocolWriter.writeMessagePayload peers m.shown =
    ProtocolWriter.writeMessagePayload peers m := by
  have hpeer : ProtocolWriter.writeSenderPeer peers m.shown =
      ProtocolWriter.writeSenderPeer peers m := rfl
  rw [ProtocolWriter.writeMessagePayload, ProtocolWriter.writeMessagePayload, hpeer]
  congr 1
  funext senderPeer
  have h₁ := writeField_hidden m.hasOriginalSender m.originalSenderNickname
  have h₂ := writeField_hidden m.hasRecipientNickname m.recipientNickname
  have h₃ := writeMentions_hidden m.hasMentions m.mentions
  have h₄ := writeField_hidden m.hasChannel m.channel
  rw [← h₁, ← h₂, ← h₃, ← h₄]
  rfl

theorem length_flagged_lt {flag : Bool} (h : flag → s.length ≤ 255) :
    (flagged flag s).length < 256 := by
  cases flag with
  | true => exact Nat.lt_succ_of_le (h rfl)
  | false => exact Nat.zero_lt_succ 255

theorem Message.Writable.sound_shown (h : m.Writable peers) (he : ¬ m.isEncrypted) :
    m.shown.Sound where
  id := Nat.lt_succ_of_le h.id
  sender := Nat.lt_succ_of_le h.sender
  content := Nat.lt_succ_of_le h.content
  encrypted he' := absurd he' he
  originalSender := length_flagged_lt h.originalSender
  recipient := length_flagged_lt h.recipient
  mention s hs := by
    simp only [Message.shown] at hs
    split at hs
    next hf => exact Nat.lt_succ_of_le (h.mention hf s hs)
    next => cases hs
  mentions := by
    simp only [Message.shown]
    split
    next hf => exact Nat.lt_succ_of_le (h.mentions hf)
    next => exact Nat.zero_lt_succ 255
  channel := length_flagged_lt h.channel

-- ---------------------------------------------------------------------------
-- The round trip
-- ---------------------------------------------------------------------------

theorem Message.Writable.exists_id (h : m.Writable peers) :
    ∃ id, m.hasSenderPeerID → ProtocolWriter.senderPeerId peers m = some id := by
  by_cases hf : m.hasSenderPeerID
  · obtain ⟨id, hid⟩ := h.senderPeer hf
    exact ⟨id, fun _ => hid⟩
  · exact ⟨0, fun h => absurd h hf⟩

theorem Message.Writable.written {id : UInt64} (h : m.Writable peers) (he : ¬ m.isEncrypted)
    (hid : m.hasSenderPeerID → ProtocolWriter.senderPeerId peers m = some id) :
    ProtocolWriter.writeMessagePayload peers m =
      some (m.shown.toWire (h.sound_shown he) (peerText id)).encode := by
  rw [← writeMessagePayload_shown]
  exact writeMessagePayload_eq _ _ (writeSenderPeer_eq hid)

theorem senderPeerId_toMessage (w : WireMessage) (id : UInt64) (hw : w.senderPeer = peerText id)
    (hf : hasFlag w.flags 0x10) (hk : PeersKeyed peers) (m : Message) :
    ProtocolWriter.senderPeerId (w.learnPeer peers) (w.toMessage m) = some id := by
  have hn : w.namesPeer = true := by simp [WireMessage.namesPeer, hf, hw, peerText]
  have hid : hexPeerId 0 56 w.senderPeer.val = id := by
    rw [hw]
    exact hexPeerId_writeUint64Hex16 id
  rw [ProtocolWriter.senderPeerId, w.senderPeer_toMessage, WireMessage.learnPeer, hn,
    if_pos rfl, if_pos rfl, hid]
  exact get?_checkSenderInPeers hk id

theorem saysTheSame_toMessage {id : UInt64} (h : m.shown.Sound) (he : ¬ m.isEncrypted)
    (hid : m.hasSenderPeerID → ProtocolWriter.senderPeerId peers m = some id) (hk : PeersKeyed ps)
    (p : Incoming) :
    SaysTheSame peers m ((m.shown.toWire h (peerText id)).learnPeer ps)
      ((m.shown.toWire h (peerText id)).toMessage p.message) := by
  generalize hw : m.shown.toWire h (peerText id) = w
  have hflags : w.flags = m.messageFlags := by rw [← hw]; rfl
  have hshown (flag : Message → Bool) (mask : UInt8) (hm : flag m = hasFlag m.messageFlags mask)
      (hf : flag m) : hasFlag w.flags mask = true := by rw [hflags, ← hm, hf]
  constructor
  · rw [w.flags_toMessage, hflags]
  · rw [w.timestamp_toMessage, ← hw]
    rfl
  · rw [w.id_toMessage, ← hw]
    rfl
  · rw [w.sender_toMessage, ← hw]
    rfl
  · have hplain : ¬ hasFlag w.flags 0x80 := by rw [hflags]; exact he
    rw [w.content_toMessage, if_neg hplain, ← hw]
    rfl
  · intro hf
    rw [w.originalSender_toMessage, if_pos (hshown Message.hasOriginalSender 0x04 rfl hf), ← hw]
    exact if_pos hf
  · intro hf
    rw [w.recipient_toMessage, if_pos (hshown Message.hasRecipientNickname 0x08 rfl hf), ← hw]
    exact if_pos hf
  · intro hf
    have hnamed := hshown Message.hasSenderPeerID 0x10 rfl hf
    rw [hid hf, senderPeerId_toMessage w id (by rw [← hw]; rfl) hnamed hk]
  · intro hf
    rw [w.mentions_toMessage, if_pos (hshown Message.hasMentions 0x20 rfl hf), ← hw]
    simpa [Message.toWire, Message.shown, hf] using p.fresh_message.mentions
  · intro hf
    rw [w.channel_toMessage, if_pos (hshown Message.hasChannel 0x40 rfl hf), ← hw]
    exact if_pos hf

/-- Every message that is not encrypted and that the length prefixes can describe
is written, and if the payload fits the reader's size, it is accepted by a
repeater in any state and read as the same message. -/
theorem processMessage_writeMessagePayload (P : Platform) (addr : Addr) (is : List Input)
    (p : Incoming) (peers : Peers) (m : Message) (hm : m.Writable peers) (he : ¬ m.isEncrypted) :
    ∃ payload, ProtocolWriter.writeMessagePayload peers m = some payload ∧
      (payload.length ≤ 65535 → ∃ ps m',
        processMessage (run (step P) { announceAddr := addr } is).1.peers p.message payload =
        (ps, some m') ∧
          SaysTheSame peers m ps m') := by
  obtain ⟨id, hid⟩ := hm.exists_id
  refine ⟨_, hm.written he hid, fun hfit => ?_⟩
  have hread := processMessage_encode _ (Nat.lt_succ_of_le hfit)
    (run (step P) { announceAddr := addr } is).1.peers p.message
  exact ⟨_, _, hread, saysTheSame_toMessage (hm.sound_shown he) he hid (peersKeyed_run P addr is) p⟩

def greeting : Message :=
  { plainHeader.message with
    messageFlags := 0x74, messageTimestamp := 5000,
    messageId := [0x31], senderNickname := [0x61, 0x62]
    originalSenderNickname := [0x63], content := [0x68, 0x69], senderPeer := some 0xABCDEF
    mentions := [[0x64], []], channel := [0x23] }

def greeters : Peers := checkSenderInPeers .empty 0xABCDEF

def greetingBytes : Bytes :=
  [0x74] ++ split64 5000 ++ [1, 0x31, 2, 0x61, 0x62, 0, 2, 0x68, 0x69, 1, 0x63] ++
    0x10 :: writeUint64Hex16 0xABCDEF ++ [2, 1, 0x64, 0, 1, 0x23]

theorem greeting_read_again :
    ProtocolWriter.writeMessagePayload greeters greeting = some greetingBytes ∧
      ∃ ps m', processMessage .empty plainHeader.message greetingBytes = (ps, some m') ∧
        SaysTheSame greeters greeting ps m' := by
  have hwritten : ProtocolWriter.writeMessagePayload greeters greeting = some greetingBytes := by
    decide +kernel
  have hm : greeting.Writable greeters :=
    ⟨by decide, by decide, by decide, by decide, by decide,
      fun _ => ⟨0xABCDEF, by decide +kernel⟩, by decide,
      by decide, by decide⟩
  obtain ⟨payload, hw, h⟩ := processMessage_writeMessagePayload .bare 0 [] plainHeader
    greeters greeting hm
    (by decide)
  rw [hwritten] at hw
  cases hw
  exact ⟨hwritten, h (by decide)⟩

end BitchatRepeater
