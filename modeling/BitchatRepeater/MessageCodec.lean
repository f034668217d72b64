import BitchatRepeater.HexPeer
import BitchatRepeater.ProcessorLaws
import BitchatRepeater.ProtocolWriter

/-!
# Message payloads on the wire

`WireMessage` says what a message payload looks like, independently of the two
functions that read and write it. Reading an encoded payload yields the message
it encodes (`processMessage_encode`); what is written for a message that was
read is the encoding of that message (`writeMessagePayload_eq`), with two
exceptions: an encrypted message is written without its content, and a sender
peer that was not named by 16 characters is a null pointer.
-/

namespace BitchatRepeater

open Lib Tracker ProtocolProcessor BinaryWriter

-- ---------------------------------------------------------------------------
-- The format
-- ---------------------------------------------------------------------------

abbrev Short := { s : Bytes // s.length < 256 }

def Short.encode (s : Short) : Bytes := UInt8.ofNat s.val.length :: s.val

/-- The parts of a message payload. Those an unset flag leaves out do not show. -/
structure WireMessage where
  flags : UInt8
  timestamp : UInt64
  id : Short
  sender : Short
  content : { c : Bytes // c.length < 2 ^ 16 }
  originalSender : Short
  recipient : Short
  senderPeer : Short
  mentions : { ms : List Short // ms.length < 256 }
  channel : Short

def flagged (flag : Bool) (s : Bytes) : Bytes := if flag then s else []

namespace WireMessage

def encodeStart (w : WireMessage) : Bytes :=
  w.flags :: split64 w.timestamp ++ w.id.encode ++ w.sender.encode ++
    split16 (UInt16.ofNat w.content.val.length) ++ w.content.val

def encodeMentions (w : WireMessage) : Bytes :=
  UInt8.ofNat w.mentions.val.length :: w.mentions.val.flatMap Short.encode

def encode (w : WireMessage) : Bytes :=
  w.encodeStart ++ flagged (hasFlag w.flags 0x04) w.originalSender.encode ++
    flagged (hasFlag w.flags 0x08) w.recipient.encode ++
    flagged (hasFlag w.flags 0x10) w.senderPeer.encode ++
    flagged (hasFlag w.flags 0x20) w.encodeMentions ++
    flagged (hasFlag w.flags 0x40) w.channel.encode

def startMessage (w : WireMessage) (m : Message) : Message :=
  let m := { m with
    messageFlags := w.flags, messageTimestamp := w.timestamp, messageId := w.id.val
    senderNickname := w.sender.val }
  if hasFlag w.flags 0x80 then { m with encryptedContent := w.content.val }
  else { m with content := w.content.val }

def withNicknames (w : WireMessage) (m : Message) : Message :=
  let m := if hasFlag w.flags 0x04 then { m with originalSenderNickname := w.originalSender.val }
    else m
  if hasFlag w.flags 0x08 then { m with recipientNickname := w.recipient.val } else m

def namesPeer (w : WireMessage) : Bool := hasFlag w.flags 0x10 && w.senderPeer.val.length == 16

def withSenderPeer (w : WireMessage) (m : Message) : Message :=
  if w.namesPeer then { m with senderPeer := some (hexPeerId 0 56 w.senderPeer.val) } else m

def withMentions (w : WireMessage) (m : Message) : Message :=
  if hasFlag w.flags 0x20 then { m with mentions := m.mentions ++ w.mentions.val.map Subtype.val }
  else m

def withChannel (w : WireMessage) (m : Message) : Message :=
  if hasFlag w.flags 0x40 then { m with channel := w.channel.val } else m

def toMessage (w : WireMessage) (m : Message) : Message :=
  w.withChannel (w.withMentions (w.withSenderPeer (w.withNicknames (w.startMessage m))))

def learnPeer (w : WireMessage) (peers : Peers) : Peers :=
  if w.namesPeer then checkSenderInPeers peers (hexPeerId 0 56 w.senderPeer.val) else peers

-- ---------------------------------------------------------------------------
-- Flags survive
-- ---------------------------------------------------------------------------

@[simp] theorem flags_startMessage (w : WireMessage) (m : Message) :
    (w.startMessage m).messageFlags = w.flags := by
  unfold startMessage
  simp only
  split <;> rfl

@[simp] theorem flags_withNicknames (w : WireMessage) (m : Message) :
    (w.withNicknames m).messageFlags = m.messageFlags := by
  unfold withNicknames
  simp only
  split <;> split <;> rfl

@[simp] theorem flags_withSenderPeer (w : WireMessage) (m : Message) :
    (w.withSenderPeer m).messageFlags = m.messageFlags := by
  unfold withSenderPeer
  split <;> rfl

@[simp] theorem flags_withMentions (w : WireMessage) (m : Message) :
    (w.withMentions m).messageFlags = m.messageFlags := by
  unfold withMentions
  split <;> rfl

end WireMessage

-- ---------------------------------------------------------------------------
-- Reading
-- ---------------------------------------------------------------------------

section Reading
variable {r : BinaryReader} {rest : Bytes} {m : Message}

theorem readField_at (s : Short) (h : r.At (s.encode ++ rest)) :
    ∃ r', r.readField = some (s.val, r') ∧ r'.At rest :=
  BinaryReader.At.readField s.2 h

theorem readFlagged_at (flag : Message → Bool) (s : Short) (hf : flag m = b)
    (h : r.At (flagged b s.encode ++ rest)) :
    ∃ r', (∀ store, readFlagged flag store (m, r) = some (if b then store m s.val else m, r')) ∧
      r'.At rest := by
  cases b with
  | true =>
    obtain ⟨r', hr, ha⟩ := readField_at s h
    exact ⟨r', fun store => by simp [readFlagged, hf, hr], ha⟩
  | false => exact ⟨r, fun store => by simp [readFlagged, hf], h⟩

theorem readMessageStart_at (w : WireMessage) (h : r.At (w.encodeStart ++ rest)) :
    ∃ r', readMessageStart m r = some (w.startMessage m, r') ∧ r'.At rest := by
  simp only [WireMessage.encodeStart, List.append_assoc, List.cons_append] at h
  obtain ⟨r₁, h₁, a₁⟩ := h.readUint8
  obtain ⟨r₂, h₂, a₂⟩ := a₁.readUint64
  obtain ⟨r₃, h₃, a₃⟩ := readField_at w.id a₂
  obtain ⟨r₄, h₄, a₄⟩ := readField_at w.sender a₃
  obtain ⟨r₅, h₅, a₅⟩ := a₄.readUint16
  obtain ⟨r₆, h₆, a₆⟩ := a₅.readData
  have hlen : (UInt16.ofNat w.content.val.length).toNat = w.content.val.length := by
    simpa using Nat.mod_eq_of_lt w.content.2
  refine ⟨r₆, ?_, a₆⟩
  simp only [readMessageStart, h₁, h₂, h₃, h₄, h₅, hlen, h₆, Option.bind_eq_bind, Option.bind_some,
    WireMessage.startMessage, Message.isEncrypted]
  split <;> rfl

theorem readMentionList_at (ms : List Short) (h : r.At (ms.flatMap Short.encode ++ rest)) :
    ∃ r', readMentionList ms.length (m, r) =
      some ({ m with mentions := m.mentions ++ ms.map Subtype.val }, r') ∧ r'.At rest := by
  induction ms generalizing m r with
  | nil => exact ⟨r, by simp [readMentionList], h⟩
  | cons s ms ih =>
    rw [List.flatMap_cons, List.append_assoc] at h
    obtain ⟨r₁, h₁, a₁⟩ := readField_at s h
    obtain ⟨r₂, h₂, a₂⟩ := ih (m := { m with mentions := m.mentions ++ [s.val] }) a₁
    refine ⟨r₂, ?_, a₂⟩
    simp only [List.length_cons, readMentionList, h₁, Option.bind_eq_bind, Option.bind_some, h₂]
    simp

theorem readMentions_at (w : WireMessage) (hm : m.messageFlags = w.flags)
    (h : r.At (flagged (hasFlag w.flags 0x20) w.encodeMentions ++ rest)) :
    ∃ r', readMentions (m, r) = some (w.withMentions m, r') ∧ r'.At rest := by
  by_cases hf : hasFlag w.flags 0x20
  · simp only [flagged, hf, if_true, WireMessage.encodeMentions, List.cons_append] at h
    obtain ⟨r₁, h₁, a₁⟩ := h.readUint8
    obtain ⟨r₂, h₂, a₂⟩ := readMentionList_at (m := m) w.mentions.val a₁
    have hlen : (UInt8.ofNat w.mentions.val.length).toNat = w.mentions.val.length := by
      simpa using Nat.mod_eq_of_lt w.mentions.2
    refine ⟨r₂, ?_, a₂⟩
    simp only [readMentions, Message.hasMentions, hm, hf, if_true, h₁, hlen, h₂,
      WireMessage.withMentions]
  · simp only [flagged, hf, Bool.false_eq_true, if_false, List.nil_append] at h
    refine ⟨r, ?_, h⟩
    simp only [readMentions, Message.hasMentions, hm, hf, Bool.false_eq_true, if_false,
      WireMessage.withMentions]

theorem readSenderPeer_at (w : WireMessage) (hm : m.messageFlags = w.flags) (peers : Peers)
    (h : r.At (flagged (hasFlag w.flags 0x10) w.senderPeer.encode ++ rest)) :
    ∃ r', readSenderPeer peers m r = some (w.learnPeer peers, w.withSenderPeer m, r') ∧
      r'.At rest := by
  by_cases hf : hasFlag w.flags 0x10
  · simp only [flagged, hf, if_true] at h
    obtain ⟨r', hr, ha⟩ := readField_at w.senderPeer h
    refine ⟨r', ?_, ha⟩
    simp only [readSenderPeer, Message.hasSenderPeerID, hm, hf, if_true, hr, Option.map_some,
      WireMessage.learnPeer, WireMessage.withSenderPeer, WireMessage.namesPeer,
      Bool.true_and, beq_iff_eq]
    split <;> rfl
  · simp only [flagged, hf, Bool.false_eq_true, if_false, List.nil_append] at h
    refine ⟨r, ?_, h⟩
    simp only [readSenderPeer, Message.hasSenderPeerID, hm, hf, Bool.false_eq_true, if_false,
      WireMessage.learnPeer, WireMessage.withSenderPeer, WireMessage.namesPeer, Bool.false_and]

theorem readNicknames_at (w : WireMessage) (hm : m.messageFlags = w.flags)
    (h : r.At (flagged (hasFlag w.flags 0x04) w.originalSender.encode ++
      (flagged (hasFlag w.flags 0x08) w.recipient.encode ++ rest))) :
    ∃ r', readNicknames (m, r) = some (w.withNicknames m, r') ∧ r'.At rest := by
  obtain ⟨r₁, h₁, a₁⟩ := readFlagged_at Message.hasOriginalSender w.originalSender
    (by rw [Message.hasOriginalSender, hm]) h
  let m₁ := if hasFlag w.flags 0x04 then { m with originalSenderNickname := w.originalSender.val }
    else m
  have hm₁ : m₁.messageFlags = w.flags := by
    simp only [m₁]
    split <;> exact hm
  obtain ⟨r₂, h₂, a₂⟩ := readFlagged_at Message.hasRecipientNickname w.recipient
    (by rw [Message.hasRecipientNickname, hm₁]) a₁
  refine ⟨r₂, ?_, a₂⟩
  simp only [readNicknames, h₁, Option.bind_eq_bind, Option.bind_some]
  exact h₂ _

theorem readChannel_at (w : WireMessage) (hm : m.messageFlags = w.flags)
    (h : r.At (flagged (hasFlag w.flags 0x40) w.channel.encode ++ rest)) :
    ∃ r', readChannel (m, r) = some (w.withChannel m, r') ∧ r'.At rest := by
  obtain ⟨r', h', a'⟩ := readFlagged_at Message.hasChannel w.channel
    (by rw [Message.hasChannel, hm]) h
  exact ⟨r', h' _, a'⟩

end Reading

theorem WireMessage.length_encode (w : WireMessage) : 13 ≤ w.encode.length := by
  simp only [encode, encodeStart, Short.encode, List.length_append, List.length_cons,
    length_split64, length_split16]
  omega

theorem processMessage_encode_append (w : WireMessage) (rest : Bytes)
    (h : (w.encode ++ rest).length < 2 ^ 16) (peers : Peers) (m : Message) :
    processMessage peers m (w.encode ++ rest) = (w.learnPeer peers, some (w.toMessage m)) := by
  have a₀ : (BinaryReader.new 0 (w.encode ++ rest)).At (w.encode ++ rest) := BinaryReader.at_new h
  have hlong : ¬ (w.encode ++ rest).length % 2 ^ 16 < 13 := by
    rw [Nat.mod_eq_of_lt h, List.length_append, Nat.not_lt]
    exact w.length_encode.trans (Nat.le_add_right _ _)
  rw [processMessage, if_neg hlong]
  generalize BinaryReader.new 0 (w.encode ++ rest) = r at a₀ ⊢
  simp only [WireMessage.encode, List.append_assoc] at a₀
  have hf : (w.withNicknames (w.startMessage m)).messageFlags = w.flags := by simp
  have hf' := (w.flags_withSenderPeer (w.withNicknames (w.startMessage m))).trans hf
  obtain ⟨r₁, h₁, a₁⟩ := readMessageStart_at (m := m) w a₀
  obtain ⟨r₂, h₂, a₂⟩ := readNicknames_at w (w.flags_startMessage m) a₁
  obtain ⟨r₃, h₃, a₃⟩ := readSenderPeer_at w hf peers a₂
  obtain ⟨r₄, h₄, a₄⟩ := readMentions_at w hf' a₃
  obtain ⟨r₅, h₅, -⟩ := readChannel_at w ((w.flags_withMentions _).trans hf') a₄
  simp only [h₁, Option.bind_eq_bind, Option.bind_some, h₂, h₃, h₄, h₅, Option.map_some]
  rfl

theorem processMessage_encode (w : WireMessage) (h : w.encode.length < 2 ^ 16) (peers : Peers)
    (m : Message) : processMessage peers m w.encode =
    (w.learnPeer peers, some (w.toMessage m)) := by
  rw [← List.append_nil w.encode] at h ⊢
  exact processMessage_encode_append w [] h peers m

-- ---------------------------------------------------------------------------
-- The message read
-- ---------------------------------------------------------------------------

/-- What holds of a message that was read: its parts are as long as the format
allows, and its content is in one place only. -/
structure Message.Sound (m : Message) : Prop where
  id : m.messageId.length < 256
  sender : m.senderNickname.length < 256
  content : m.content.length < 2 ^ 16
  encrypted : m.isEncrypted → m.content = []
  originalSender : m.originalSenderNickname.length < 256
  recipient : m.recipientNickname.length < 256
  mention : ∀ s ∈ m.mentions, s.length < 256
  mentions : m.mentions.length < 256
  channel : m.channel.length < 256

/-- A message object as `processWrite` makes it. -/
structure Message.Fresh (m : Message) : Prop where
  content : m.content = []
  encryptedContent : m.encryptedContent = []
  senderPeer : m.senderPeer = none
  mentions : m.mentions = []
  originalSender : m.originalSenderNickname = []
  recipient : m.recipientNickname = []
  channel : m.channel = []

theorem ProtocolProcessor.Incoming.fresh_message (p : Incoming) : p.message.Fresh :=
  ⟨rfl, rfl, rfl, rfl, rfl, rfl, rfl⟩

theorem length_readData {r : BinaryReader} (h : r.readData n = some (s, r')) : s.length ≤ n := by
  unfold BinaryReader.readData at h
  split at h
  · cases h
  · obtain ⟨rfl, -⟩ := Prod.mk.inj (Option.some.inj h)
    simp

theorem length_readField {r : BinaryReader} (h : r.readField = some (s, r')) : s.length < 256 :=
  lt_of_le_of_lt (length_readData h) r.readUint8.1.toNat_lt

section Sound
variable {mr mr' : Message × BinaryReader} {m m' : Message} {r : BinaryReader} {peers ps : Peers}

structure Message.Begun (m : Message) : Prop extends m.Sound where
  noMentions : m.mentions = []
  noSenderPeer : m.senderPeer = none

theorem readMessageStart_begun (hm : m.Fresh) (h : readMessageStart m r = some mr') :
    mr'.1.Begun := by
  simp only [readMessageStart, Option.bind_eq_bind, Option.bind_eq_some_iff] at h
  obtain ⟨id, hid, sender, hsender, content, hcontent, h⟩ := h
  have hlen := lt_of_le_of_lt (length_readData hcontent) (UInt16.toNat_lt _)
  have hid := length_readField hid
  have hsender := length_readField hsender
  split at h
  next he =>
    cases h
    exact ⟨⟨hid, hsender, by simp [hm.content], fun _ => hm.content, by simp [hm.originalSender],
      by simp [hm.recipient], by simp [hm.mentions], by simp [hm.mentions], by simp [hm.channel]⟩,
      hm.mentions, hm.senderPeer⟩
  next he =>
    cases h
    exact ⟨⟨hid, hsender, hlen, fun h => absurd h he, by simp [hm.originalSender],
      by simp [hm.recipient], by simp [hm.mentions], by simp [hm.mentions], by simp [hm.channel]⟩,
      hm.mentions, hm.senderPeer⟩

theorem readFlagged_keeps (ok : Message → Prop) {store : Message → Bytes → Message}
    (h : readFlagged flag store mr = some mr') (hm : ok mr.1)
    (hs : ∀ m s, ok m → s.length < 256 → ok (store m s)) : ok mr'.1 := by
  obtain ⟨m, r⟩ := mr
  simp only [readFlagged] at h
  split at h
  · obtain ⟨field, hf, rfl⟩ := Option.map_eq_some_iff.mp h
    exact hs m field.1 hm (length_readField hf)
  · cases h
    exact hm

theorem readNicknames_begun (hm : mr.1.Begun) (h : readNicknames mr = some mr') : mr'.1.Begun := by
  simp only [readNicknames, Option.bind_eq_bind, Option.bind_eq_some_iff] at h
  obtain ⟨mr₁, h₁, h₂⟩ := h
  have hm₁ := readFlagged_keeps Message.Begun h₁ hm fun m s h hs => { h with originalSender := hs }
  exact readFlagged_keeps Message.Begun h₂ hm₁ fun m s h hs => { h with recipient := hs }

def KnowsSender (peers : Peers) (m : Message) : Prop :=
  ∀ id, m.senderPeer = some id → (peers.get? id).isSome

theorem readSenderPeer_sound (hm : m.Begun) (h : readSenderPeer peers m r = some (ps, mr')) :
    mr'.1.Sound ∧ mr'.1.mentions = [] ∧ KnowsSender ps mr'.1 := by
  have hno : KnowsSender peers m := fun id hid => by rw [hm.noSenderPeer] at hid; cases hid
  unfold readSenderPeer at h
  split at h
  · obtain ⟨⟨text, r'⟩, -, he⟩ := Option.map_eq_some_iff.mp h
    simp only at he
    split at he <;> cases he
    · refine ⟨{ hm with }, hm.noMentions, ?_⟩
      rintro id ⟨⟩
      exact contains_checkSenderInPeers peers _
    · exact ⟨hm.toSound, hm.noMentions, hno⟩
  · cases h
    exact ⟨hm.toSound, hm.noMentions, hno⟩

theorem readMentionList_sound (h : readMentionList n mr = some mr') (hm : mr.1.Sound)
    (hn : mr.1.mentions.length + n < 256) :
    mr'.1.Sound ∧ mr'.1.senderPeer = mr.1.senderPeer := by
  induction n generalizing mr with
  | zero =>
    cases h
    exact ⟨hm, rfl⟩
  | succ n ih =>
    simp only [readMentionList, Option.bind_eq_bind, Option.bind_eq_some_iff] at h
    obtain ⟨⟨mention, r'⟩, hf, h⟩ := h
    have hmention := length_readField hf
    have hlen : (mr.1.mentions ++ [mention]).length + n < 256 := by
      simp only [List.length_append, List.length_singleton]
      omega
    have hsound : Message.Sound { mr.1 with mentions := mr.1.mentions ++ [mention] } := by
      refine { hm with mention := fun s hs => ?_,
                       mentions := lt_of_le_of_lt (Nat.le_add_right _ n) hlen }
      rcases List.mem_append.mp hs with hs | hs
      · exact hm.mention s hs
      · rwa [List.mem_singleton.mp hs]
    have hrest := ih h hsound hlen
    exact hrest

theorem readMentions_sound (hm : mr.1.Sound) (hn : mr.1.mentions = [])
    (h : readMentions mr = some mr') :
    mr'.1.Sound ∧ mr'.1.senderPeer = mr.1.senderPeer := by
  obtain ⟨m, r⟩ := mr
  simp only [readMentions] at h
  split at h
  · have hcount : m.mentions.length + r.readUint8.1.toNat < 256 := by
      simpa [show m.mentions = [] from hn] using r.readUint8.1.toNat_lt
    have hlist := readMentionList_sound h hm hcount
    exact hlist
  · cases h
    exact ⟨hm, rfl⟩

/-- A message that was read fits its format, and its sender peer is known. -/
theorem processMessage_sound (hm : m.Fresh) (h : processMessage peers m payload = (ps, some m')) :
    m'.Sound ∧ KnowsSender ps m' := by
  unfold processMessage at h
  split at h
  · cases h
  · split at h
    · cases h
    next m₁ r₁ h₁ =>
      simp only [Option.bind_eq_bind, Option.bind_eq_some_iff] at h₁
      obtain ⟨mr, hstart, hnick⟩ := h₁
      have hbegun := readNicknames_begun (readMessageStart_begun hm hstart) hnick
      split at h
      · cases h
      next ps' m₂ h₂ =>
        obtain ⟨rfl, hmap⟩ := Prod.mk.inj h
        obtain ⟨mr₄, hr, rfl⟩ := Option.map_eq_some_iff.mp hmap
        simp only [Option.bind_eq_bind, Option.bind_eq_some_iff] at hr
        obtain ⟨mr₃, h₃, h₄⟩ := hr
        obtain ⟨hs, hn, hknows⟩ := readSenderPeer_sound hbegun h₂
        obtain ⟨hs₃, hp₃⟩ := readMentions_sound hs hn h₃
        have hlast := readFlagged_keeps (fun m => m.Sound ∧
          m.senderPeer = mr₃.1.senderPeer) h₄ ⟨hs₃, rfl⟩
          fun m s h hs => ⟨{ h.1 with channel := hs }, h.2⟩
        exact ⟨hlast.1, fun id hid => hknows id (by rw [← hp₃, ← hlast.2, hid])⟩

end Sound

-- ---------------------------------------------------------------------------
-- Writing
-- ---------------------------------------------------------------------------

def Message.toWire (m : Message) (h : m.Sound) (senderPeer : Short) : WireMessage where
  flags := m.messageFlags
  timestamp := m.messageTimestamp
  id := ⟨m.messageId, h.id⟩
  sender := ⟨m.senderNickname, h.sender⟩
  content := ⟨m.content, h.content⟩
  originalSender := ⟨m.originalSenderNickname, h.originalSender⟩
  recipient := ⟨m.recipientNickname, h.recipient⟩
  senderPeer := senderPeer
  mentions := ⟨m.mentions.attachWith _ h.mention, by simpa using h.mentions⟩
  channel := ⟨m.channel, h.channel⟩

def peerText (id : UInt64) : Short := ⟨writeUint64Hex16 id, by simp⟩

theorem writeField_short (s : Short) : writeField s.val = s.encode :=
  writeField_eq s.2

theorem writeContent_eq (h : c.length < 2 ^ 16) :
    ProtocolWriter.writeContent c = split16 (UInt16.ofNat c.length) ++ c := by
  have hm : min 65535 c.length = c.length := by omega
  simp only [ProtocolWriter.writeContent, hm, writeUint16_eq, writeData_length h]

theorem writeMentions_eq {ms : List Short} (h : ms.length < 256) :
    ProtocolWriter.writeMentions (ms.map Subtype.val) =
      UInt8.ofNat ms.length :: ms.flatMap Short.encode := by
  have hm : min 255 ms.length = ms.length := by omega
  simp only [ProtocolWriter.writeMentions, List.length_map, hm, writeUint8, List.flatMap_map,
    writeField_short]
  rfl

theorem writeMessagePayload_eq {peers : Peers} {m : Message} (h : m.Sound) (senderPeer : Short)
    (hp : ProtocolWriter.writeSenderPeer peers m =
      some (flagged (hasFlag m.messageFlags 0x10) senderPeer.encode)) :
    ProtocolWriter.writeMessagePayload peers m = some (m.toWire h senderPeer).encode := by
  have hms : m.mentions = (m.toWire h senderPeer).mentions.val.map Subtype.val := by
    simp [Message.toWire]
  rw [ProtocolWriter.writeMessagePayload, hp, Option.map_some, hms,
    writeMentions_eq (m.toWire h senderPeer).mentions.2, writeContent_eq h.content,
    writeField_eq h.id, writeField_eq h.sender, writeField_eq h.originalSender,
    writeField_eq h.recipient, writeField_eq h.channel, writeUint64_eq]
  simp only [WireMessage.encode, WireMessage.encodeStart, WireMessage.encodeMentions, flagged,
    Message.hasOriginalSender, Message.hasRecipientNickname, Message.hasMentions,
    Message.hasChannel,
    Message.toWire, Short.encode, writeUint8, List.append_assoc, List.cons_append, List.nil_append]
  rfl

theorem writeSenderPeer_eq {peers : Peers} {m : Message} {id : UInt64}
    (h : m.hasSenderPeerID → ProtocolWriter.senderPeerId peers m = some id) :
    ProtocolWriter.writeSenderPeer peers m =
      some (flagged (hasFlag m.messageFlags 0x10) (peerText id).encode) := by
  unfold ProtocolWriter.writeSenderPeer
  split
  next hf =>
    have hflag : hasFlag m.messageFlags 0x10 = true := hf
    rw [h hf, hflag]
    rfl
  next hf =>
    have hflag : hasFlag m.messageFlags 0x10 = false := (Bool.not_eq_true _).mp hf
    rw [hflag]
    rfl

/-- With its sender peer known, a message is written unless it should name a
sender peer and has none. -/
theorem writeMessagePayload_cases {peers : Peers} {m : Message} (h : m.Sound)
    (hk : KnowsSender peers m) :
    (m.hasSenderPeerID ∧ m.senderPeer = none ∧ ProtocolWriter.writeMessagePayload peers m = none) ∨
    ((m.hasSenderPeerID → m.senderPeer.isSome) ∧
      ∃ id, ProtocolWriter.writeMessagePayload peers m =
      some (m.toWire h (peerText id)).encode) := by
  by_cases hf : m.hasSenderPeerID
  · cases hp : m.senderPeer with
    | none =>
      refine .inl ⟨hf, rfl, ?_⟩
      simp [ProtocolWriter.writeMessagePayload, ProtocolWriter.writeSenderPeer,
        ProtocolWriter.senderPeerId, hf, hp]
    | some id =>
      obtain ⟨peer, hpeer⟩ := Option.isSome_iff_exists.mp (hk id hp)
      refine .inr ⟨fun _ => rfl, peer.id, writeMessagePayload_eq h _
        (writeSenderPeer_eq fun _ => ?_)⟩
      simp [ProtocolWriter.senderPeerId, hp, hpeer]
  · exact .inr ⟨fun h => absurd h hf, 0,
      writeMessagePayload_eq h _ (writeSenderPeer_eq fun h => absurd h hf)⟩

-- ---------------------------------------------------------------------------
-- Canonical payloads
-- ---------------------------------------------------------------------------

namespace WireMessage

/-- A payload the writer would produce: nothing encrypted in it, and a sender
peer in lower-case hex. -/
structure Canonical (w : WireMessage) : Prop where
  content : hasFlag w.flags 0x80 → w.content.val = []
  senderPeer : hasFlag w.flags 0x10 → HexText w.senderPeer.val

variable (w : WireMessage) (m : Message)

@[simp] theorem flags_toMessage : (w.toMessage m).messageFlags = w.flags := by
  simp [toMessage, withChannel, apply_ite Message.messageFlags]

theorem timestamp_toMessage : (w.toMessage m).messageTimestamp = w.timestamp := by
  simp [toMessage, withChannel, withMentions, withSenderPeer, withNicknames, startMessage,
    apply_ite Message.messageTimestamp]

theorem id_toMessage : (w.toMessage m).messageId = w.id.val := by
  simp [toMessage, withChannel, withMentions, withSenderPeer, withNicknames, startMessage,
    apply_ite Message.messageId]

theorem sender_toMessage : (w.toMessage m).senderNickname = w.sender.val := by
  simp [toMessage, withChannel, withMentions, withSenderPeer, withNicknames, startMessage,
    apply_ite Message.senderNickname]

theorem content_toMessage : (w.toMessage m).content =
    if hasFlag w.flags 0x80 then m.content else w.content.val := by
  simp [toMessage, withChannel, withMentions, withSenderPeer, withNicknames, startMessage,
    apply_ite Message.content]

theorem encryptedContent_toMessage : (w.toMessage m).encryptedContent =
    if hasFlag w.flags 0x80 then w.content.val else m.encryptedContent := by
  simp [toMessage, withChannel, withMentions, withSenderPeer, withNicknames, startMessage,
    apply_ite Message.encryptedContent]

theorem originalSender_toMessage : (w.toMessage m).originalSenderNickname =
    if hasFlag w.flags 0x04 then w.originalSender.val else m.originalSenderNickname := by
  simp [toMessage, withChannel, withMentions, withSenderPeer, withNicknames, startMessage,
    apply_ite Message.originalSenderNickname]

theorem recipient_toMessage : (w.toMessage m).recipientNickname =
    if hasFlag w.flags 0x08 then w.recipient.val else m.recipientNickname := by
  simp [toMessage, withChannel, withMentions, withSenderPeer, withNicknames, startMessage,
    apply_ite Message.recipientNickname]

theorem senderPeer_toMessage : (w.toMessage m).senderPeer =
    if w.namesPeer then some (hexPeerId 0 56 w.senderPeer.val) else m.senderPeer := by
  simp [toMessage, withChannel, withMentions, withSenderPeer, withNicknames, startMessage,
    apply_ite Message.senderPeer]

theorem mentions_toMessage : (w.toMessage m).mentions =
    if hasFlag w.flags 0x20 then m.mentions ++ w.mentions.val.map Subtype.val else m.mentions := by
  simp [toMessage, withChannel, withMentions, withSenderPeer, withNicknames, startMessage,
    apply_ite Message.mentions]

theorem channel_toMessage : (w.toMessage m).channel =
    if hasFlag w.flags 0x40 then w.channel.val else m.channel := by
  simp [toMessage, withChannel, withMentions, withSenderPeer, withNicknames, startMessage,
    apply_ite Message.channel]

end WireMessage

theorem writeField_flagged (flag : Bool) (s : Short) (x : Bytes) :
    (if flag then writeField (if flag then s.val else x) else []) = flagged flag s.encode := by
  cases flag with
  | true => exact writeField_short s
  | false => rfl

theorem writeMentions_flagged (flag : Bool) {ms : List Short} (h : ms.length < 256) :
    (if flag then ProtocolWriter.writeMentions (if flag then ms.map Subtype.val else []) else []) =
      flagged flag (UInt8.ofNat ms.length :: ms.flatMap Short.encode) := by
  cases flag with
  | true => exact writeMentions_eq h
  | false => rfl

theorem writeSenderPeer_canonical {w : WireMessage} (hw : w.Canonical) {peers : Peers}
    (hk : PeersKeyed peers) (m : Message) :
    ProtocolWriter.writeSenderPeer (w.learnPeer peers) (w.toMessage m) =
      some (flagged (hasFlag w.flags 0x10) w.senderPeer.encode) := by
  cases hf : hasFlag w.flags 0x10 with
  | false => simp [ProtocolWriter.writeSenderPeer, Message.hasSenderPeerID, hf, flagged]
  | true =>
    have htext := hw.senderPeer hf
    have hn : w.namesPeer = true := by simp [WireMessage.namesPeer, hf, htext.1]
    have hid := get?_checkSenderInPeers hk (hexPeerId 0 56 w.senderPeer.val)
    simp only [ProtocolWriter.writeSenderPeer, Message.hasSenderPeerID,
      WireMessage.flags_toMessage, hf,
      if_true, ProtocolWriter.senderPeerId, w.senderPeer_toMessage, hn, Option.bind_some,
      WireMessage.learnPeer, hid, Option.map_some, writeUint64Hex16_hexPeerId htext, flagged,
      Short.encode, htext.1]
    rfl

theorem writeMessagePayload_canonical {w : WireMessage} (hw : w.Canonical) {peers : Peers}
    (hk : PeersKeyed peers) {m : Message} (hm : m.Fresh) :
    ProtocolWriter.writeMessagePayload (w.learnPeer peers) (w.toMessage m) = some w.encode := by
  have hcontent : (if hasFlag w.flags 0x80 then m.content else w.content.val) = w.content.val := by
    split
    next he => rw [hm.content, hw.content he]
    next => rfl
  rw [ProtocolWriter.writeMessagePayload, writeSenderPeer_canonical hw hk, Option.map_some]
  simp only [Message.hasOriginalSender, Message.hasRecipientNickname, Message.hasMentions,
    Message.hasChannel, w.flags_toMessage, w.timestamp_toMessage, w.id_toMessage,
    w.sender_toMessage,
    w.content_toMessage, hcontent, w.originalSender_toMessage, w.recipient_toMessage,
    w.mentions_toMessage, w.channel_toMessage, hm.mentions, writeField_flagged,
    writeMentions_flagged _ w.mentions.2, writeContent_eq w.content.2, writeField_short,
    writeUint64_eq,
    writeUint8, WireMessage.encode, WireMessage.encodeStart, WireMessage.encodeMentions,
    List.append_assoc, List.cons_append, List.nil_append]

/-- What is written for a message that was read into a fresh object is the
payload it was read from exactly if that is canonical. -/
theorem writeMessagePayload_iff {peers ps : Peers} (hk : PeersKeyed peers) {m₀ m : Message}
    (hm : m₀.Fresh) (hl : payload.length < 2 ^ 16)
    (h : processMessage peers m₀ payload = (ps, some m)) :
    ProtocolWriter.writeMessagePayload ps m = some payload ↔
      ∃ w : WireMessage, w.encode = payload ∧ w.Canonical := by
  obtain ⟨hs, hknows⟩ := processMessage_sound hm h
  constructor
  · intro hw
    rcases writeMessagePayload_cases hs hknows with ⟨-, -, hn⟩ | ⟨-, id, he⟩
    · rw [hn] at hw
      cases hw
    · rw [he] at hw
      exact ⟨_, Option.some.inj hw, hs.encrypted, fun _ => hexText_writeUint64Hex16 id⟩
  · rintro ⟨w, rfl, hw⟩
    rw [processMessage_encode w hl] at h
    cases h
    exact writeMessagePayload_canonical hw hk hm

-- ---------------------------------------------------------------------------
-- Encrypted content
-- ---------------------------------------------------------------------------

/-- The content as it was read, from the place the flags put it. -/
def Message.contentBytes (m : Message) : Bytes :=
  if m.isEncrypted then m.encryptedContent else m.content

def flaggedLength (flag : Bool) (n : Nat) : Nat := if flag then n else 0

def Message.writtenLength (m : Message) : Nat :=
  13 + m.messageId.length + m.senderNickname.length + m.content.length +
    flaggedLength m.hasOriginalSender (m.originalSenderNickname.length + 1) +
    flaggedLength m.hasRecipientNickname (m.recipientNickname.length + 1) +
    flaggedLength m.hasSenderPeerID 17 +
    flaggedLength m.hasMentions ((m.mentions.map fun s => s.length + 1).sum + 1) +
    flaggedLength m.hasChannel (m.channel.length + 1)

theorem length_flatMap_encode (ms : List Short) :
    (ms.flatMap Short.encode).length = (ms.map fun s => s.val.length + 1).sum := by
  simp [List.length_flatMap, Short.encode]

theorem length_flagged (flag : Bool) (s : Bytes) :
    (flagged flag s).length = flaggedLength flag s.length := by
  cases flag <;> rfl

theorem length_encode_short (s : Short) : s.encode.length = s.val.length + 1 := rfl

theorem length_toWire {m : Message} (h : m.Sound) (id : UInt64) :
    (m.toWire h (peerText id)).encode.length = m.writtenLength := by
  have hms : ((m.mentions.attachWith _ h.mention).map fun s => s.val.length + 1) =
      m.mentions.map fun s => s.length + 1 := by
    conv => rhs; rw [← List.attachWith_map_subtype_val h.mention]
    rw [List.map_map]
    rfl
  simp only [WireMessage.encode, WireMessage.encodeStart, WireMessage.encodeMentions,
    Message.toWire,
    List.length_append, List.length_cons, length_flagged, length_encode_short, length_split64,
    length_split16, length_flatMap_encode, hms, peerText, length_writeUint64Hex16,
    Message.writtenLength,
    Message.hasOriginalSender, Message.hasRecipientNickname, Message.hasSenderPeerID,
    Message.hasMentions, Message.hasChannel, Nat.reduceAdd]
  omega

def plainHeader : Incoming :=
  { type := 4, ttl := 3, timestampMs := 0, packetFlags := 0, payloadLength := 0, sender := 0,
    recipient := 0, payload := [], signature := [] }

end BitchatRepeater
