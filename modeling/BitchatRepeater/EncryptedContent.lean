import BitchatRepeater.MessageCodec

/-!
# Encrypted messages

The content of an encrypted message is read into a place the writer does not look
at, so it is only kept if there is none (`contentKept_iff`). Nor is it if the reader
is handed more bytes than it can count: fields behind the end of a payload are read
as empty and written with a length, so a payload may come out longer than it went
in, but never by so much that what 16 bits leave of its length is a message.
-/

namespace BitchatRepeater

open Lib Tracker ProtocolProcessor BinaryWriter

-- ---------------------------------------------------------------------------
-- What is read, and what it takes to write it
-- ---------------------------------------------------------------------------

/-- Of `n` bytes that describe what was read, all but `k` were there. -/
structure Covers (n k : Nat) (r r' : BinaryReader) : Prop where
  size : r'.bufferSize = r.bufferSize
  within : r'.pos ≤ r'.bufferSize
  bytes : r.pos + n ≤ r'.pos + k

section Covers
variable {r r' r'' : BinaryReader} {n k : Nat}

theorem Covers.trans (h : Covers n k r r') (h' : Covers n' k' r' r'') :
    Covers (n + n') (k + k') r r'' where
  size := h'.size.trans h.size
  within := h'.within
  bytes := by
    have hfirst := h.bytes
    have hsecond := h'.bytes
    omega

theorem Covers.refl (hr : r.pos ≤ r.bufferSize) : Covers 0 0 r r := ⟨rfl, hr, Nat.le_refl _⟩

theorem covers_advance (hlt : r.bufferSize < 2 ^ 16) (h : r.pos + n ≤ r.bufferSize) :
    Covers n 0 r (r.advance n) := by
  have hpos : (r.pos + n) % 2 ^ 16 = r.pos + n := Nat.mod_eq_of_lt (h.trans_lt hlt)
  exact ⟨rfl, hpos.trans_le h, hpos.ge⟩

theorem covers_readUint8 (hr : r.pos ≤ r.bufferSize) (hlt : r.bufferSize < 2 ^ 16) :
    ∃ k, Covers 1 k r r.readUint8.2 ∧ r.readUint8.1.toNat + 1 + 255 * k ≤ 256 := by
  unfold BinaryReader.readUint8
  split
  next => exact ⟨1, ⟨rfl, hr, Nat.le_refl _⟩, Nat.le_refl _⟩
  next h => exact ⟨0, covers_advance hlt (Nat.not_lt.mp h), (r.byte 0).toNat_lt⟩

theorem covers_readUint16 (hr : r.pos ≤ r.bufferSize) (hlt : r.bufferSize < 2 ^ 16) :
    Covers 2 2 r r.readUint16.2 := by
  unfold BinaryReader.readUint16
  split
  next => exact ⟨rfl, hr, Nat.le_refl _⟩
  next h =>
    have hall := covers_advance hlt (Nat.not_lt.mp h)
    exact ⟨hall.size, hall.within, hall.bytes.trans (Nat.le_add_right _ 2)⟩

theorem covers_readData (hlt : r.bufferSize < 2 ^ 16) (h : r.readData n = some (s, r')) :
    Covers s.length 0 r r' := by
  unfold BinaryReader.readData at h
  split at h
  next => cases h
  next hn =>
    cases h
    have hall := covers_advance hlt (Nat.not_lt.mp hn)
    refine ⟨hall.size, hall.within, le_trans ?_ hall.bytes⟩
    exact Nat.add_le_add_left (List.length_take_le _ _) _

theorem covers_readField (hr : r.pos ≤ r.bufferSize) (hlt : r.bufferSize < 2 ^ 16)
    (h : r.readField = some (s, r')) :
    ∃ k, Covers (s.length + 1) k r r' ∧ s.length + 1 + 255 * k ≤ 256 := by
  obtain ⟨k, hbyte, hk⟩ := covers_readUint8 hr hlt
  have hdata := covers_readData (hbyte.size.trans_lt hlt) h
  have hlength := length_readData h
  refine ⟨k, ?_, by omega⟩
  rw [Nat.add_comm s.length 1]
  exact hbyte.trans hdata

theorem covers_readFlagged {flag : Message → Bool} {store : Message → Bytes → Message}
    {mr : Message × BinaryReader} (hr : r.pos ≤ r.bufferSize) (hlt : r.bufferSize < 2 ^ 16)
    (h : readFlagged flag store (m, r) = some mr) :
    ∃ s : Short, mr.1 = (if flag m then store m s.val else m) ∧
      Covers (flaggedLength (flag m) (s.val.length + 1)) 1 r mr.2 := by
  simp only [readFlagged] at h
  split at h
  next hf =>
    obtain ⟨⟨s, r'⟩, hs, rfl⟩ := Option.map_eq_some_iff.mp h
    obtain ⟨k, hc, hk⟩ := covers_readField hr hlt hs
    refine ⟨⟨s, length_readField hs⟩, (if_pos hf).symm, hc.size, hc.within, ?_⟩
    have hbytes : r.pos + (s.length + 1) ≤ r'.pos + k := hc.bytes
    show r.pos + flaggedLength (flag m) (s.length + 1) ≤ r'.pos + 1
    rw [flaggedLength, if_pos hf]
    omega
  next hf =>
    cases h
    refine ⟨⟨[], Nat.zero_lt_succ 255⟩, (if_neg hf).symm, rfl, hr, ?_⟩
    rw [flaggedLength, if_neg hf]
    exact Nat.le_add_right _ 1

theorem covers_readMentionList {mr : Message × BinaryReader} (hr : r.pos ≤ r.bufferSize)
    (hlt : r.bufferSize < 2 ^ 16) (h : readMentionList n (m, r) = some mr) :
    ∃ (ms : List Short) (k : Nat), ms.length = n ∧
      mr.1 = { m with mentions := m.mentions ++ ms.map Subtype.val } ∧
      Covers (ms.map fun s => s.val.length + 1).sum k r mr.2 ∧
      (ms.map fun s => s.val.length + 1).sum + 255 * k ≤ 256 * n := by
  induction n generalizing m r with
  | zero =>
    cases h
    exact ⟨[], 0, rfl, by simp, .refl hr, Nat.le_refl _⟩
  | succ n ih =>
    simp only [readMentionList, Option.bind_eq_bind, Option.bind_eq_some_iff] at h
    obtain ⟨⟨s, r'⟩, hs, h⟩ := h
    obtain ⟨k, hc, hk⟩ := covers_readField hr hlt hs
    obtain ⟨ms, k', hlength, he, hc', hk'⟩ := ih hc.within (hc.size.trans_lt hlt) h
    refine ⟨⟨s, length_readField hs⟩ :: ms, k + k', congrArg (· + 1) hlength, ?_, ?_, ?_⟩
    · rw [he, List.map_cons, List.append_assoc]
      rfl
    · rw [List.map_cons, List.sum_cons]
      exact hc.trans hc'
    · rw [List.map_cons, List.sum_cons]
      simp only
      omega

/-- Flags and timestamp are there, since a payload has at least 13 bytes. -/
theorem covers_readMessageStart {mr : Message × BinaryReader} (hr : r.pos + 13 ≤ r.bufferSize)
    (hlt : r.bufferSize < 2 ^ 16) (h : readMessageStart m r = some mr) :
    ∃ w : WireMessage, mr.1 = w.startMessage m ∧
      Covers (13 + w.id.val.length + w.sender.val.length + w.content.val.length) 4 r mr.2 := by
  simp only [readMessageStart, Option.bind_eq_bind, Option.bind_eq_some_iff] at h
  obtain ⟨⟨id, r₃⟩, hid, ⟨sender, r₄⟩, hsender, ⟨content, r₆⟩, hcontent, h⟩ := h
  have hflags : Covers 1 0 r r.readUint8.2 := by
    rw [BinaryReader.readUint8, if_neg (by omega)]
    exact covers_advance hlt (by omega)
  have htimestamp : Covers 8 0 r.readUint8.2 r.readUint8.2.readUint64.2 := by
    have hpos : r.readUint8.2.pos = r.pos + 1 := by
      rw [BinaryReader.readUint8, if_neg (by omega)]
      exact Nat.mod_eq_of_lt (by omega)
    have hsize := hflags.size
    rw [BinaryReader.readUint64, if_neg (by omega)]
    exact covers_advance (hsize.trans_lt hlt) (by omega)
  have hhead := hflags.trans htimestamp
  obtain ⟨k, hc, hk⟩ := covers_readField hhead.within (hhead.size.trans_lt hlt) hid
  have hone := hhead.trans hc
  obtain ⟨k', hc', hk'⟩ := covers_readField hone.within (hone.size.trans_lt hlt) hsender
  have htwo := hone.trans hc'
  have hthree := htwo.trans (covers_readUint16 htwo.within (htwo.size.trans_lt hlt))
  have hall := hthree.trans (covers_readData (hthree.size.trans_lt hlt) hcontent)
  have hlength := lt_of_le_of_lt (length_readData hcontent) (UInt16.toNat_lt _)
  let none : Short := ⟨[], Nat.zero_lt_succ 255⟩
  refine ⟨⟨r.readUint8.1, r.readUint8.2.readUint64.1, ⟨id, length_readField hid⟩,
    ⟨sender, length_readField hsender⟩, ⟨content, hlength⟩, none, none, none,
    ⟨[], Nat.zero_lt_succ 255⟩, none⟩, ?_, ?_⟩
  · unfold WireMessage.startMessage
    split at h <;> cases h
    next he => exact (if_pos he).symm
    next he => exact (if_neg he).symm
  · have hr' : mr.2 = r₆ := by split at h <;> cases h <;> rfl
    rw [hr']
    refine ⟨hall.size, hall.within, ?_⟩
    have hbytes := hall.bytes
    simp only
    omega

theorem covers_readSenderPeer {peers ps : Peers} {mr : Message × BinaryReader}
    (hr : r.pos ≤ r.bufferSize) (hlt : r.bufferSize < 2 ^ 16)
    (h : readSenderPeer peers m r = some (ps, mr)) :
    ∃ s : Short,
      mr.1 = (if m.hasSenderPeerID && s.val.length == 16 then
        { m with senderPeer := some (hexPeerId 0 56 s.val) } else m) ∧
      Covers (flaggedLength m.hasSenderPeerID (s.val.length + 1)) 1 r mr.2 := by
  unfold readSenderPeer at h
  split at h
  next hf =>
    obtain ⟨⟨s, r'⟩, hs, he⟩ := Option.map_eq_some_iff.mp h
    obtain ⟨k, hc, hk⟩ := covers_readField hr hlt hs
    have hr' : mr.2 = r' := by
      simp only at he
      split at he <;> cases he <;> rfl
    refine ⟨⟨s, length_readField hs⟩, ?_, ?_⟩
    · simp only at he
      split at he <;> cases he
      next hl => simp [hf, hl]
      next hl => simp [hl]
    · have hbytes : r.pos + (s.length + 1) ≤ r'.pos + k := hc.bytes
      rw [hr', hf]
      refine ⟨hc.size, hc.within, ?_⟩
      show r.pos + (s.length + 1) ≤ r'.pos + 1
      omega
  next hf =>
    cases h
    rw [Bool.not_eq_true] at hf
    refine ⟨⟨[], Nat.zero_lt_succ 255⟩, by simp [hf], rfl, hr, ?_⟩
    rw [hf]
    exact Nat.le_add_right _ 1

theorem covers_readMentions {mr : Message × BinaryReader} (hr : r.pos ≤ r.bufferSize)
    (hlt : r.bufferSize < 2 ^ 16) (h : readMentions (m, r) = some mr) :
    ∃ (ms : List Short) (k : Nat), ms.length < 256 ∧
      mr.1 = (if m.hasMentions then { m with mentions := m.mentions ++ ms.map Subtype.val }
      else m) ∧
      Covers (flaggedLength m.hasMentions ((ms.map fun s => s.val.length + 1).sum + 1))
        (k + 1) r mr.2 ∧
      (ms.map fun s => s.val.length + 1).sum + 255 * k ≤ 65280 := by
  simp only [readMentions] at h
  split at h
  next hf =>
    obtain ⟨k, hc, hk⟩ := covers_readUint8 hr hlt
    obtain ⟨ms, k', hlength, he, hc', hk'⟩ :=
      covers_readMentionList hc.within (hc.size.trans_lt hlt) h
    have hcount := r.readUint8.1.toNat_lt
    refine ⟨ms, k', by omega, by rw [he, if_pos hf], ?_, by omega⟩
    have hall := hc.trans hc'
    refine ⟨hall.size, hall.within, ?_⟩
    have hbytes := hall.bytes
    rw [flaggedLength, if_pos hf]
    omega
  next hf =>
    cases h
    refine ⟨[], 0, Nat.zero_lt_succ 255, (if_neg hf).symm, ⟨rfl, hr, ?_⟩, Nat.zero_le _⟩
    rw [flaggedLength, if_neg hf]
    exact Nat.le_add_right _ _

end Covers

variable {m m' m₀ : Message} {peers peers' ps : Peers} {payload : Bytes}

theorem WireMessage.length_eq (w : WireMessage) : w.encode.length =
    13 + w.id.val.length + w.sender.val.length + w.content.val.length +
      flaggedLength (hasFlag w.flags 0x04) (w.originalSender.val.length + 1) +
      flaggedLength (hasFlag w.flags 0x08) (w.recipient.val.length + 1) +
      flaggedLength (hasFlag w.flags 0x10) (w.senderPeer.val.length + 1) +
      flaggedLength (hasFlag w.flags 0x20) ((w.mentions.val.map fun s =>
        s.val.length + 1).sum + 1) +
      flaggedLength (hasFlag w.flags 0x40) (w.channel.val.length + 1) := by
  simp only [encode, encodeStart, encodeMentions, List.length_append, List.length_cons,
    length_flagged, length_encode_short, length_split64, length_split16, length_flatMap_encode]
  omega

/-- Whatever is read is some message of the format, as long as the payload but for
what was not there: 9 bytes, and one for each of the last mentions. -/
theorem exists_wire_of_processMessage (h : (processMessage peers m payload).2 = some m') :
    ∃ (w : WireMessage) (k : Nat), m' = w.toMessage m ∧
      w.encode.length ≤ payload.length % 2 ^ 16 + 9 + k ∧
      (w.mentions.val.map fun s => s.val.length + 1).sum + 255 * k ≤ 65280 := by
  unfold processMessage at h
  split at h
  · cases h
  next hl =>
    split at h
    · cases h
    next m₁ r₁ h₁ =>
      simp only [Option.bind_eq_bind, Option.bind_eq_some_iff] at h₁
      obtain ⟨⟨m₀, r₀⟩, hstart, hnick⟩ := h₁
      simp only [readNicknames, Option.bind_eq_bind, Option.bind_eq_some_iff] at hnick
      obtain ⟨⟨mo, ro⟩, horiginal, hrecipient⟩ := hnick
      split at h
      · cases h
      next ps' mr₂ h₂ =>
        obtain ⟨⟨m₄, r₄⟩, hr, rfl⟩ := Option.map_eq_some_iff.mp h
        simp only [Option.bind_eq_bind, Option.bind_eq_some_iff] at hr
        obtain ⟨⟨m₃, r₃⟩, h₃, h₄⟩ := hr
        have hlt : (BinaryReader.new 0 payload).bufferSize < 2 ^ 16 :=
          Nat.mod_lt _ (Nat.two_pow_pos 16)
        have hlong : (BinaryReader.new 0 payload).pos + 13 ≤
            (BinaryReader.new 0 payload).bufferSize := by
          show 0 + 13 ≤ payload.length % 2 ^ 16
          omega
        obtain ⟨w, hm₀, c₀⟩ := covers_readMessageStart hlong hlt hstart
        have hlt₀ := c₀.size.trans_lt hlt
        obtain ⟨original, hmo, co⟩ := covers_readFlagged c₀.within hlt₀ horiginal
        have hlto := co.size.trans_lt hlt₀
        obtain ⟨recipient, hm₁, c₁⟩ := covers_readFlagged co.within hlto hrecipient
        have hlt₁ := c₁.size.trans_lt hlto
        obtain ⟨senderPeer, hm₂, c₂⟩ := covers_readSenderPeer c₁.within hlt₁ h₂
        have hlt₂ := c₂.size.trans_lt hlt₁
        obtain ⟨ms, k, hms, hm₃, c₃, hk⟩ := covers_readMentions c₂.within hlt₂ h₃
        obtain ⟨channel, hm₄, c₄⟩ := covers_readFlagged c₃.within (c₃.size.trans_lt hlt₂) h₄
        simp only at hm₀ c₀ hmo co hm₁ c₁ hm₃ c₃ hm₄ c₄
        -- all stages look at the flags that were read first
        have hf₀ : m₀.messageFlags = w.flags := by rw [hm₀, w.flags_startMessage]
        rw [show m₀.hasOriginalSender = hasFlag w.flags 0x04 from
          congrArg (hasFlag · 0x04) hf₀] at hmo co
        have hfo : mo.messageFlags = w.flags := by
          rw [hmo]
          split <;> exact hf₀
        rw [show mo.hasRecipientNickname = hasFlag w.flags 0x08 from
          congrArg (hasFlag · 0x08) hfo] at hm₁ c₁
        have hf₁ : m₁.messageFlags = w.flags := by
          rw [hm₁]
          split <;> exact hfo
        rw [show m₁.hasSenderPeerID = hasFlag w.flags 0x10 from
          congrArg (hasFlag · 0x10) hf₁] at hm₂ c₂
        have hf₂ : mr₂.1.messageFlags = w.flags := by
          rw [hm₂]
          split <;> exact hf₁
        rw [show mr₂.1.hasMentions = hasFlag w.flags 0x20 from
          congrArg (hasFlag · 0x20) hf₂] at hm₃ c₃
        have hf₃ : m₃.messageFlags = w.flags := by
          rw [hm₃]
          split <;> exact hf₂
        rw [show m₃.hasChannel = hasFlag w.flags 0x40 from
          congrArg (hasFlag · 0x40) hf₃] at hm₄ c₄
        refine ⟨{ w with originalSender := original, recipient, senderPeer,
                         mentions := ⟨ms, hms⟩, channel },
          k, ?_, ?_, hk⟩
        · rw [hm₄, hm₃, hm₂, hm₁, hmo, hm₀]
          rfl
        · have hall := ((((c₀.trans co).trans c₁).trans c₂).trans c₃).trans c₄
          have hbytes := hall.bytes
          have hend : r₄.pos ≤ payload.length % 2 ^ 16 := hall.within.trans hall.size.le
          rw [WireMessage.length_eq]
          simp only
          have hstart : (BinaryReader.new 0 payload).pos = 0 := rfl
          omega

theorem flaggedLength_shown (flag : Bool) (measure : α → Nat) (x y : α) :
    flaggedLength flag (measure (if flag then x else y)) = flaggedLength flag (measure x) := by
  cases flag <;> rfl

theorem WireMessage.writtenLength_le (w : WireMessage) (hm : m₀.Fresh)
    (hp : (w.toMessage m₀).hasSenderPeerID → (w.toMessage m₀).senderPeer.isSome) :
    (w.toMessage m₀).writtenLength ≤ w.encode.length := by
  have hpeer : flaggedLength (hasFlag w.flags 0x10) 17 =
      flaggedLength (hasFlag w.flags 0x10) (w.senderPeer.val.length + 1) := by
    cases hf : hasFlag w.flags 0x10 with
    | false => rfl
    | true =>
      have hsome := hp (by rw [Message.hasSenderPeerID, w.flags_toMessage, hf])
      rw [w.senderPeer_toMessage, hm.senderPeer] at hsome
      split at hsome
      next hn =>
        simp only [namesPeer, hf, Bool.true_and, beq_iff_eq] at hn
        rw [hn]
      next => cases hsome
  have hcontent : (w.toMessage m₀).content.length ≤ w.content.val.length := by
    rw [w.content_toMessage, hm.content]
    split
    · exact Nat.zero_le _
    · exact Nat.le_refl _
  have hfield (flag : Bool) (s x : Bytes) :
      flaggedLength flag ((if flag then s else x).length + 1) = flaggedLength flag (s.length + 1) :=
    flaggedLength_shown flag (fun s => s.length + 1) s x
  have hmentions : flaggedLength (hasFlag w.flags 0x20)
      (((w.toMessage m₀).mentions.map fun s => s.length + 1).sum + 1) =
      flaggedLength (hasFlag w.flags 0x20) ((w.mentions.val.map fun s =>
        s.val.length + 1).sum + 1) := by
    rw [w.mentions_toMessage, hm.mentions,
      flaggedLength_shown _ (fun ms : List Bytes => (ms.map fun s => s.length + 1).sum + 1),
      List.nil_append, List.map_map]
    rfl
  rw [w.length_eq, Message.writtenLength, w.id_toMessage, w.sender_toMessage,
    w.originalSender_toMessage, w.recipient_toMessage, w.channel_toMessage]
  simp only [Message.hasOriginalSender, Message.hasRecipientNickname, Message.hasSenderPeerID,
    Message.hasMentions, Message.hasChannel, w.flags_toMessage, hfield, hmentions, hpeer]
  omega

/-- The bytes that were not there are not so many that what 16 bits leave of the
length could be a message. -/
theorem writtenLength_lt (hm : m₀.Fresh) (h : processMessage peers m₀ payload = (ps, some m))
    (he : m.isEncrypted) (hp : m.hasSenderPeerID → m.senderPeer.isSome) :
    m.writtenLength < 2 ^ 16 + 13 := by
  obtain ⟨w, k, rfl, hlength, hmentions⟩ := exists_wire_of_processMessage (congrArg Prod.snd h)
  have hfit : payload.length % 2 ^ 16 < 2 ^ 16 := Nat.mod_lt _ (Nat.two_pow_pos 16)
  have hle := w.writtenLength_le hm hp
  by_cases hk : k ≤ 4
  · omega
  · -- more mentions that are not there leave the message too short
    obtain ⟨hs, -⟩ := processMessage_sound hm h
    have hsum : ((w.toMessage m₀).mentions.map fun s => s.length + 1).sum ≤
        (w.mentions.val.map fun s => s.val.length + 1).sum := by
      rw [w.mentions_toMessage, hm.mentions]
      split
      · rw [List.nil_append, List.map_map]
        exact Nat.le_refl _
      · exact Nat.zero_le _
    have hflag (flag : Bool) (n : Nat) : flaggedLength flag n ≤ n := by
      cases flag
      · exact Nat.zero_le n
      · exact Nat.le_refl n
    have hid := hs.id
    have hsender := hs.sender
    have horiginal := hs.originalSender
    have hrecipient := hs.recipient
    have hchannel := hs.channel
    have hcontent : (w.toMessage m₀).content.length = 0 := by rw [hs.encrypted he, List.length_nil]
    have h₁ := hflag (w.toMessage m₀).hasOriginalSender
      ((w.toMessage m₀).originalSenderNickname.length + 1)
    have h₂ := hflag (w.toMessage m₀).hasRecipientNickname
      ((w.toMessage m₀).recipientNickname.length + 1)
    have h₃ := hflag (w.toMessage m₀).hasSenderPeerID 17
    have h₄ := hflag (w.toMessage m₀).hasMentions
      (((w.toMessage m₀).mentions.map fun s => s.length + 1).sum + 1)
    have h₅ := hflag (w.toMessage m₀).hasChannel ((w.toMessage m₀).channel.length + 1)
    rw [Message.writtenLength]
    omega

-- ---------------------------------------------------------------------------
-- The content
-- ---------------------------------------------------------------------------

/-- The content of the message is found again in what is written for it. -/
def ContentKept (peers peers' : Peers) (m m₁ : Message) : Prop :=
  ∃ e m', ProtocolWriter.writeMessagePayload peers m = some e ∧
    (processMessage peers' m₁ e).2 = some m' ∧ m'.contentBytes = m.contentBytes

theorem contentBytes_toMessage (w : WireMessage) (m : Message) :
    (w.toMessage m).contentBytes = w.content.val := by
  simp only [Message.contentBytes, Message.isEncrypted, w.flags_toMessage, w.content_toMessage,
    w.encryptedContent_toMessage]
  split <;> rfl

/-- The content of an encrypted message is kept if and only if there is none, the
message does not ask for a sender peer it has not named, and the payload written
for it fits the reader's size. -/
theorem contentKept_iff (p p₁ : Incoming) (payload : Bytes) (peers peers' ps : Peers) (m : Message)
    (h : processMessage peers p.message payload = (ps, some m)) (he : m.isEncrypted) :
    ContentKept ps peers' m p₁.message ↔
      m.contentBytes = [] ∧ (m.hasSenderPeerID → m.senderPeer.isSome) ∧
      m.writtenLength < 2 ^ 16 := by
  obtain ⟨hs, hk⟩ := processMessage_sound p.fresh_message h
  rcases writeMessagePayload_cases hs hk with ⟨hf, hn, hw⟩ | ⟨hpeer, id, hw⟩
  · simp [ContentKept, hw, hf, hn]
  · have hlength := length_toWire hs id
    by_cases hfit : m.writtenLength < 2 ^ 16
    · have hr := processMessage_encode (m.toWire hs (peerText id)) (hlength.trans_lt hfit)
        peers' p₁.message
      have hc : ((m.toWire hs (peerText id)).toMessage p₁.message).contentBytes = [] := by
        rw [contentBytes_toMessage]
        exact hs.encrypted he
      constructor
      · rintro ⟨e, m', hwritten, hread, hkept⟩
        cases hw.symm.trans hwritten
        rw [hr] at hread
        cases hread
        exact ⟨hkept.symm.trans hc, hpeer, hfit⟩
      · rintro ⟨hempty, -, -⟩
        exact ⟨_, _, hw, congrArg Prod.snd hr, hc.trans hempty.symm⟩
    · -- the length wraps, and what is left of it is too short for a message
      have hshort : (m.toWire hs (peerText id)).encode.length % 2 ^ 16 < 13 := by
        have hlt := writtenLength_lt p.fresh_message h he hpeer
        omega
      refine ⟨fun ⟨e, m', hwritten, hread, _⟩ => ?_, fun ⟨_, _, hlt⟩ => absurd hlt hfit⟩
      cases hw.symm.trans hwritten
      rw [processMessage_short hshort] at hread
      cases hread

def encryptedPayload (content : Bytes) : Bytes :=
  0x80 :: List.replicate 8 0 ++ [1, 0x61, 1, 0x62, 0, UInt8.ofNat content.length] ++ content

def encryptedMessage (content : Bytes) : Message :=
  { plainHeader.message with
    messageFlags := 0x80, messageId := [0x61], senderNickname := [0x62],
    encryptedContent := content }

theorem contentKept_of_empty :
    ContentKept .empty .empty (encryptedMessage []) plainHeader.message :=
  (contentKept_iff plainHeader plainHeader (encryptedPayload []) .empty .empty .empty
    (encryptedMessage []) rfl rfl).mpr ⟨rfl, by decide, by decide⟩

theorem encryptedContent_lost :
    processMessage .empty plainHeader.message (encryptedPayload [0x63]) =
      (.empty, some (encryptedMessage [0x63])) ∧
    ¬ ContentKept .empty .empty (encryptedMessage [0x63]) plainHeader.message := by
  refine ⟨rfl, ?_⟩
  rintro ⟨e, m', hw, hr, hc⟩
  have he : e = encryptedPayload [] := (Option.some.inj hw).symm
  subst he
  cases (Option.some.inj hr : encryptedMessage [] = m')
  exact absurd hc (by decide)

end BitchatRepeater
