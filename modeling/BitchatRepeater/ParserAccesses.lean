import BitchatRepeater.Lib.Pointer
import BitchatRepeater.PacketCodec

/-!
# The accesses of the parser

`processWrite` once more, this time with the received buffer as an object that is
only read through pointers, each access checked. `read_data` returns a pointer,
and the source tests it against null before it copies from it, except for the
signature. That is the only access that can fail.
-/

namespace BitchatRepeater.Checked

open Lib Tracker ProtocolProcessor

-- ---------------------------------------------------------------------------
-- The reader
-- ---------------------------------------------------------------------------

structure Reader where
  buffer : Pointer UInt8
  bufferSize : Nat
  pos : Nat

namespace Reader

def new (offset : UInt16) (buffer : Pointer UInt8) (bufferSize : Nat) : Reader :=
  { buffer, bufferSize := bufferSize % 2 ^ 16, pos := offset.toNat }

def byte (r : Reader) (i : Nat) : Except Fault UInt8 := r.buffer.load (r.pos + i)

def advance (r : Reader) (n : Nat) : Reader :=
  { r with pos := (r.pos + n) % 2 ^ 16 }

def readUint8 (r : Reader) : Except Fault (UInt8 × Reader) :=
  if r.pos + 1 > r.bufferSize then pure (0, r)
  else do
    pure (← r.byte 0, r.advance 1)

def readUint16 (r : Reader) : Except Fault (UInt16 × Reader) :=
  if r.pos + 2 > r.bufferSize then pure (0, r)
  else do
    pure (join16 (← r.byte 0) (← r.byte 1), r.advance 2)

def readUint64 (r : Reader) : Except Fault (UInt64 × Reader) :=
  if r.pos + 8 > r.bufferSize then pure (0, r)
  else do
    pure (join64 (← r.byte 0) (← r.byte 1) (← r.byte 2) (← r.byte 3) (← r.byte 4) (← r.byte 5)
      (← r.byte 6) (← r.byte 7), r.advance 8)

def readData (r : Reader) (len : Nat) : Pointer UInt8 × Reader :=
  if r.pos + len > r.bufferSize then (.null, r) else (r.buffer.add r.pos, r.advance len)

end Reader

-- ---------------------------------------------------------------------------
-- Message payloads
-- ---------------------------------------------------------------------------

/-- Logs the data, each byte as a number and as a character. -/
def printNamedData (data : Pointer UInt8) (size : Nat) : Except Fault Unit := do
  let _ ← data.copy size
  let _ ← data.copy size

def readPointer (len : Nat) (reader : Reader) :
    OptionT (Except Fault) (Pointer UInt8 × Reader) := do
  let (data, reader) := reader.readData len
  if data.isNull then failure
  printNamedData data len
  pure (data, reader)

def readText (len : Nat) (reader : Reader) : OptionT (Except Fault) (Bytes × Reader) := do
  let (data, reader) ← readPointer len reader
  pure (← data.copy len, reader)

def readField (reader : Reader) : OptionT (Except Fault) (Bytes × Reader) := do
  let (len, reader) ← reader.readUint8
  readText len.toNat reader

def readFlagged (flag : Message → Bool) (store : Message → Bytes → Message) :
    Message × Reader → OptionT (Except Fault) (Message × Reader)
  | (message, reader) =>
    if flag message then do
      let (text, reader) ← readField reader
      pure (store message text, reader)
    else pure (message, reader)

def readMessageStart (message : Message) (reader : Reader) :
    OptionT (Except Fault) (Message × Reader) := do
  let (flags, reader) ← reader.readUint8
  let (timestamp, reader) ← reader.readUint64
  let (id, reader) ← readField reader
  let (sender, reader) ← readField reader
  let (contentLen, reader) ← reader.readUint16
  let (content, reader) ← readText contentLen.toNat reader
  let message := { message with
    messageFlags := flags, messageTimestamp := timestamp,
    messageId := id, senderNickname := sender }
  if message.isEncrypted then pure ({ message with encryptedContent := content }, reader)
  else pure ({ message with content := content }, reader)

def readNicknames (message : Message × Reader) : OptionT (Except Fault) (Message × Reader) := do
  let message ← readFlagged Message.hasOriginalSender
    (fun m s => { m with originalSenderNickname := s }) message
  readFlagged Message.hasRecipientNickname (fun m s => { m with recipientNickname := s }) message

def hexPeerId (digits : Pointer UInt8) : Nat → Nat → UInt64 → UInt64 → Except Fault UInt64
  | 0, _, peerId, _ => pure peerId
  | rounds + 1, i, peerId, shiftBy => do
    let byte := hexByte (← digits.load i) (← digits.load (i + 1))
    hexPeerId digits rounds (i + 2) (peerId ||| byte.toUInt64 <<< shiftBy) (shiftBy - 8)

def readSenderPeer (peers : Peers) (message : Message) (reader : Reader) :
    OptionT (Except Fault) ((Peers × Message) × Reader) :=
  if message.hasSenderPeerID then do
    let (len, reader) ← reader.readUint8
    let (digits, reader) ← readPointer len.toNat reader
    if len.toNat = 16 then
      let peerId ← hexPeerId digits 8 0 0 56
      pure ((checkSenderInPeers peers peerId, { message with senderPeer := some peerId }), reader)
    else pure ((peers, message), reader)
  else pure ((peers, message), reader)

def readMentionList : Nat → Message × Reader → OptionT (Except Fault) (Message × Reader)
  | 0, message => pure message
  | n + 1, (message, reader) => do
    let (mention, reader) ← readField reader
    readMentionList n ({ message with mentions := message.mentions ++ [mention] }, reader)

def readMentions : Message × Reader → OptionT (Except Fault) (Message × Reader)
  | (message, reader) =>
    if message.hasMentions then do
      let (number, reader) ← reader.readUint8
      readMentionList number.toNat (message, reader)
    else pure (message, reader)

def readChannel : Message × Reader → OptionT (Except Fault) (Message × Reader) :=
  readFlagged Message.hasChannel fun m s => { m with channel := s }

def processMessage (peers : Peers) (message : Message) (payload : Pointer UInt8)
    (payloadLength : Nat) :
    Except Fault (Peers × Option Message) :=
  if payloadLength % 2 ^ 16 < 13 then pure (peers, none)
  else do
    match ←
      (readMessageStart message (Reader.new 0 payload payloadLength) >>= readNicknames).run with
    | none => pure (peers, none)
    | some (message, reader) =>
      match ← (readSenderPeer peers message reader).run with
      | none => pure (peers, none)
      | some ((peers, message), reader) =>
        let read ← (readMentions (message, reader) >>= readChannel).run
        pure (peers, read.map Prod.fst)

-- ---------------------------------------------------------------------------
-- Packets
-- ---------------------------------------------------------------------------

def readHeader (reader : Reader) : Except Fault (Header × Reader) := do
  let (type, reader) ← reader.readUint8
  let (ttl, reader) ← reader.readUint8
  let (timestampMs, reader) ← reader.readUint64
  let (packetFlags, reader) ← reader.readUint8
  let (payloadLength, reader) ← reader.readUint16
  let (sender, reader) ← reader.readUint64
  let (recipient, reader) ←
    if hasFlag packetFlags packetFlagHasRecipient then reader.readUint64 else pure (0, reader)
  pure ({ type, ttl, timestampMs, packetFlags, payloadLength, sender, recipient }, reader)

/-- The pointer and the length of the payload are replaced if there is a decompressed one. -/
def decompress (inflate : Bytes → Option Bytes) (payload : Pointer UInt8) (payloadLength : Nat)
    (originalSize : UInt16) : Except Fault (Pointer UInt8 × Nat) := do
  let body ← payload.copy payloadLength
  match zlibDecompress inflate body originalSize.toNat with
  | some plain =>
    if plain.length > 0 then pure (.into plain 0, plain.length % 2 ^ 16)
    else pure (payload, payloadLength)
  | none => pure (payload, payloadLength)

def readPayload (inflate : Bytes → Option Bytes) (header : Header) (reader : Reader) :
    OptionT (Except Fault) ((Pointer UInt8 × Nat) × Reader) :=
  if hasFlag header.packetFlags packetFlagIsCompressed then do
    let (originalSize, reader) ← reader.readUint16
    let payloadLength := (header.payloadLength - 2).toNat
    let (payload, reader) := reader.readData payloadLength
    if payload.isNull then failure
    let payload ← decompress inflate payload payloadLength originalSize
    pure (payload, reader)
  else do
    let (payload, reader) ← readPointer header.payloadLength.toNat reader
    pure ((payload, header.payloadLength.toNat), reader)

/-- What `read_data` returns is copied from as it is. -/
def readSignature (header : Header) (reader : Reader) : Except Fault Bytes :=
  if hasFlag header.packetFlags packetFlagHasSignature then (reader.readData 64).1.copy 64
  else pure []

def handleMessage (ambient : Ambient) (t : Tracker) (origin : ConnPtr) (header : Header)
    (payload : Pointer UInt8) (payloadLength : Nat) (signature : Bytes) :
    Except Fault (Tracker × List Effect) := do
  let message :=
    Message.new header.ttl header.timestampMs header.packetFlags header.sender header.recipient
      signature
  let (peers, accepted) ←
    processMessage (checkSenderInPeers t.peers header.sender) message payload payloadLength
  let t := { t with peers := peers }
  match accepted with
  | none => pure (t, [])
  | some message =>
    match t.storeMessageAndReturnIfNew ambient.place message with
    | (t, none) => pure (t, [])
    | (t, some a) =>
      pure (t.enqueueBroadcastPacketFrom a message.packetTtl origin header.sender,
        [.storedNew a origin])

def handlePassAlong (hash : Bytes → UInt32) (ambient : Ambient) (t : Tracker) (origin : ConnPtr)
    (header : Header) (payload : Pointer UInt8) (payloadLength : Nat) (signature : Bytes) :
    Except Fault (Tracker × List Effect) :=
  if header.ttl < 1 then pure (t, [])
  else do
    let payload ← payload.copy payloadLength
    pure (ProtocolProcessor.handlePassAlong hash ambient t origin
      { header with payload, signature })

def dispatch (P : Platform) (ambient : Ambient) (t : Tracker) (origin : ConnPtr)
    (connection : BleConnection) (header : Header) (payload : Pointer UInt8) (payloadLength : Nat)
    (signature : Bytes) : Except Fault (Tracker × List Effect) :=
  match PacketType.ofCode? header.type with
  | some .noiseIdentityAnnounce => do
    let publicKey ← payload.copy payloadLength
    pure (updateOrStorePeerNoisePublicKey t header.sender publicKey, [])
  | some .typeMessage => handleMessage ambient t origin header payload payloadLength signature
  | some .typeAnnounce => do
    let peerName ← payload.copy payloadLength
    let t := handleAnnounce ambient t connection { header with payload := peerName, signature }
    handlePassAlong P.hash ambient t origin header payload payloadLength signature
  | some type =>
    if type.passAlong then
      handlePassAlong P.hash ambient t origin header payload payloadLength signature
    else pure (t, [])
  | none => pure (t, [])

/-- What follows the header. The last byte of the buffer is read but not used. -/
def processBody (P : Platform) (ambient : Ambient) (t : Tracker) (origin : ConnPtr)
    (connection : BleConnection) (buffer : Pointer UInt8) (bufferSize : Nat) (header : Header)
    (reader : Reader) : Except Fault (Tracker × List Effect) := do
  match ← (readPayload P.inflate header reader).run with
  | none => pure (t, [])
  | some ((payload, payloadLength), reader) =>
    let signature ← readSignature header reader
    let _ ← buffer.load (bufferSize - 1)
    dispatch P ambient t origin connection header payload payloadLength signature

/-- The object that is received ends where the size says. -/
def processWrite (P : Platform) (ambient : Ambient) (t : Tracker) (origin : ConnPtr)
    (connection : BleConnection) (offset : UInt16) (buffer : Bytes) :
    Except Fault (Tracker × List Effect) := do
  let bufferSize := buffer.length % 2 ^ 16
  let buffer := Pointer.into (buffer.take bufferSize) 0
  let (version, reader) ← (Reader.new offset buffer bufferSize).readUint8
  if version ≠ 1 then pure (t, [])
  else
    let (header, reader) ← readHeader reader
    processBody P ambient t origin connection buffer bufferSize header reader

-- ---------------------------------------------------------------------------
-- Readers that stand for each other
-- ---------------------------------------------------------------------------

/-- `c` is at the same position of the same bytes as `r`. -/
structure Reader.Mirrors (c : Reader) (r : BinaryReader) : Prop where
  size : c.bufferSize = r.bufferSize
  pos : c.pos = r.pos
  le : r.bufferSize ≤ r.buffer.length
  holds : c.buffer.Holds (r.buffer.take r.bufferSize)

def Same (c : α × Reader) (r : α × BinaryReader) : Prop := c.1 = r.1 ∧ c.2.Mirrors r.2

def PointsTo (len : Nat) (c : Pointer UInt8 × Reader) (r : Bytes × BinaryReader) : Prop :=
  c.1.Holds r.1 ∧ r.1.length = len ∧ c.2.Mirrors r.2

section Readers
variable {c : Reader} {r : BinaryReader}

namespace Reader.Mirrors

theorem byte (h : c.Mirrors r) (hi : r.pos + i < r.bufferSize) : c.byte i = .ok (r.byte i) := by
  have hlen : (r.buffer.take r.bufferSize).length = r.bufferSize := List.length_take_of_le h.le
  have hload := h.holds.load (i := r.pos + i) (hlen.symm ▸ hi)
  rw [Reader.byte, h.pos, hload, List.getElem_take, BinaryReader.byte, List.getD_eq_getElem?_getD,
    List.getElem?_eq_getElem (hi.trans_le h.le), Option.getD_some]

theorem advance (h : c.Mirrors r) (n : Nat) : (c.advance n).Mirrors (r.advance n) where
  size := h.size
  pos := by rw [Reader.advance, BinaryReader.advance, h.pos]
  le := h.le
  holds := h.holds

theorem readUint8 (h : c.Mirrors r) : Yields Same c.readUint8 r.readUint8 := by
  unfold Reader.readUint8 BinaryReader.readUint8
  rw [h.pos, h.size]
  split
  · exact ⟨_, rfl, rfl, h⟩
  · rw [h.byte (by omega)]
    exact ⟨_, rfl, rfl, h.advance 1⟩

theorem readUint16 (h : c.Mirrors r) : Yields Same c.readUint16 r.readUint16 := by
  unfold Reader.readUint16 BinaryReader.readUint16
  rw [h.pos, h.size]
  split
  · exact ⟨_, rfl, rfl, h⟩
  · rw [h.byte (by omega), h.byte (by omega)]
    exact ⟨_, rfl, rfl, h.advance 2⟩

theorem readUint64 (h : c.Mirrors r) : Yields Same c.readUint64 r.readUint64 := by
  unfold Reader.readUint64 BinaryReader.readUint64
  rw [h.pos, h.size]
  split
  · exact ⟨_, rfl, rfl, h⟩
  next hin =>
    have hbyte (i : Nat) (hi : i < 8) : c.byte i = .ok (r.byte i) := h.byte (by omega)
    rw [hbyte 0 (by decide), hbyte 1 (by decide), hbyte 2 (by decide), hbyte 3 (by decide),
      hbyte 4 (by decide), hbyte 5 (by decide), hbyte 6 (by decide), hbyte 7 (by decide)]
    exact ⟨_, rfl, rfl, h.advance 8⟩

/-- `read_data` returns null exactly where the model reports the failure. -/
theorem readData (h : c.Mirrors r) (len : Nat) :
    (r.readData len = none ∧ c.readData len = (.null, c)) ∨
      ∃ read, r.readData len = some read ∧ PointsTo len (c.readData len) read := by
  unfold Reader.readData BinaryReader.readData
  rw [h.pos, h.size]
  split
  · exact .inl ⟨rfl, rfl⟩
  next hle =>
    refine .inr ⟨_, rfl, ?_, ?_, h.advance len⟩
    · have hlen : (r.buffer.take r.bufferSize).length = r.bufferSize := List.length_take_of_le h.le
      have hholds := (h.holds.add (n := r.pos) (by omega)).take len
      rwa [List.drop_take, List.take_take, Nat.min_eq_left (by omega)] at hholds
    · have hle' := h.le
      exact List.length_take_of_le (by rw [List.length_drop]; omega)

end Reader.Mirrors

section Steps
variable {α β : Type} {x : Except Fault (α × Reader)} {y : α × BinaryReader}

theorem Same.exists (hx : Yields Same x y) : ∃ c, x = .ok (y.1, c) ∧ c.Mirrors y.2 := by
  obtain ⟨⟨a, c⟩, hx, he, hm⟩ := hx
  exact ⟨c, by rw [hx, ← he], hm⟩

theorem Same.bind {R : β → γ → Prop} {f : α × Reader → Except Fault β} (hx : Yields Same x y)
    (hf : ∀ a c r, y = (a, r) → c.Mirrors r → Yields R (f (a, c)) z) : Yields R (x >>= f) z := by
  refine hx.bind ?_
  rintro ⟨_, c⟩ ⟨rfl, hm⟩
  exact hf _ c _ rfl hm

theorem Same.agrees {R : β → γ → Prop} {f : α × Reader → OptionT (Except Fault) β}
    (hx : Yields Same x y) (hf : ∀ a c r, y = (a, r) → c.Mirrors r → Agrees R (f (a, c)) z) :
    Agrees R (liftM x >>= f) z := by
  refine Yields.agrees hx ?_
  rintro ⟨_, c⟩ ⟨rfl, hm⟩
  exact hf _ c _ rfl hm

end Steps

theorem printNamedData_eq (h : p.Holds xs) (hl : xs.length = len) :
    printNamedData p len = .ok () := by
  rw [printNamedData, h.copy hl]
  rfl

theorem readPointer_agrees (h : c.Mirrors r) (len : Nat) :
    Agrees (PointsTo len) (readPointer len c) (r.readData len) := by
  unfold readPointer
  obtain ⟨hr, hnull⟩ | ⟨read, hr, hholds, hl, hm⟩ := h.readData len
  · rw [hr, hnull]
    rfl
  · rw [hr]
    refine ⟨c.readData len, ?_, hholds, hl, hm⟩
    simp only [hholds.isNull, printNamedData_eq hholds hl]
    rfl

theorem readText_agrees (h : c.Mirrors r) (len : Nat) :
    Agrees Same (readText len c) (r.readData len) := by
  refine (readPointer_agrees h len).convert ?_
  rintro ⟨data, c'⟩ read ⟨hholds, hl, hm⟩
  simp only [hholds.copy hl]
  exact ⟨_, rfl, rfl, hm⟩

theorem readField_agrees (h : c.Mirrors r) : Agrees Same (readField c) r.readField := by
  refine h.readUint8.agrees ?_
  rintro ⟨len, c'⟩ ⟨rfl, hm⟩
  exact readText_agrees hm _

end Readers

-- ---------------------------------------------------------------------------
-- Message payloads that stand for each other
-- ---------------------------------------------------------------------------

section Messages
variable {peers : Peers} {message : Message} {c : Reader} {r : BinaryReader} {payload : Bytes}

theorem readFlagged_agrees (flag : Message → Bool) (store : Message → Bytes → Message)
    (h : c.Mirrors r) :
    Agrees Same (readFlagged flag store (message, c))
      (ProtocolProcessor.readFlagged flag store (message, r)) := by
  unfold readFlagged ProtocolProcessor.readFlagged
  simp only
  split
  · refine (readField_agrees h).map ?_
    rintro ⟨text, c'⟩ ⟨_, r'⟩ ⟨rfl, hm⟩
    exact ⟨_, rfl, rfl, hm⟩
  · exact ⟨_, rfl, rfl, h⟩

theorem readMessageStart_agrees (message : Message) (h : c.Mirrors r) :
    Agrees Same (readMessageStart message c) (ProtocolProcessor.readMessageStart message r) := by
  unfold readMessageStart ProtocolProcessor.readMessageStart
  refine Same.agrees h.readUint8 fun flags c₁ r₁ hflags h₁ => ?_
  refine Same.agrees h₁.readUint64 fun timestamp c₂ r₂ htimestamp h₂ => ?_
  simp only [hflags, htimestamp]
  refine (readField_agrees h₂).bind ?_
  rintro ⟨id, c₃⟩ ⟨_, r₃⟩ ⟨rfl, h₃⟩
  refine (readField_agrees h₃).bind ?_
  rintro ⟨sender, c₄⟩ ⟨_, r₄⟩ ⟨rfl, h₄⟩
  refine Same.agrees h₄.readUint16 fun contentLen c₅ r₅ hlen h₅ => ?_
  simp only at hlen
  simp only [hlen]
  refine (readText_agrees h₅ _).bind ?_
  rintro ⟨content, c₆⟩ ⟨_, r₆⟩ ⟨rfl, h₆⟩
  simp only
  split
  · exact ⟨_, rfl, rfl, h₆⟩
  · exact ⟨_, rfl, rfl, h₆⟩

theorem readNicknames_agrees (h : c.Mirrors r) :
    Agrees Same (readNicknames (message, c)) (ProtocolProcessor.readNicknames (message, r)) := by
  refine (readFlagged_agrees _ _ h).bind ?_
  rintro ⟨message', c'⟩ ⟨_, r'⟩ ⟨rfl, hm⟩
  exact readFlagged_agrees _ _ hm

theorem hexPeerId_eq {digits : Pointer UInt8} {text : Bytes} (h : digits.Holds text) :
    i + 2 * rounds = text.length → hexPeerId digits rounds i peerId shiftBy =
      .ok (ProtocolProcessor.hexPeerId peerId shiftBy (text.drop i)) := by
  induction rounds generalizing i peerId shiftBy with
  | zero =>
    intro hl
    rw [List.drop_eq_nil_of_le (show text.length ≤ i from hl.ge)]
    rfl
  | succ rounds ih =>
    intro hl
    rw [hexPeerId, h.load (by omega), h.load (by omega), List.drop_eq_getElem_cons (by omega),
      List.drop_eq_getElem_cons (by omega), ProtocolProcessor.hexPeerId]
    exact ih (by omega)

def apart (read : Peers × Message × BinaryReader) : (Peers × Message) × BinaryReader :=
  ((read.1, read.2.1), read.2.2)

theorem readSenderPeer_agrees (peers : Peers) (message : Message) (h : c.Mirrors r) :
    Agrees Same (readSenderPeer peers message c)
      ((ProtocolProcessor.readSenderPeer peers message r).map apart) := by
  unfold readSenderPeer ProtocolProcessor.readSenderPeer
  split
  · rw [Option.map_map]
    refine h.readUint8.agrees ?_
    rintro ⟨len, c₁⟩ ⟨rfl, h₁⟩
    refine (readPointer_agrees h₁ _).map ?_
    rintro ⟨digits, c₂⟩ ⟨text, r₂⟩ ⟨hholds, hl, h₂⟩
    simp only [Function.comp_apply, hl]
    split
    next h16 =>
      rw [hexPeerId_eq hholds (hl.trans h16).symm]
      exact ⟨_, rfl, rfl, h₂⟩
    · exact ⟨_, rfl, rfl, h₂⟩
  · exact ⟨_, rfl, rfl, h⟩

theorem readMentionList_agrees (h : c.Mirrors r) : Agrees Same (readMentionList n (message, c))
    (ProtocolProcessor.readMentionList n (message, r)) := by
  induction n generalizing message c r with
  | zero => exact ⟨_, rfl, rfl, h⟩
  | succ n ih =>
    refine (readField_agrees h).bind ?_
    rintro ⟨mention, c'⟩ ⟨_, r'⟩ ⟨rfl, hm⟩
    exact ih hm

theorem readMentions_agrees (h : c.Mirrors r) :
    Agrees Same (readMentions (message, c)) (ProtocolProcessor.readMentions (message, r)) := by
  unfold readMentions ProtocolProcessor.readMentions
  simp only
  split
  · refine h.readUint8.agrees ?_
    rintro ⟨number, c'⟩ ⟨rfl, hm⟩
    exact readMentionList_agrees hm
  · exact ⟨_, rfl, rfl, h⟩

theorem mirrors_new (offset : UInt16) (h : p.Holds payload) :
    (Reader.new offset p payload.length).Mirrors (BinaryReader.new offset payload) where
  size := rfl
  pos := rfl
  le := Nat.mod_le _ _
  holds := h.take _

theorem processMessage_eq (peers : Peers) (message : Message) (h : p.Holds payload) :
    processMessage peers message p payload.length =
      .ok (ProtocolProcessor.processMessage peers message payload) := by
  unfold processMessage ProtocolProcessor.processMessage
  split
  · rfl
  have hstart : Agrees Same (readMessageStart message (Reader.new 0 p payload.length) >>=
    readNicknames)
      (ProtocolProcessor.readMessageStart message (BinaryReader.new 0 payload) >>=
        ProtocolProcessor.readNicknames) := by
    refine (readMessageStart_agrees message (mirrors_new 0 h)).bind ?_
    rintro ⟨message', c⟩ ⟨_, r⟩ ⟨rfl, hm⟩
    exact readNicknames_agrees hm
  refine hstart.run_bind (fun hnone => by rw [hnone]; rfl) ?_
  rintro ⟨message₁, c₁⟩ ⟨_, r₁⟩ hsome ⟨rfl, h₁⟩
  simp only at h₁
  simp only [hsome]
  refine (readSenderPeer_agrees peers message₁ h₁).run_bind (fun hnone => ?_) ?_
  · rw [Option.map_eq_none_iff.mp hnone]
    rfl
  rintro ⟨_, c₂⟩ read hread ⟨rfl, h₂⟩
  obtain ⟨⟨peers₂, message₂, r₂⟩, hpeer, rfl⟩ := Option.map_eq_some_iff.mp hread
  simp only [apart] at h₂
  have hrest : Agrees Same (readMentions (message₂, c₂) >>= readChannel)
      (ProtocolProcessor.readMentions (message₂, r₂) >>= ProtocolProcessor.readChannel) := by
    refine (readMentions_agrees h₂).bind ?_
    rintro ⟨message', c⟩ ⟨_, r⟩ ⟨rfl, hm⟩
    exact readFlagged_agrees _ _ hm
  simp only [hpeer, apart]
  refine hrest.run_bind (fun hnone => by rw [hnone]; rfl) ?_
  rintro ⟨message₃, c₃⟩ ⟨_, r₃⟩ hsome ⟨rfl, -⟩
  rw [hsome]
  rfl

end Messages

-- ---------------------------------------------------------------------------
-- Packets that stand for each other
-- ---------------------------------------------------------------------------

section Packets
variable {c : Reader} {r : BinaryReader} {p : Pointer UInt8} {payload : Bytes} {header : Header}

theorem readHeader_yields (h : c.Mirrors r) :
    Yields Same (readHeader c) (ProtocolProcessor.readHeader r) := by
  unfold readHeader ProtocolProcessor.readHeader
  refine Same.bind h.readUint8 fun type c₁ r₁ e₁ h₁ => ?_
  refine Same.bind h₁.readUint8 fun ttl c₂ r₂ e₂ h₂ => ?_
  refine Same.bind h₂.readUint64 fun timestampMs c₃ r₃ e₃ h₃ => ?_
  refine Same.bind h₃.readUint8 fun packetFlags c₄ r₄ e₄ h₄ => ?_
  refine Same.bind h₄.readUint16 fun payloadLength c₅ r₅ e₅ h₅ => ?_
  refine Same.bind h₅.readUint64 fun sender c₆ r₆ e₆ h₆ => ?_
  simp only [e₁, e₂, e₃, e₄, e₅, e₆]
  split
  · refine Same.bind h₆.readUint64 fun recipient c₇ r₇ e₇ h₇ => ?_
    simp only [e₇]
    exact ⟨_, rfl, rfl, h₇⟩
  · exact ⟨_, rfl, rfl, h₆⟩

def Locates (c : (Pointer UInt8 × Nat) × Reader) (r : Bytes × BinaryReader) : Prop :=
  c.1.1.Holds r.1 ∧ r.1.length = c.1.2 ∧ c.2.Mirrors r.2

theorem length_zlibDecompress (h : zlibDecompress inflate body avail = some plain) :
    plain.length ≤ avail := by
  unfold zlibDecompress at h
  exact of_decide_eq_true (Option.filter_eq_some_iff.mp h).2

/-- A decompressed payload has its own object, which holds no more than the original size. -/
theorem decompress_eq (inflate : Bytes → Option Bytes) (originalSize : UInt16) (h : p.Holds body)
    (hl : body.length = len) : ∃ p', p'.Holds (decompressed inflate body originalSize.toNat) ∧
      decompress inflate p len originalSize =
        .ok (p', (decompressed inflate body originalSize.toNat).length) := by
  rw [decompress, h.copy hl, ok_bind, decompressed]
  cases hz : zlibDecompress inflate body originalSize.toNat with
  | none => exact ⟨p, h, by rw [← hl]; rfl⟩
  | some plain =>
    simp only
    split
    · have hlt : plain.length < 2 ^ 16 := (length_zlibDecompress hz).trans_lt originalSize.toNat_lt
      exact ⟨.into plain 0, Pointer.holds_into plain, by rw [Nat.mod_eq_of_lt hlt]; rfl⟩
    · exact ⟨p, h, by rw [← hl]; rfl⟩

theorem readPayload_agrees (inflate : Bytes → Option Bytes) (header : Header) (h : c.Mirrors r) :
    Agrees Locates (readPayload inflate header c)
      (ProtocolProcessor.readPayload inflate header r) := by
  unfold readPayload ProtocolProcessor.readPayload
  split
  · refine Same.agrees h.readUint16 fun originalSize c₁ r₁ e₁ h₁ => ?_
    simp only [e₁]
    obtain ⟨hr, hnull⟩ | ⟨read, hr, hholds, hl, hm⟩ := h₁.readData (header.payloadLength - 2).toNat
    · rw [hr, hnull]
      rfl
    · obtain ⟨p', hholds', hp'⟩ := decompress_eq inflate originalSize hholds hl
      simp only [hr, hholds.isNull, hp']
      exact ⟨_, rfl, hholds', rfl, hm⟩
  · refine (readPointer_agrees h _).convert ?_
    rintro ⟨data, c'⟩ read ⟨hholds, hl, hm⟩
    exact ⟨_, rfl, hholds, hl, hm⟩

/-- The signature is there, or the null pointer is copied from. -/
theorem readSignature_eq (header : Header) (payload : Bytes) (h : c.Mirrors r) :
    match ProtocolProcessor.readSignature header payload r with
    | .packet p =>
      p.toHeader = header ∧ p.payload = payload ∧ readSignature header c = .ok p.signature
    | .nullSignature => readSignature header c = .error .nullPointer
    | .rejected => False := by
  unfold readSignature ProtocolProcessor.readSignature
  cases hasFlag header.packetFlags packetFlagHasSignature with
  | false => exact ⟨rfl, rfl, rfl⟩
  | true =>
    obtain ⟨hr, hnull⟩ | ⟨read, hr, hholds, hl, -⟩ := h.readData 64
    · simp only [hr, hnull, if_true]
      rfl
    · simp only [hr, if_true]
      exact ⟨trivial, trivial, hholds.copy hl⟩

theorem handleMessage_eq {q : Incoming} (h : p.Holds q.payload) :
    handleMessage ambient t origin q.toHeader p q.payload.length q.signature =
      .ok (ProtocolProcessor.handleMessage ambient t origin q) := by
  rw [handleMessage, processMessage_eq _ _ h, ok_bind, ProtocolProcessor.handleMessage,
    Incoming.message]
  generalize ProtocolProcessor.processMessage _ _ q.payload = processed
  obtain ⟨peers, _ | message⟩ := processed
  · rfl
  · simp only
    generalize storeMessageAndReturnIfNew _ ambient.place message = stored
    obtain ⟨t', _ | a⟩ := stored
    · rfl
    · rfl

theorem handlePassAlong_eq {q : Incoming} (hash : Bytes → UInt32) (h : p.Holds q.payload) :
    handlePassAlong hash ambient t origin q.toHeader p q.payload.length q.signature =
      .ok (ProtocolProcessor.handlePassAlong hash ambient t origin q) := by
  rw [handlePassAlong, h.copy rfl, ok_bind]
  split
  next httl => rw [ProtocolProcessor.handlePassAlong, if_pos httl]; rfl
  · rfl

theorem dispatch_eq {q : Incoming} (h : p.Holds q.payload) :
    dispatch P ambient t origin connection q.toHeader p q.payload.length q.signature =
      .ok (ProtocolProcessor.dispatch P ambient t origin connection q) := by
  unfold dispatch ProtocolProcessor.dispatch
  cases PacketType.ofCode? q.type with
  | none => rfl
  | some type =>
    cases type with
    | noiseIdentityAnnounce =>
      rw [h.copy rfl]
      rfl
    | typeMessage => exact handleMessage_eq h
    | typeAnnounce =>
      rw [h.copy rfl, ok_bind]
      exact handlePassAlong_eq P.hash h
    | _ =>
      simp only
      split
      · exact handlePassAlong_eq P.hash h
      · rfl

def outcome (P : Platform) (ambient : Ambient) (t : Tracker) (origin : ConnPtr)
    (connection : BleConnection) : ReadOutcome → Except Fault (Tracker × List Effect)
  | .rejected => .ok (t, [])
  | .nullSignature => .error .nullPointer
  | .packet p => .ok (ProtocolProcessor.dispatch P ambient t origin connection p)

theorem processBody_eq (h : c.Mirrors r) (hlast : buffer.load (bufferSize - 1) = .ok b) :
    processBody P ambient t origin connection buffer bufferSize header c =
      outcome P ambient t origin connection (readBody P.inflate header r) := by
  rw [processBody, readBody]
  refine (readPayload_agrees P.inflate header h).run_bind (fun hnone => by rw [hnone]; rfl) ?_
  rintro ⟨⟨p, len⟩, c'⟩ ⟨payload, r'⟩ hsome ⟨hholds, hl, hm⟩
  have hsignature := readSignature_eq header payload hm
  rw [hsome]
  simp only at hl hm hsignature ⊢
  cases hs : ProtocolProcessor.readSignature header payload r' with
  | rejected =>
    rw [hs] at hsignature
    exact hsignature.elim
  | nullSignature =>
    rw [hs] at hsignature
    rw [hsignature, error_bind]
    rfl
  | packet q =>
    rw [hs] at hsignature
    obtain ⟨rfl, rfl, hsig⟩ := hsignature
    rw [hsig, ok_bind, hlast, ok_bind, ← hl]
    exact dispatch_eq hholds

theorem mirrors_received (offset : UInt16) (buffer : Bytes) :
    (Reader.new offset (.into (buffer.take (buffer.length % 2 ^ 16)) 0)
      (buffer.length % 2 ^ 16)).Mirrors
      (BinaryReader.new offset buffer) where
  size := Nat.mod_mod _ _
  pos := rfl
  le := Nat.mod_le _ _
  holds := Pointer.holds_into _

/-- With a version, the buffer is not empty. -/
theorem load_last (h : (BinaryReader.new offset buffer).readUint8.1 = 1) :
    ∃ b, (Pointer.into (buffer.take (buffer.length % 2 ^ 16)) 0).load (buffer.length % 2 ^ 16 - 1) =
    .ok b := by
  have hpos : 0 < buffer.length % 2 ^ 16 := by
    unfold BinaryReader.readUint8 at h
    split at h
    · cases h
    next hle =>
      simp only [BinaryReader.new] at hle
      omega
  have hlen : (buffer.take (buffer.length % 2 ^ 16)).length = buffer.length % 2 ^ 16 :=
    List.length_take_of_le (Nat.mod_le _ _)
  exact ⟨_, (Pointer.holds_into _).load (by omega)⟩

theorem processWrite_eq (P : Platform) (ambient : Ambient) (t : Tracker) (origin : ConnPtr)
    (connection : BleConnection) (offset : UInt16) (buffer : Bytes) :
    processWrite P ambient t origin connection offset buffer =
      outcome P ambient t origin connection (readPacket P.inflate offset buffer) := by
  obtain ⟨c₁, hversion, h₁⟩ := Same.exists (mirrors_received offset buffer).readUint8
  obtain ⟨c₂, hheader, h₂⟩ := Same.exists (readHeader_yields h₁)
  rw [processWrite, readPacket]
  simp only [hversion, ok_bind]
  split
  · rfl
  next hone =>
    obtain ⟨b, hb⟩ := load_last (not_not.mp hone)
    simp only [hheader, ok_bind]
    exact processBody_eq h₂ hb

end Packets

-- ---------------------------------------------------------------------------
-- Signatures that are not there
-- ---------------------------------------------------------------------------

def payloadEnd (header : Header) (reader : BinaryReader) : Nat :=
  if hasFlag header.packetFlags packetFlagIsCompressed then
    reader.readUint16.2.pos + (header.payloadLength - 2).toNat
  else reader.pos + header.payloadLength.toNat

/-- The flags announce a signature, the payload is there, but behind it are fewer
bytes than a signature has. -/
def signatureMissing (offset : UInt16) (buffer : Bytes) : Bool :=
  let (version, reader) := (BinaryReader.new offset buffer).readUint8
  let (header, reader) := ProtocolProcessor.readHeader reader
  let size := buffer.length % 2 ^ 16
  version = 1 && hasFlag header.packetFlags packetFlagHasSignature &&
    payloadEnd header reader ≤ size && size < payloadEnd header reader + 64

theorem readData_cases (r : BinaryReader) (n : Nat) :
    r.readData n = none ∧ r.bufferSize < r.pos + n ∨
      r.pos + n ≤ r.bufferSize ∧ ∃ s, r.readData n = some (s, r.advance n) := by
  unfold BinaryReader.readData
  split
  next hgt => exact .inl ⟨rfl, hgt⟩
  next hle => exact .inr ⟨not_lt.mp hle, _, rfl⟩

theorem readPayload_cases (inflate : Bytes → Option Bytes) (header : Header) (r : BinaryReader) :
    ProtocolProcessor.readPayload inflate header r = none ∧ r.bufferSize < payloadEnd header r ∨
      payloadEnd header r ≤ r.bufferSize ∧ ∃ payload r',
        ProtocolProcessor.readPayload inflate header r = some (payload, r') ∧
          r'.pos = payloadEnd header r % 2 ^ 16 ∧ r'.bufferSize = r.bufferSize := by
  unfold ProtocolProcessor.readPayload payloadEnd
  split
  · have hsize : r.readUint16.2.bufferSize = r.bufferSize := bufferSize_readUint16
    rw [← hsize]
    obtain ⟨hnone, hlt⟩ | ⟨hle, s, hsome⟩ :=
      readData_cases r.readUint16.2 (header.payloadLength - 2).toNat
    · exact .inl ⟨by simp only [hnone, Option.map_none], hlt⟩
    · refine .inr ⟨hle, decompressed inflate s r.readUint16.1.toNat,
        r.readUint16.2.advance (header.payloadLength - 2).toNat, ?_, rfl, rfl⟩
      simp only [hsome, Option.map_some]
  · obtain ⟨hnone, hlt⟩ | ⟨hle, s, hsome⟩ := readData_cases r header.payloadLength.toNat
    · exact .inl ⟨hnone, hlt⟩
    · exact .inr ⟨hle, s, _, hsome, rfl, rfl⟩

theorem readBody_eq_nullSignature_iff (inflate : Bytes → Option Bytes) (header : Header)
    {r : BinaryReader} (hr : r.bufferSize < 2 ^ 16) :
    readBody inflate header r = .nullSignature ↔
      hasFlag header.packetFlags packetFlagHasSignature ∧ payloadEnd header r ≤ r.bufferSize ∧
        r.bufferSize < payloadEnd header r + 64 := by
  unfold readBody
  obtain ⟨hnone, hlt⟩ | ⟨hle, payload, r', hsome, hpos, hsize⟩ := readPayload_cases inflate header r
  · rw [hnone]
    simp only [reduceCtorEq, false_iff]
    omega
  · rw [hsome]
    rw [Nat.mod_eq_of_lt (hle.trans_lt hr)] at hpos
    simp only [ProtocolProcessor.readSignature, hle, true_and]
    cases hasFlag header.packetFlags packetFlagHasSignature with
    | false => simp
    | true =>
      rw [← hpos, ← hsize]
      obtain ⟨hnone, hlt⟩ | ⟨hle, s, hsome⟩ := readData_cases r' 64
      · simp [hnone, hlt]
      · simp [hsome, hle]

theorem readPacket_eq_nullSignature_iff (inflate : Bytes → Option Bytes) :
    readPacket inflate offset buffer = .nullSignature ↔ signatureMissing offset buffer := by
  have hsize : (ProtocolProcessor.readHeader (BinaryReader.new offset
    buffer).readUint8.2).2.bufferSize =
      buffer.length % 2 ^ 16 := by
    rw [bufferSize_readHeader, bufferSize_readUint8]
    rfl
  have hlt : buffer.length % 2 ^ 16 < 2 ^ 16 := Nat.mod_lt _ (by decide)
  have hbody := readBody_eq_nullSignature_iff inflate
    (ProtocolProcessor.readHeader (BinaryReader.new offset buffer).readUint8.2).1
    (hsize.trans_lt hlt)
  unfold readPacket signatureMissing
  simp only
  split
  next hversion => simp [hversion]
  next hversion =>
    rw [hbody, hsize]
    simp [not_not.mp hversion, and_assoc]

def unsignedFragment : Bytes :=
  [1, 5, 3, 0, 0, 0, 0, 0, 0, 0, 9, 2, 0, 1, 0, 0, 0, 0, 0, 0, 0, 7, 0x61]

/-- Every access is to a byte of its object exactly if a signature that the flags
announce is there. -/
theorem accesses_checked_iff (P : Platform) (ambient : Ambient) (t : Tracker) (origin : ConnPtr)
    (connection : BleConnection) (offset : UInt16) (buffer : Bytes) :
    (∃ result, processWrite P ambient t origin connection offset buffer = .ok result) ↔
      signatureMissing offset buffer = false := by
  rw [processWrite_eq, ← Bool.not_eq_true, ← readPacket_eq_nullSignature_iff P.inflate]
  cases readPacket P.inflate offset buffer with
  | rejected => simp [outcome]
  | nullSignature => simp [outcome]
  | packet p => simp [outcome]

theorem signature_copied_from_null : ¬ ∃ result,
    processWrite .bare .idle { announceAddr := 0 } (.entry 3) {} 0 unsignedFragment =
    .ok result := by
  have hnull : readPacket Platform.bare.inflate 0 unsignedFragment = .nullSignature := by
    decide +kernel
  rw [processWrite_eq, hnull]
  rintro ⟨result, hresult⟩
  cases hresult

end BitchatRepeater.Checked
