import BitchatRepeater.Tracker

/-!
# Receiving packets

`ProtocolProcessor`. `readPacket` is the part of `processWrite` that takes the
buffer apart, `dispatch` its `switch` over the packet type.
-/

namespace BitchatRepeater.ProtocolProcessor

open Lib Tracker

-- ---------------------------------------------------------------------------
-- Message payloads
-- ---------------------------------------------------------------------------

/-- A hex digit before masking: letters have the bit of `'@'` set. -/
def hexDigit (c : UInt8) : UInt8 := if c &&& 0x40 ≠ 0 then c + 9 else c

def hexByte (high low : UInt8) : UInt8 := hexDigit high <<< 4 ||| hexDigit low &&& 0xF

/-- The loop over the digits: two per round, `shiftBy` falling by 8. -/
def hexPeerId : UInt64 → UInt64 → Bytes → UInt64
  | peerId, shiftBy, high :: low :: rest =>
    hexPeerId (peerId ||| (hexByte high low).toUInt64 <<< shiftBy) (shiftBy - 8) rest
  | peerId, _, _ => peerId

def readFlagged (flag : Message → Bool) (store : Message → Bytes → Message) :
    Message × BinaryReader → Option (Message × BinaryReader)
  | (message, reader) =>
    if flag message then
      reader.readField.map fun field => (store message field.1, field.2)
    else some (message, reader)

def readMessageStart (message : Message) (reader : BinaryReader) :
    Option (Message × BinaryReader) := do
  let (flags, reader) := reader.readUint8
  let (timestamp, reader) := reader.readUint64
  let (id, reader) ← reader.readField
  let (sender, reader) ← reader.readField
  let (contentLen, reader) := reader.readUint16
  let (content, reader) ← reader.readData contentLen.toNat
  let message := { message with
    messageFlags := flags, messageTimestamp := timestamp,
    messageId := id, senderNickname := sender }
  if message.isEncrypted then some ({ message with encryptedContent := content }, reader)
  else some ({ message with content := content }, reader)

def readNicknames (message : Message × BinaryReader) : Option (Message × BinaryReader) := do
  let message ← readFlagged Message.hasOriginalSender
    (fun m s => { m with originalSenderNickname := s }) message
  readFlagged Message.hasRecipientNickname (fun m s => { m with recipientNickname := s }) message

/-- The sender peer field. Only a text of 16 characters names a peer, which is
then entered into the table at once. -/
def readSenderPeer (peers : Peers) (message : Message) (reader : BinaryReader) :
    Option (Peers × Message × BinaryReader) :=
  if message.hasSenderPeerID then
    reader.readField.map fun (text, reader) =>
      if text.length = 16 then
        let peerId := hexPeerId 0 56 text
        (checkSenderInPeers peers peerId, { message with senderPeer := some peerId }, reader)
      else (peers, message, reader)
  else some (peers, message, reader)

def readMentionList : Nat → Message × BinaryReader → Option (Message × BinaryReader)
  | 0, message => some message
  | n + 1, (message, reader) => do
    let (mention, reader) ← reader.readField
    readMentionList n ({ message with mentions := message.mentions ++ [mention] }, reader)

def readMentions : Message × BinaryReader → Option (Message × BinaryReader)
  | (message, reader) =>
    if message.hasMentions then
      readMentionList reader.readUint8.1.toNat (message, reader.readUint8.2)
    else some (message, reader)

def readChannel : Message × BinaryReader → Option (Message × BinaryReader) :=
  readFlagged Message.hasChannel fun m s => { m with channel := s }

/-- The peer table and, when the payload is accepted, the filled-in message. A
payload rejected behind the sender peer field leaves that peer in the table. Like
the reader, the test is given the length in 16 bits. -/
def processMessage (peers : Peers) (message : Message) (payload : Bytes) :
    Peers × Option Message :=
  if payload.length % 2 ^ 16 < 13 then (peers, none)
  else
    match readMessageStart message (BinaryReader.new 0 payload) >>= readNicknames with
    | none => (peers, none)
    | some (message, reader) =>
      match readSenderPeer peers message reader with
      | none => (peers, none)
      | some (peers, message) => (peers, (readMentions message >>= readChannel).map Prod.fst)

-- ---------------------------------------------------------------------------
-- Packets
-- ---------------------------------------------------------------------------

structure Header where
  type : UInt8
  ttl : UInt8
  timestampMs : UInt64
  packetFlags : UInt8
  payloadLength : UInt16
  sender : UInt64
  recipient : UInt64
  deriving DecidableEq, Repr

/-- A packet taken apart; the payload is as `processWrite` goes on to use it. -/
structure Incoming extends Header where
  payload : Bytes
  signature : Bytes
  deriving DecidableEq, Repr

def Incoming.message (p : Incoming) : Message :=
  Message.new p.ttl p.timestampMs p.packetFlags p.sender p.recipient p.signature

def Incoming.passAlong (p : Incoming) : PacketPassAlong :=
  { packetType := p.type, packetTtl := p.ttl, packetTimestamp := p.timestampMs,
    packetFlags := p.packetFlags, packetSenderId := p.sender, packetRecipientId := p.recipient,
    packetSignature := p.signature, payload := p.payload }

inductive ReadOutcome
  | rejected
  /-- The signature is copied from the null pointer `read_data` returned. -/
  | nullSignature
  | packet (p : Incoming)
  deriving DecidableEq, Repr

def readHeader (reader : BinaryReader) : Header × BinaryReader :=
  let (type, reader) := reader.readUint8
  let (ttl, reader) := reader.readUint8
  let (timestampMs, reader) := reader.readUint64
  let (packetFlags, reader) := reader.readUint8
  let (payloadLength, reader) := reader.readUint16
  let (sender, reader) := reader.readUint64
  let (recipient, reader) :=
    if hasFlag packetFlags packetFlagHasRecipient then reader.readUint64 else (0, reader)
  ({ type, ttl, timestampMs, packetFlags, payloadLength, sender, recipient }, reader)

/-- `libdeflate_zlib_decompress` into `avail` bytes. -/
def zlibDecompress (inflate : Bytes → Option Bytes) (body : Bytes) (avail : Nat) : Option Bytes :=
  (inflate body).filter (·.length ≤ avail)

/-- The decompressed payload if there is one and it is not empty, else the body as it came. -/
def decompressed (inflate : Bytes → Option Bytes) (body : Bytes) (originalSize : Nat) : Bytes :=
  match zlibDecompress inflate body originalSize with
  | some plain => if plain.length > 0 then plain else body
  | none => body

/-- The payload, behind the original size when the packet is compressed. The
length covers those two bytes; taking them off wraps below two. -/
def readPayload (inflate : Bytes → Option Bytes) (header : Header) (reader : BinaryReader) :
    Option (Bytes × BinaryReader) :=
  if hasFlag header.packetFlags packetFlagIsCompressed then
    let (originalSize, reader) := reader.readUint16
    (reader.readData (header.payloadLength - 2).toNat).map fun body =>
      (decompressed inflate body.1 originalSize.toNat, body.2)
  else reader.readData header.payloadLength.toNat

def readSignature (header : Header) (payload : Bytes) (reader : BinaryReader) : ReadOutcome :=
  if hasFlag header.packetFlags packetFlagHasSignature then
    match reader.readData 64 with
    | none => .nullSignature
    | some (signature, _) => .packet { header with payload, signature }
  else .packet { header with payload, signature := [] }

def readBody (inflate : Bytes → Option Bytes) (header : Header) (reader : BinaryReader) :
    ReadOutcome :=
  match readPayload inflate header reader with
  | none => .rejected
  | some (payload, reader) => readSignature header payload reader

def readPacket (inflate : Bytes → Option Bytes) (offset : UInt16) (buffer : Bytes) : ReadOutcome :=
  let (version, reader) := (BinaryReader.new offset buffer).readUint8
  if version ≠ 1 then .rejected
  else
    let (header, reader) := readHeader reader
    readBody inflate header reader

def updateOrStorePeerName (t : Tracker) (sender : UInt64) (peerName : Bytes) (ttl : UInt8)
    (connection : BleConnection) : Tracker :=
  let peers := updatePeer t.peers sender fun peer => { peer with name := peerName }
  let maxTtl := ((peers.get? sender).map Peer.maxTtl).getD 0
  if ttl ≥ maxTtl then
    { t with peers := peers.modify sender fun peer => { peer with maxTtl := ttl }
      : Tracker }.setConnectionHandleForPeer connection.connectionHandle sender
  else { t with peers := peers }

def updateOrStorePeerNoisePublicKey (t : Tracker) (sender : UInt64) (publicKey : Bytes) : Tracker :=
  { t with peers := updatePeer t.peers sender fun peer => { peer with publicKey := publicKey } }

def handleMessage (ambient : Ambient) (t : Tracker) (origin : ConnPtr) (p : Incoming) :
    Tracker × List Effect :=
  let (peers, accepted) := processMessage (checkSenderInPeers t.peers p.sender) p.message p.payload
  let t := { t with peers := peers }
  match accepted with
  | none => (t, [])
  | some message =>
    match t.storeMessageAndReturnIfNew ambient.place message with
    | (t, none) => (t, [])
    | (t, some a) =>
      (t.enqueueBroadcastPacketFrom a message.packetTtl origin p.sender, [.storedNew a origin])

def handlePassAlong (hash : Bytes → UInt32) (ambient : Ambient) (t : Tracker) (origin : ConnPtr)
    (p : Incoming) : Tracker × List Effect :=
  if p.ttl < 1 then (t, [])
  else
    let t := { t with peers := checkSenderInPeers t.peers p.sender }
    match t.storePacketAndReturnIfNew hash ambient.place p.passAlong with
    | (t, none) => (t, [])
    | (t, some a) =>
      (t.enqueueBroadcastPacketFrom a p.passAlong.packetTtl origin p.sender, [.storedNew a origin])

def handleAnnounce (ambient : Ambient) (t : Tracker) (connection : BleConnection) (p : Incoming) :
    Tracker :=
  (updateOrStorePeerName t p.sender p.payload p.ttl connection).possiblyUpdateTimeOffset
    ambient.now p.timestampMs

def dispatch (P : Platform) (ambient : Ambient) (t : Tracker) (origin : ConnPtr)
    (connection : BleConnection) (p : Incoming) : Tracker × List Effect :=
  match PacketType.ofCode? p.type with
  | some .noiseIdentityAnnounce => (updateOrStorePeerNoisePublicKey t p.sender p.payload, [])
  | some .typeMessage => handleMessage ambient t origin p
  | some .typeAnnounce =>
    handlePassAlong P.hash ambient (handleAnnounce ambient t connection p) origin p
  | some type => if type.passAlong then handlePassAlong P.hash ambient t origin p else (t, [])
  | none => (t, [])

/-- `origin` is the address passed as `&connection`, `connection` the object there. -/
def processWrite (P : Platform) (ambient : Ambient) (t : Tracker) (origin : ConnPtr)
    (connection : BleConnection) (offset : UInt16) (buffer : Bytes) : Tracker × List Effect :=
  match readPacket P.inflate offset buffer with
  | .rejected => (t, [])
  | .nullSignature => (t, [.nullDereference])
  | .packet p => dispatch P ambient t origin connection p

end BitchatRepeater.ProtocolProcessor
