import BitchatRepeater.Tracker

/-!
# Writing packets

`ProtocolWriter`. Undefined behaviour in the writer (a null sender peer, or a
downcast to a class the object does not have) yields no bytes.
-/

namespace BitchatRepeater.ProtocolWriter

open Lib BinaryWriter

def senderPeerId (peers : Peers) (message : Message) : Option UInt64 :=
  (message.senderPeer.bind peers.get?).map Peer.id

def writeContent (content : Bytes) : Bytes :=
  let len := min 65535 content.length
  writeUint16 (UInt16.ofNat len) ++ writeData content len

/-- The count is clamped to one byte, the loop is not. -/
def writeMentions (mentions : List Bytes) : Bytes :=
  writeUint8 (UInt8.ofNat (min 255 mentions.length)) ++ mentions.flatMap writeField

def writeSenderPeer (peers : Peers) (message : Message) : Option Bytes :=
  if message.hasSenderPeerID then
    (senderPeerId peers message).map fun id => writeUint8 16 ++ writeUint64Hex16 id
  else some []

/-- Always the plain content, also of an encrypted message. -/
def writeMessagePayload (peers : Peers) (message : Message) : Option Bytes :=
  (writeSenderPeer peers message).map fun senderPeer =>
    writeUint8 message.messageFlags ++ writeUint64 message.messageTimestamp ++
    writeField message.messageId ++ writeField message.senderNickname ++
    writeContent message.content ++
    (if message.hasOriginalSender then writeField message.originalSenderNickname else []) ++
    (if message.hasRecipientNickname then writeField message.recipientNickname else []) ++
    senderPeer ++
    (if message.hasMentions then writeMentions message.mentions else []) ++
    (if message.hasChannel then writeField message.channel else [])

/-- `static_cast<const Announce *>`, then `getName()`. A stored announce is a
`PacketPassAlong` object, whose string lies where `Announce` has its name. -/
def announceName : Packet → Option Bytes
  | .announce a => some a.name
  | .passAlong p => some p.payload
  | .message _ => none

def passAlongPayload : Packet → Option Bytes
  | .passAlong p => some p.payload
  | _ => none

def writePayload (peers : Peers) (packet : Packet) : Option Bytes :=
  match PacketType.ofCode? packet.base.packetType with
  | some .typeAnnounce => (announceName packet).map fun name => writeData name name.length
  | some .typeMessage =>
    match packet with
    | .message m => writeMessagePayload peers m
    | _ => none
  | _ => (passAlongPayload packet).map fun payload => writeData payload payload.length

/-- The signature goes out behind a length byte. -/
def writeSignature (base : PacketBase) : Bytes :=
  if base.hasPacketSignature then
    let len := min 255 base.packetSignature.length
    writeUint8 (UInt8.ofNat len) ++ writeData base.packetSignature len
  else []

def writePacket (peers : Peers) (packet : Packet) : Option Bytes :=
  (writePayload peers packet).map fun payload =>
    let base := packet.base
    let payloadLen := min 65535 payload.length
    writeUint8 1 ++ writeUint8 base.packetType ++
    -- packets are only relayed, so writing one takes a hop off
    writeUint8 (base.packetTtl - 1) ++
    writeUint64 base.packetTimestamp ++ writeUint8 base.packetFlags ++
    writeUint16 (UInt16.ofNat payloadLen) ++ writeUint64 base.packetSenderId ++
    (if base.hasPacketRecipient then writeUint64 base.packetRecipientId else []) ++
    writeData payload payloadLen ++ writeSignature base ++
    writeUint8 0

end BitchatRepeater.ProtocolWriter
