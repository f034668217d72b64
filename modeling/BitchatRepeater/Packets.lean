import BitchatRepeater.Wire

/-!
# Packets, messages and peers

The value types of `Bitchat/`: packet types and flags, `PacketBase` and its
three subclasses, and `Peer`. A `Peer *` is the peer's key in the tracker's
table, from which no peer is ever removed; the null pointer is `none`.
-/

namespace BitchatRepeater

open Lib

-- ---------------------------------------------------------------------------
-- Packet types and flags
-- ---------------------------------------------------------------------------

inductive PacketType
  | typeUnknown | typeAnnounce | typeLeave | typeMessage | typeFragmentStart
  | fragmentContinue | fragmentEnd | channelAnnounce | channelRetention
  | deliveryAck | deliveryStatusRequest | readReceipt
  | noiseHandshakeInit | noiseHandshakeResp | noiseEncrypted | noiseIdentityAnnounce
  | channelKeyVerifyRequest | channelKeyVerifyResponse | channelPasswordUpdate | channelMetadata
  | versionHello | versionAck
  | protocolAck | protocolNack | systemValidation | handshakeRequest
  | favorited | unfavorited
  deriving DecidableEq, Repr

namespace PacketType

def code : PacketType → UInt8
  | typeUnknown => 0x00
  | typeAnnounce => 0x01
  | typeLeave => 0x03
  | typeMessage => 0x04
  | typeFragmentStart => 0x05
  | fragmentContinue => 0x06
  | fragmentEnd => 0x07
  | channelAnnounce => 0x08
  | channelRetention => 0x09
  | deliveryAck => 0x0A
  | deliveryStatusRequest => 0x0B
  | readReceipt => 0x0C
  | noiseHandshakeInit => 0x10
  | noiseHandshakeResp => 0x11
  | noiseEncrypted => 0x12
  | noiseIdentityAnnounce => 0x13
  | channelKeyVerifyRequest => 0x14
  | channelKeyVerifyResponse => 0x15
  | channelPasswordUpdate => 0x16
  | channelMetadata => 0x17
  | versionHello => 0x20
  | versionAck => 0x21
  | protocolAck => 0x22
  | protocolNack => 0x23
  | systemValidation => 0x24
  | handshakeRequest => 0x25
  | favorited => 0x30
  | unfavorited => 0x31

def all : List PacketType :=
  [typeUnknown, typeAnnounce, typeLeave, typeMessage, typeFragmentStart, fragmentContinue,
    fragmentEnd, channelAnnounce, channelRetention, deliveryAck, deliveryStatusRequest,
    readReceipt, noiseHandshakeInit, noiseHandshakeResp, noiseEncrypted, noiseIdentityAnnounce,
    channelKeyVerifyRequest, channelKeyVerifyResponse, channelPasswordUpdate, channelMetadata,
    versionHello, versionAck, protocolAck, protocolNack, systemValidation, handshakeRequest,
    favorited, unfavorited]

/-- The enumerator a type byte names, if any; a `switch` on the byte matches on this. -/
def ofCode? (c : UInt8) : Option PacketType := all.find? (·.code = c)

@[simp] theorem ofCode?_code (t : PacketType) : ofCode? t.code = some t := by
  cases t <;> decide

theorem code_inj (h : code t = code t') : t = t' :=
  Option.some.inj (by rw [← ofCode?_code t, h, ofCode?_code])

theorem code_of_ofCode? (h : ofCode? c = some t) : t.code = c := by
  simpa using List.find?_some h

/-- The labels of `processWrite` that fall into its pass-along block. -/
def passAlong : PacketType → Bool
  | typeAnnounce | typeFragmentStart | fragmentContinue | fragmentEnd | deliveryAck
  | deliveryStatusRequest | readReceipt | noiseHandshakeInit | noiseHandshakeResp
  | noiseEncrypted | channelKeyVerifyRequest | channelKeyVerifyResponse
  | channelPasswordUpdate | channelMetadata => true
  | _ => false

end PacketType

def packetFlagHasRecipient : UInt8 := 0x01
def packetFlagHasSignature : UInt8 := 0x02
def packetFlagIsCompressed : UInt8 := 0x04

def hasFlag (flags mask : UInt8) : Bool := flags &&& mask != 0

-- ---------------------------------------------------------------------------
-- Packets
-- ---------------------------------------------------------------------------

structure PacketBase where
  packetType : UInt8
  packetTtl : UInt8 := 0
  packetTimestamp : UInt64 := 0
  packetFlags : UInt8 := 0
  packetSenderId : UInt64 := 0
  packetRecipientId : UInt64 := 0
  packetSignature : Bytes := []
  deriving DecidableEq, Repr

namespace PacketBase

/-- The timestamp is already in milliseconds; the accessor divides nevertheless. -/
def packetTimestampMs (p : PacketBase) : UInt64 := p.packetTimestamp / 1000

def hasPacketRecipient (p : PacketBase) : Bool := hasFlag p.packetFlags packetFlagHasRecipient

def hasPacketSignature (p : PacketBase) : Bool := hasFlag p.packetFlags packetFlagHasSignature

end PacketBase

structure Announce extends PacketBase where
  name : Bytes := []
  deriving DecidableEq, Repr

def Announce.new : Announce := { packetType := PacketType.typeAnnounce.code }

structure PacketPassAlong extends PacketBase where
  payload : Bytes := []
  deriving DecidableEq, Repr

/-- `std::hash<std::string>` is a parameter; `std::size_t` has 32 bits on the target. -/
def PacketPassAlong.packetHash (hash : Bytes → UInt32) (p : PacketPassAlong) : UInt32 :=
  -- the ttl is left out so that the same packet going around again is recognised
  let metaString := BinaryWriter.writeUint8 p.packetType ++ BinaryWriter.writeUint8 p.packetFlags ++
    BinaryWriter.writeUint64 p.packetTimestamp ++ BinaryWriter.writeUint64 p.packetSenderId ++
    BinaryWriter.writeUint64 p.packetRecipientId
  hash p.payload ^^^ (hash metaString <<< 1)

structure Message extends PacketBase where
  messageFlags : UInt8 := 0
  messageTimestamp : UInt64 := 0
  messageId : Bytes := []
  senderNickname : Bytes := []
  originalSenderNickname : Bytes := []
  content : Bytes := []
  encryptedContent : Bytes := []
  recipientNickname : Bytes := []
  senderPeer : Option UInt64 := none
  mentions : List Bytes := []
  channel : Bytes := []
  deriving DecidableEq, Repr

namespace Message

def new (ttl : UInt8) (timestamp : UInt64) (packetFlags : UInt8) (sender recipient : UInt64)
    (signature : Bytes) : Message :=
  { packetType := PacketType.typeMessage.code, packetTtl := ttl, packetTimestamp := timestamp,
    packetFlags, packetSenderId := sender, packetRecipientId := recipient,
    packetSignature := signature }

def hasOriginalSender (m : Message) : Bool := hasFlag m.messageFlags 0x04
def hasRecipientNickname (m : Message) : Bool := hasFlag m.messageFlags 0x08
def hasSenderPeerID (m : Message) : Bool := hasFlag m.messageFlags 0x10
def hasMentions (m : Message) : Bool := hasFlag m.messageFlags 0x20
def hasChannel (m : Message) : Bool := hasFlag m.messageFlags 0x40
def isEncrypted (m : Message) : Bool := hasFlag m.messageFlags 0x80

end Message

inductive Packet
  | announce (a : Announce)
  | message (m : Message)
  | passAlong (p : PacketPassAlong)
  deriving DecidableEq, Repr

def Packet.base : Packet → PacketBase
  | .announce a => a.toPacketBase
  | .message m => m.toPacketBase
  | .passAlong p => p.toPacketBase

-- ---------------------------------------------------------------------------
-- Peers
-- ---------------------------------------------------------------------------

structure Peer where
  id : UInt64 := 0
  name : Bytes := []
  publicKey : Bytes := []
  maxTtl : UInt8 := 0
  deriving DecidableEq, Repr

/-- What the platform supplies and `src` does not contain: the string hash of
the standard library, zlib, the device's own address (least significant byte
first) and the attribute handle generated from the GATT description. -/
structure Platform where
  hash : Bytes → UInt32
  /-- The plain text of a zlib stream; `none` for a malformed one. -/
  inflate : Bytes → Option Bytes
  localAddress : Fin 6 → UInt8
  valueHandle : UInt16

def Platform.bare : Platform :=
  { hash := fun bytes => bytes.foldl (fun h b => h * 31 + b.toUInt32) 7, inflate := fun _ => none,
    localAddress := fun _ => 0, valueHandle := 1 }

end BitchatRepeater
