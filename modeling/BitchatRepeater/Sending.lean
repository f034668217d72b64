import BitchatRepeater.ProtocolWriter
import BitchatRepeater.Lib.Trace

/-!
# Sending packets

The sending half of `BleConnectionTracker`: `SendPacketToConnection`,
`sendPackets`, the two callbacks that drain the raw queues, and the announce.
The filters of the source are lazy views over containers the loop body changes;
each element is therefore tested against the state its turn finds.
-/

namespace BitchatRepeater.Tracker

open Lib

def setHasData (t : Tracker) : ConnPtr → Tracker
  | .entry k => { t with
      connections := t.connections.modify k fun c => { c with hasDataToSend := true } }
  | .frame _ => t

def queueFor (connection : BleConnection) : RawQueue :=
  if connection.role = .slave then .notify else .write

/-- `SendPacketToConnection`. `target` is where `connection` lies. -/
def sendPacketToConnection (t : Tracker) (address : Addr) (packet : Packet) (target : ConnPtr)
    (connection : BleConnection) : Tracker × List Effect :=
  let h := connection.connectionHandle
  let queue := queueFor connection
  match ProtocolWriter.writePacket t.peers packet with
  | none => (t, [.sendPacketToConnection address target h, .nullDereference])
  | some data =>
    let t := t.setHasData target
    (t.setRawQueue queue ((t.rawQueue queue).emplace h data),
      [.sendPacketToConnection address target h] ++
        (if data.length > connection.btMtu.toNat then [.assertFailed] else []) ++
        [.queueRaw address queue h data, .requestToSend queue h])

-- ---------------------------------------------------------------------------
-- sendPackets
-- ---------------------------------------------------------------------------

def available (connection : BleConnection) : Bool :=
  connection.connected && connection.bitchatCharacteristicValueHandle > 0

def packetSentTo (t : Tracker) (stale : Stale) (packet : Addr) (h : Handle) : Bool :=
  (t.packetsConnectionsSentList.equalRange packet).any fun sentTo =>
    (t.derefConnection stale sentTo.2).connectionHandle = h

def recordSent (t : Tracker) (packet : Addr) (target : ConnPtr) : Tracker :=
  { t with packetsConnectionsSentList := t.packetsConnectionsSentList.emplace packet target }

/-- One element of the targeted list, behind the `packet_needed` filter. -/
def sendTargeted (stale : Stale) (t : Tracker) (item : Addr × ConnPtr) : Tracker × List Effect :=
  let connection := t.derefConnection stale item.2
  if t.packetSentTo stale item.1 connection.connectionHandle then (t, [])
  else
    let (t, out) := t.sendPacketToConnection item.1 (t.derefPacket stale item.1) item.2 connection
    (t.recordSent item.1 item.2, out)

/-- The walk over the sent list starts at the first record of the packet and
stops only at the end of the list. -/
def sendable (t : Tracker) (stale : Stale) (packet : Addr) (connection : BleConnection) : Bool :=
  (t.packetsConnectionsSentList.find packet).all fun sentTo =>
    (t.derefConnection stale sentTo.2).connectionHandle ≠ connection.connectionHandle

/-- One round of the inner broadcast loop: the map entry under `h`. -/
def sendBroadcastTo (stale : Stale) (packet : Addr) (t : Tracker) (h : Handle) :
    Tracker × List Effect :=
  match t.connections.get? h with
  | none => (t, [])
  | some connection =>
    if available connection && t.sendable stale packet connection then
      let (t, out) :=
        t.sendPacketToConnection packet (t.derefPacket stale packet) (.entry h) connection
      (t.recordSent packet (.entry h), out)
    else (t, [])

def sendBroadcast (stale : Stale) (t : Tracker) (packet : Addr) : Tracker × List Effect :=
  run (sendBroadcastTo stale packet) t t.connections.keys

def sentPackets (out : List Effect) : List Addr :=
  out.filterMap fun
    | .sendPacketToConnection a _ _ => some a
    | _ => none

/-- The pass over the targeted list. All entries of a packet go as soon as one
of them was sent. -/
def sendTargetedPackets (stale : Stale) (t : Tracker) : Tracker × List Effect :=
  let pass := run (sendTargeted stale) t t.targetedPacketsToSendList.entries
  ({ pass.1 with
      targetedPacketsToSendList := pass.1.targetedPacketsToSendList.eraseIf fun item =>
        item.1 ∈ sentPackets pass.2 },
    pass.2)

/-- The pass over the broadcast list, from which every packet visited goes. -/
def sendBroadcastPackets (stale : Stale) (t : Tracker) : Tracker × List Effect :=
  let pass := run (sendBroadcast stale) t t.broadcastPacketsToSendList
  ({ pass.1 with
      broadcastPacketsToSendList := pass.1.broadcastPacketsToSendList.filter fun a =>
        a ∉ t.broadcastPacketsToSendList },
    pass.2)

def sendPackets (stale : Stale) (t : Tracker) : Tracker × List Effect :=
  if t.broadcastPacketsToSendList.isEmpty && t.targetedPacketsToSendList.entries.isEmpty then
    (t, [])
  else
    let (t, targeted) := sendTargetedPackets stale t
    let (t, broadcast) := sendBroadcastPackets stale t
    (t, targeted ++ broadcast)

-- ---------------------------------------------------------------------------
-- The raw queues
-- ---------------------------------------------------------------------------

def accepted (status : UInt8) : Bool := status = 0 || status = 2

/-- The first half of both callbacks: the entry at `equal_range(handle).first`
goes to the stack, unless that iterator is `end()`. -/
def handOverFront (queue : RawQueue) (t : Tracker) (h : Handle) (status : UInt8) :
    Tracker × List Effect :=
  match (t.rawQueue queue).lowerBound h with
  | [] => (t, [])
  | (_, data) :: _ =>
    let c := t.connectionAt h
    let t := t.touchConnection h
    (if accepted status then t.setRawQueue queue ((t.rawQueue queue).eraseLowerBound h) else t,
      (if c.hasDataToSend then [] else [.assertFailed]) ++
        [.handOver queue h c.bitchatCharacteristicValueHandle data status])

/-- The body of both callbacks. With nothing left the flag is cleared, but on a
copy of the connection. -/
def sendRawPacket (queue : RawQueue) (t : Tracker) (h : Handle) (status : UInt8) :
    Tracker × List Effect :=
  let (t, out) := handOverFront queue t h status
  if ((t.rawQueue queue).lowerBound h).isEmpty then (t.touchConnection h, out)
  else (t, out ++ [.requestToSend queue h])

def notifyRawPacket (t : Tracker) (h : Handle) (status : UInt8) : Tracker × List Effect :=
  sendRawPacket .notify t h status

def writeRawPacket (t : Tracker) (h : Handle) (status : UInt8) : Tracker × List Effect :=
  sendRawPacket .write t h status

-- ---------------------------------------------------------------------------
-- The announce
-- ---------------------------------------------------------------------------

/-- `memcpy` of the six address bytes into a little-endian 64 bit number. -/
def localSender (P : Platform) : UInt64 :=
  (P.localAddress 0).toUInt64 ||| (P.localAddress 1).toUInt64 <<< 8 |||
    (P.localAddress 2).toUInt64 <<< 16 ||| (P.localAddress 3).toUInt64 <<< 24 |||
    (P.localAddress 4).toUInt64 <<< 32 ||| (P.localAddress 5).toUInt64 <<< 40

def ascii (s : String) : Bytes := s.toList.map fun c => UInt8.ofNat c.toNat

def bitchatServiceName : Bytes := ascii "Repeater"

def localName (P : Platform) : Bytes :=
  bitchatServiceName ++ BinaryWriter.writeUint8Hex16 (P.localAddress 4) ++
    BinaryWriter.writeUint8Hex16 (P.localAddress 5)

def setupAnnounceIfNeeded (P : Platform) (t : Tracker) : Tracker :=
  if t.announce.packetTtl = 3 then t
  else { t with
    announce := { t.announce with
      packetTtl := 3, packetFlags := 0, packetSenderId := localSender P, name := localName P } }

def announceTo (now : UInt64) (stale : Stale) (t : Tracker) (h : Handle) : Tracker :=
  match t.connections.get? h with
  | none => t
  | some connection =>
    if available connection && t.timestampOffsetMs ≥ buildTimeMs &&
        !t.packetSentTo stale t.announceAddr connection.connectionHandle then
      let t := { t with announce := { t.announce with packetTimestamp := t.getTimeMs now } }
      t.enqueueTargetedPacket t.announceAddr t.announce.packetTtl connection
    else t

def announceToConnections (P : Platform) (now : UInt64) (stale : Stale) (t : Tracker) : Tracker :=
  let t := setupAnnounceIfNeeded P t
  t.connections.keys.foldl (announceTo now stale) t

end BitchatRepeater.Tracker
