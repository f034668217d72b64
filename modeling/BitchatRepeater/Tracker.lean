import BitchatRepeater.Connection
import BitchatRepeater.Lib.OrdMap
import BitchatRepeater.Lib.Multimap

/-!
# The tracker: state and stores

The private state of `BleConnectionTracker` and the operations that keep its
stores. Packets are referred to by address: a message or pass-along packet lives
in a map node whose address the allocator chose when the entry was created, so
address order says nothing about age or key. A pointer may outlive its object;
what reading through it yields is then up to the `Stale` memory.

An `assert` that fails is recorded as an effect and the operation goes on, as in
a build with `NDEBUG`; a build without it stops at that effect, so its runs are
beginnings of the runs described here. Reading through a null pointer is
recorded in the same way.
-/

namespace BitchatRepeater

open Lib

abbrev Addr := Nat

/-- A map node: the value and where it lies in memory. -/
structure Node (α : Type) where
  addr : Addr
  val : α
  deriving DecidableEq, Repr

inductive RawQueue
  | notify | write
  deriving DecidableEq, Repr

/-- Calls a run makes that later code or another party can observe. -/
inductive Effect
  /-- `processWrite` stored a packet that arrived on `origin` as new. -/
  | storedNew (packet : Addr) (origin : ConnPtr)
  | storedOwn (packet : Addr)
  | sendPacketToConnection (packet : Addr) (target : ConnPtr) (handle : Handle)
  /-- `raw_packet_to_….emplace(handle, data)`. -/
  | queueRaw (packet : Addr) (queue : RawQueue) (handle : Handle) (data : Bytes)
  /-- `att_server_notify` or `gatt_client_write_value_of_characteristic_without_response`,
  with the status the stack returned. -/
  | handOver (queue : RawQueue) (handle : Handle) (valueHandle : UInt16) (data : Bytes)
      (status : UInt8)
  | requestToSend (queue : RawQueue) (handle : Handle)
  | listen (handle : Handle) (valueHandle : UInt16)
  | stopListening (handle : Handle)
  | gapConnect (address : Bytes) (addressType : AddressType)
  | assertFailed
  | nullDereference
  deriving DecidableEq, Repr

/-- What reads through pointers to objects that no longer exist yield. -/
structure Stale where
  packet : Addr → Packet
  connection : ConnPtr → BleConnection

/-- What one event takes from its surroundings: the reading of `time_us_64()`,
the address the allocator proposes, the stack address of a local connection
object, and the contents of stale memory. -/
structure Ambient where
  now : UInt64
  place : Addr
  frame : Nat
  stale : Stale

def Ambient.idle : Ambient :=
  { now := 0, place := 0, frame := 0,
    stale := { packet := fun _ => .announce Announce.new, connection := fun _ => {} } }

abbrev Peers := OrdMap UInt64 Peer

structure Tracker where
  peers : Peers := .empty
  messages : OrdMap Bytes (Node Message) := .empty
  packets : OrdMap UInt32 (Node PacketPassAlong) := .empty
  announce : Announce := Announce.new
  announceAddr : Addr
  connections : OrdMap Handle BleConnection := .empty
  availableNeighbours : OrdMap Bytes BleConnection := .empty
  rawPacketToNotify : Multimap Handle Bytes := .empty
  rawPacketToWrite : Multimap Handle Bytes := .empty
  timestampOffsetMs : UInt64 := 0
  handlePeerMap : OrdMap Handle UInt64 := .empty
  packetsConnectionsSentList : Multimap Addr ConnPtr := .empty
  packetsPeersSentList : Multimap Addr UInt64 := .empty
  broadcastPacketsToSendList : List Addr := []
  targetedPacketsToSendList : Multimap Addr ConnPtr := .empty

namespace Tracker

-- ---------------------------------------------------------------------------
-- Memory
-- ---------------------------------------------------------------------------

def stored (t : Tracker) : List (Addr × Packet) :=
  t.messages.entries.map (fun e => (e.2.addr, .message e.2.val)) ++
    t.packets.entries.map fun e => (e.2.addr, .passAlong e.2.val)

def packetAt (t : Tracker) (a : Addr) : Option Packet :=
  if a = t.announceAddr then some (.announce t.announce)
  else (t.stored.find? (·.1 = a)).map Prod.snd

def liveAddrs (t : Tracker) : List Addr := t.announceAddr :: t.stored.map Prod.fst

/-- The address of a new node: the proposed one, unless an object is there. -/
def allocate (t : Tracker) (place : Addr) : Addr :=
  if place ∈ t.liveAddrs then t.liveAddrs.foldr max 0 + 1 else place

def derefPacket (t : Tracker) (stale : Stale) (a : Addr) : Packet :=
  (t.packetAt a).getD (stale.packet a)

def derefConnection (t : Tracker) (stale : Stale) : ConnPtr → BleConnection
  | .entry h => (t.connections.get? h).getD (stale.connection (.entry h))
  | .frame a => stale.connection (.frame a)

def rawQueue (t : Tracker) : RawQueue → Multimap Handle Bytes
  | .notify => t.rawPacketToNotify
  | .write => t.rawPacketToWrite

def setRawQueue (t : Tracker) (queue : RawQueue) (m : Multimap Handle Bytes) : Tracker :=
  match queue with
  | .notify => { t with rawPacketToNotify := m }
  | .write => { t with rawPacketToWrite := m }

-- ---------------------------------------------------------------------------
-- Connections
-- ---------------------------------------------------------------------------

/-- The value of `connections[handle]`, which creates a default entry. -/
def connectionAt (t : Tracker) (h : Handle) : BleConnection := (t.connections.get? h).getD {}

def setConnection (t : Tracker) (h : Handle) (c : BleConnection) : Tracker :=
  { t with connections := t.connections.insert h c }

/-- `connections[handle]` evaluated only for its effect on the map. -/
def touchConnection (t : Tracker) (h : Handle) : Tracker := t.setConnection h (t.connectionAt h)

def connectionForConnHandle (t : Tracker) (h : Handle) : Tracker :=
  if t.connections.contains h then t
  else t.setConnection h { t.connectionAt h with connectionHandle := h }

def addAvailablePeer (t : Tracker) (now : UInt64) (address : Bytes) (addressType : AddressType)
    (services : ServiceUuidCheckStatus) (rssi : Int) : Tracker :=
  let c := (t.availableNeighbours.get? address).getD {}
  { t with
    availableNeighbours := t.availableNeighbours.insert address
      { c with btAddress := address, btAddressType := addressType, servicesFound := services,
               rssi := rssi, lastSeenTime := now } }

/-- The overload without a role. -/
def reportConnection (t : Tracker) (now : UInt64) (h : Handle) (address : Bytes)
    (addressType : AddressType) : Tracker :=
  let c := (t.availableNeighbours.get? address).getD (t.connectionAt h)
  { t with
    connections := t.connections.insert h
      { c with connectionHandle := h, connected := true, btAddress := address,
               btAddressType := addressType, lastSeenTime := now }
    availableNeighbours := t.availableNeighbours.erase address }

def reportConnectionRole (t : Tracker) (now : UInt64) (h : Handle) (address : Bytes)
    (addressType : AddressType) (role : Role) : Tracker × List Effect :=
  let t := t.reportConnection now h address addressType
  let c := { t.connectionAt h with role := role }
  (t.setConnection h c,
    if role = .master then [.listen h c.bitchatCharacteristicValueHandle] else [])

/-- The predicate compares with the address of the connection captured by
value, which is the closure's own copy in the stack frame. -/
def reportDisconnection (t : Tracker) (frame : Nat) (h : Handle) : Tracker × List Effect :=
  let c := { t.connectionAt h with notificationEnabled := false, connected := false }
  ({ t.setConnection h c with
      handlePeerMap := t.handlePeerMap.erase h
      packetsConnectionsSentList := t.packetsConnectionsSentList.eraseIf fun item =>
        item.1 = t.announceAddr && item.2 = .frame frame },
    if c.role = .master then [.stopListening h] else [])

def buildTimeMs : UInt64 := 1755685519

def getConnectableNeighbours (t : Tracker) : List BleConnection :=
  (t.availableNeighbours.entries.map Prod.snd).filter fun c =>
    (t.timestampOffsetMs ≥ buildTimeMs || c.isRepeater) && c.connected == false && !c.isRandom

def setConnectionStarted (t : Tracker) (neighbour : BleConnection) : Tracker :=
  { t with availableNeighbours := t.availableNeighbours.erase neighbour.btAddress }

def getConnectionForAddress (t : Tracker) (address : Bytes) : Option BleConnection :=
  (t.connections.entries.map Prod.snd).find? fun c => c.connected && c.btAddress = address

-- ---------------------------------------------------------------------------
-- Peers
-- ---------------------------------------------------------------------------

def checkSenderInPeers (peers : Peers) (sender : UInt64) : Peers :=
  if peers.contains sender then peers else peers.insert sender { id := sender }

def updatePeer (peers : Peers) (sender : UInt64) (f : Peer → Peer) : Peers :=
  (checkSenderInPeers peers sender).modify sender f

def setConnectionHandleForPeer (t : Tracker) (h : Handle) (peer : UInt64) : Tracker :=
  { t with handlePeerMap := t.handlePeerMap.insert h peer }

/-- The loop of `getAnyDuplicateHandle`; `reversed` reads as 0 where unset. -/
def duplicateHandle (t : Tracker) : List (UInt64 × Handle) → List (Handle × UInt64) →
    Option (Handle × Handle)
  | _, [] => none
  | reversed, (h, peer) :: rest =>
    let seen := (reversed.lookup peer).getD 0
    if seen ≠ 0 then some (seen, h) else t.duplicateHandle ((peer, h) :: reversed) rest

def getAnyDuplicateHandle (t : Tracker) : Tracker × Handle :=
  match t.duplicateHandle [] t.handlePeerMap.entries with
  | none => (t, 0)
  | some (seen, h) =>
    let t := (t.touchConnection seen).touchConnection h
    (t, if (t.connectionAt seen).lastSeenTime < (t.connectionAt h).lastSeenTime then seen else h)

-- ---------------------------------------------------------------------------
-- Packet stores and queues
-- ---------------------------------------------------------------------------

def storeMessageAndReturnIfNew (t : Tracker) (place : Addr) (message : Message) :
    Tracker × Option Addr :=
  if t.messages.contains message.messageId then (t, none)
  else
    let a := t.allocate place
    ({ t with messages := t.messages.insert message.messageId ⟨a, message⟩ }, some a)

def storePacketAndReturnIfNew (t : Tracker) (hash : Bytes → UInt32) (place : Addr)
    (passAlong : PacketPassAlong) : Tracker × Option Addr :=
  if t.packets.contains (passAlong.packetHash hash) then (t, none)
  else
    let a := t.allocate place
    ({ t with packets := t.packets.insert (passAlong.packetHash hash) ⟨a, passAlong⟩ }, some a)

def enqueueTargetedPacket (t : Tracker) (packet : Addr) (ttl : UInt8) (target : BleConnection) :
    Tracker :=
  if ttl > 0 then
    let t := t.connectionForConnHandle target.connectionHandle
    { t with targetedPacketsToSendList :=
        t.targetedPacketsToSendList.emplace packet (.entry target.connectionHandle) }
  else t

def enqueueBroadcastPacket (t : Tracker) (packet : Addr) (ttl : UInt8) : Tracker :=
  if ttl > 0 then
    { t with broadcastPacketsToSendList := t.broadcastPacketsToSendList ++ [packet] }
  else t

/-- The overload that records where the packet came from. -/
def enqueueBroadcastPacketFrom (t : Tracker) (packet : Addr) (ttl : UInt8) (origin : ConnPtr)
    (peer : UInt64) : Tracker :=
  { t with
    packetsConnectionsSentList := t.packetsConnectionsSentList.emplace packet origin
    packetsPeersSentList := t.packetsPeersSentList.emplace packet peer
    : Tracker }.enqueueBroadcastPacket packet ttl

-- ---------------------------------------------------------------------------
-- Time
-- ---------------------------------------------------------------------------

def getTimeMs (t : Tracker) (now : UInt64) : UInt64 := t.timestampOffsetMs + now / 1000

def messageTimeout : UInt64 := 300000

/-- `diff` is signed in the source; as a 64 bit pattern it is negative from `2 ^ 63` on. -/
def possiblyUpdateTimeOffset (t : Tracker) (now timestampMs : UInt64) : Tracker :=
  let ourNow := t.getTimeMs now
  let diff := timestampMs - ourNow
  let diffAbs := if diff < 0x8000000000000000 then diff else 0 - diff
  if diffAbs > messageTimeout || timestampMs > ourNow then
    { t with timestampOffsetMs := t.timestampOffsetMs + diff }
  else t

-- ---------------------------------------------------------------------------
-- Cleanup
-- ---------------------------------------------------------------------------

def tenMinutesInMs : UInt64 := 600000

/-- The test on list entries reads the undivided timestamp. -/
def packetConnectionStale (t : Tracker) (stale : Stale) (now : UInt64) (item : Addr × ConnPtr) :
    Bool :=
  let packet := (t.derefPacket stale item.1).base
  let connection := t.derefConnection stale item.2
  packet.packetTimestamp + tenMinutesInMs < now ||
    !connection.connected && connection.timestampMs + tenMinutesInMs < now

def packetStale (now : UInt64) (packet : PacketBase) : Bool :=
  packet.packetTimestampMs + tenMinutesInMs < now

def connectionStale (now : UInt64) (connection : BleConnection) : Bool :=
  !connection.connected && connection.timestampMs + tenMinutesInMs < now

def cleanupStaleItems (t : Tracker) (stale : Stale) (time : UInt64) : Tracker :=
  let now := t.getTimeMs time
  let itemStale := t.packetConnectionStale stale now
  let addrStale a := packetStale now (t.derefPacket stale a).base
  { t with
    packetsConnectionsSentList := t.packetsConnectionsSentList.eraseIf itemStale
    packetsPeersSentList := t.packetsPeersSentList.eraseIf fun item => addrStale item.1
    broadcastPacketsToSendList := t.broadcastPacketsToSendList.filter fun a => !addrStale a
    targetedPacketsToSendList := t.targetedPacketsToSendList.eraseIf itemStale
    connections := t.connections.eraseIf fun e => connectionStale now e.2
    availableNeighbours := t.availableNeighbours.eraseIf fun e => connectionStale now e.2
    messages := t.messages.eraseIf fun e => packetStale now e.2.val.toPacketBase
    packets := t.packets.eraseIf fun e => packetStale now e.2.val.toPacketBase }

end Tracker

end BitchatRepeater
