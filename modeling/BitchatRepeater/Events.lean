import BitchatRepeater.ProtocolProcessor
import BitchatRepeater.Sending

/-!
# The program's events

The event handlers and main-loop actions of `main.cpp` that reach the tracker,
as one step function. Scanning, advertising, logging and timers are left out:
any event may happen at any time, at any reading of the clock, with any
contents of stale memory.
-/

namespace BitchatRepeater

open Lib Tracker

inductive AttHandle
  | clientConfiguration | value | other
  deriving DecidableEq, Repr

structure GattService where
  uuid16 : UInt16
  uuid128 : Bytes
  startGroupHandle : UInt16
  endGroupHandle : UInt16
  deriving DecidableEq, Repr

structure GattCharacteristic where
  uuid16 : UInt16
  uuid128 : Bytes
  valueHandle : UInt16
  deriving DecidableEq, Repr

def bitchatServiceUuid : Bytes :=
  [0xF4, 0x7B, 0x5E, 0x2D, 0x4A, 0x9E, 0x4C, 0x5A, 0x9B, 0x3F, 0x8E, 0x1D, 0x2C, 0x3A, 0x4B, 0x5C]

def bitchatCharacteristicUuid : Bytes :=
  [0xA1, 0xB2, 0xC3, 0xD4, 0xE5, 0xF6, 0x4A, 0x5B, 0x8C, 0x9D, 0x0E, 0x1F, 0x2A, 0x3B, 0x4C, 0x5D]

inductive Event
  /-- `att_write_callback`; `transaction` if the mode is not `ATT_TRANSACTION_MODE_NONE`. -/
  | attWrite (h : Handle) (transaction : Bool) (att : AttHandle) (offset : UInt16) (buffer : Bytes)
  /-- `GATT_EVENT_NOTIFICATION` in `handle_gatt_client_value_update_event`. -/
  | gattNotification (h : Handle) (value : Bytes)
  | gattMtu (h : Handle) (mtu : UInt16)
  | gattServiceQueryResult (h : Handle) (service : GattService)
  | gattCharacteristicQueryResult (h : Handle) (characteristic : GattCharacteristic)
  | gattQueryComplete (h : Handle)
  | rssiMeasurement (h : Handle)
  | advertisingReport (address : Bytes) (addressType : AddressType)
      (services : ServiceUuidCheckStatus) (rssi : Int)
  | connectionComplete (h : Handle) (address : Bytes) (addressType : AddressType) (role : Role)
  | attConnected (h : Handle) (address : Bytes) (addressType : AddressType)
  | disconnected (h : Handle)
  | canSendNotification (h : Handle) (status : UInt8)
  | canWriteWithoutResponse (h : Handle) (status : UInt8)
  /-- `handlePinActivity` with the life check requested. -/
  | lifeCheck
  | announceToConnections
  | connectToFirstNeighbour (err : UInt8)
  | getAnyDuplicateHandle
  | sendPackets
  | cleanupStaleItems
  deriving DecidableEq, Repr

structure Input where
  event : Event
  ambient : Ambient

namespace BleConnection

def storeHandlesIfServiceMatches (c : BleConnection) (s : GattService) : BleConnection :=
  if s.uuid128 = bitchatServiceUuid then
    { c with
      bitchatServiceStartGroupHandle := s.startGroupHandle
      bitchatServiceEndGroupHandle := s.endGroupHandle }
  else c

def storeHandlesIfCharacteristicMatches (c : BleConnection) (s : GattCharacteristic) :
    BleConnection :=
  if s.uuid128 = bitchatCharacteristicUuid then
    { c with bitchatCharacteristicValueHandle := s.valueHandle }
  else c

end BleConnection

def Tracker.updateConnection (t : Tracker) (h : Handle) (f : BleConnection → BleConnection) :
    Tracker :=
  let t := t.connectionForConnHandle h
  { t with connections := t.connections.modify h f }

/-- A write to the client configuration; notifications are on if it reads 1. -/
def setClientConfiguration (P : Platform) (buffer : Bytes) (c : BleConnection) : BleConnection :=
  let enabled := buffer.getD 0 0 = 1 ∧ buffer.getD 1 0 = 0
  if enabled then
    { c with notificationEnabled := true, bitchatCharacteristicValueHandle := P.valueHandle }
  else { c with notificationEnabled := false }

def attWriteCallback (P : Platform) (ambient : Ambient) (t : Tracker) (h : Handle)
    (transaction : Bool) (att : AttHandle) (offset : UInt16) (buffer : Bytes) :
    Tracker × List Effect :=
  if transaction then (t, [])
  else
    match att with
    | .clientConfiguration => (t.updateConnection h (setClientConfiguration P buffer), [])
    | .value =>
      let t := t.connectionForConnHandle h
      ProtocolProcessor.processWrite P ambient t (.entry h) (t.connectionAt h) offset buffer
    | .other => (t.connectionForConnHandle h, [])

/-- The handler works on a copy of the connection, whose address it passes on. -/
def valueUpdate (P : Platform) (ambient : Ambient) (t : Tracker) (h : Handle) (value : Bytes) :
    Tracker × List Effect :=
  let t := t.connectionForConnHandle h
  ProtocolProcessor.processWrite P ambient t (.frame ambient.frame) (t.connectionAt h) 0 value

def connectToFirstNeighbour (t : Tracker) (err : UInt8) : Tracker × List Effect :=
  match t.getConnectableNeighbours with
  | [] => (t, [])
  | neighbour :: _ =>
    if (t.getConnectionForAddress neighbour.btAddress).isSome then (t, [])
    else
      (if err = 0 then t.setConnectionStarted neighbour else t,
        [.gapConnect neighbour.btAddress neighbour.btAddressType])

def stillAliveMessage (P : Platform) (timestampMs : UInt64) : Message :=
  { Message.new 7 timestampMs 0 (localSender P) 0 [] with
    messageTimestamp := timestampMs
    content := ascii "[" ++ BinaryWriter.writeUint16Hex16 (timestampMs / 1000).toUInt16 ++
    ascii "]" ++
      ascii " Still alive"
    messageId := BinaryWriter.writeUint32Hex16 timestampMs.toUInt32 ++ ascii "-" ++
      BinaryWriter.writeUint48Hex16 (localSender P)
    senderNickname := localName P }

def handlePinActivity (P : Platform) (ambient : Ambient) (t : Tracker) : Tracker × List Effect :=
  let message := stillAliveMessage P (t.getTimeMs ambient.now)
  match t.storeMessageAndReturnIfNew ambient.place message with
  | (t, none) => (t, [])
  | (t, some a) => (t.enqueueBroadcastPacket a message.packetTtl, [.storedOwn a])

def step (P : Platform) (t : Tracker) (i : Input) : Tracker × List Effect :=
  let ambient := i.ambient
  match i.event with
  | .attWrite h transaction att offset buffer =>
    attWriteCallback P ambient t h transaction att offset buffer
  | .gattNotification h value => valueUpdate P ambient t h value
  | .gattMtu h mtu => (t.updateConnection h fun c => { c with btMtu := mtu }, [])
  | .gattServiceQueryResult h service =>
    (t.updateConnection h fun c =>
      if service.uuid16 = 0 then c.storeHandlesIfServiceMatches service else c, [])
  | .gattCharacteristicQueryResult h characteristic =>
    (t.updateConnection h fun c =>
      if characteristic.uuid16 = 0 then c.storeHandlesIfCharacteristicMatches characteristic
      else c, [])
  | .gattQueryComplete h => (t.connectionForConnHandle h, [])
  -- the handler sets the RSSI on a copy
  | .rssiMeasurement h => (t.connectionForConnHandle h, [])
  | .advertisingReport address addressType services rssi =>
    -- `services & ServiceUUIDFound`
    (if services = .serviceUUIDNotFound then t
      else t.addAvailablePeer ambient.now address addressType services rssi, [])
  | .connectionComplete h address addressType role =>
    t.reportConnectionRole ambient.now h address addressType role
  | .attConnected h address addressType =>
    (t.reportConnection ambient.now h address addressType, [])
  | .disconnected h => t.reportDisconnection ambient.frame h
  | .canSendNotification h status => t.notifyRawPacket h status
  | .canWriteWithoutResponse h status => t.writeRawPacket h status
  | .lifeCheck => handlePinActivity P ambient t
  | .announceToConnections => (t.announceToConnections P ambient.now ambient.stale, [])
  | .connectToFirstNeighbour err => BitchatRepeater.connectToFirstNeighbour t err
  | .getAnyDuplicateHandle => (t.getAnyDuplicateHandle.1, [])
  | .sendPackets => t.sendPackets ambient.stale
  | .cleanupStaleItems => (t.cleanupStaleItems ambient.stale ambient.now, [])

end BitchatRepeater
