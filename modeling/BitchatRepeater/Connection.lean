import BitchatRepeater.Packets
import Mathlib.Order.Defs.LinearOrder

/-!
# Connections

`BleConnection`, with the fields the tracker reads, and pointers to one. A
`BleConnection *` either points at the map entry of a handle or at a local
copy in a stack frame that is gone once its function has returned.
-/

namespace BitchatRepeater

abbrev Handle := UInt16

instance linearOrderUInt16 : LinearOrder UInt16 where
  le_refl a := UInt16.le_refl a
  le_trans _ _ _ h h' := UInt16.le_trans h h'
  le_antisymm _ _ h h' := UInt16.le_antisymm h h'
  le_total a b := UInt16.le_total a b
  toDecidableLE := inferInstance
  toDecidableEq := inferInstance
  toDecidableLT := inferInstance
  lt_iff_le_not_ge a b := by
    simp only [UInt16.lt_iff_toNat_lt, UInt16.le_iff_toNat_le]
    omega

inductive AddressType
  | lePublic | leRandom | lePublicIdentity | leRandomIdentity | sco | acl | unknown
  deriving DecidableEq, Repr

inductive Role
  | master | slave | invalid
  deriving DecidableEq, Repr

inductive ServiceUuidCheckStatus
  | serviceUUIDNotFound | serviceUUIDFound | serviceUUIDAndNameFound
  deriving DecidableEq, Repr

structure BleConnection where
  connectionHandle : Handle := 0
  btAddress : Bytes := List.replicate 6 0
  btAddressType : AddressType := .unknown
  btMtu : UInt16 := 0
  bitchatServiceStartGroupHandle : UInt16 := 0
  bitchatServiceEndGroupHandle : UInt16 := 0
  bitchatCharacteristicValueHandle : UInt16 := 0
  notificationEnabled : Bool := false
  hasDataToSend : Bool := false
  connected : Bool := false
  servicesFound : ServiceUuidCheckStatus := .serviceUUIDFound
  rssi : Int := 0
  role : Role := .invalid
  lastSeenTime : UInt64 := 0
  deriving DecidableEq, Repr

namespace BleConnection

def isRepeater (c : BleConnection) : Bool := c.servicesFound = .serviceUUIDAndNameFound

def isRandom (c : BleConnection) : Bool := c.btAddressType = .leRandom

def timestampMs (c : BleConnection) : UInt64 := c.lastSeenTime / 1000

end BleConnection

/-- Where a `BleConnection *` points: into the connections map, or at a local
variable of a call that has returned. -/
inductive ConnPtr
  | entry (handle : Handle)
  | frame (address : Nat)
  deriving DecidableEq, Repr

end BitchatRepeater
