import BitchatRepeater.ParserAccesses
import BitchatRepeater.TruncatedPackets

/-!
# Bodies that do not inflate

The source notices that a body does not decompress to the original size, logs it
and goes on, with the body as it came or with what it decompressed to. What the
packet then does depends on its type and ttl alone.
-/

namespace BitchatRepeater

open Lib Tracker ProtocolProcessor

def packetHeader (offset : UInt16) (buffer : Bytes) : Header × BinaryReader :=
  readHeader (BinaryReader.new offset buffer).readUint8.2

/-- The packet is compressed, and its body is there but is not `originalSize` bytes
in compressed form. -/
structure FailsToInflate (inflate : Bytes → Option Bytes) (offset : UInt16)
    (buffer : Bytes) : Prop where
  version : (BinaryReader.new offset buffer).readUint8.1 = 1
  compressed : hasFlag (packetHeader offset buffer).1.packetFlags packetFlagIsCompressed
  body : ∃ body, ((packetHeader offset buffer).2.readUint16.2.readData
      ((packetHeader offset buffer).1.payloadLength - 2).toNat).map Prod.fst = some body ∧
    ∀ plain, inflate body = some plain →
      plain.length ≠ (packetHeader offset buffer).2.readUint16.1.toNat

theorem FailsToInflate.readPayload (h : FailsToInflate inflate offset buffer) :
    ∃ payload r, readPayload inflate (packetHeader offset buffer).1 (packetHeader offset buffer).2 =
      some (payload, r) := by
  obtain ⟨_, hbody, -⟩ := h.body
  obtain ⟨⟨body, r⟩, hread, -⟩ := Option.map_eq_some_iff.mp hbody
  refine ⟨decompressed inflate body (packetHeader offset buffer).2.readUint16.1.toNat, r, ?_⟩
  rw [ProtocolProcessor.readPayload, if_pos h.compressed]
  simp only [hread, Option.map_some]

theorem FailsToInflate.not_rejected (h : FailsToInflate inflate offset buffer) :
    readPacket inflate offset buffer ≠ .rejected := by
  obtain ⟨payload, r, hpayload⟩ := h.readPayload
  have hversion := h.version
  unfold packetHeader at hpayload
  unfold readPacket readBody
  simp only [hversion, ne_eq, not_true_eq_false, if_false, hpayload]
  intro hr
  unfold readSignature at hr
  split at hr
  · split at hr
    · cases hr
    · cases hr
  · cases hr

/-- A body that does not inflate is used nevertheless: every tracker stays as it was
exactly if nothing is done with packets of the type and ttl. -/
theorem failedInflate_ignored_iff (P : Platform) (offset : UInt16) (buffer : Bytes)
    (h : FailsToInflate P.inflate offset buffer) :
    (∀ ambient t origin connection,
      processWrite P ambient t origin connection offset buffer = (t, [])) ↔
      Checked.signatureMissing offset buffer = false ∧
        acts (packetHeader offset buffer).1.type (packetHeader offset buffer).1.ttl = false := by
  rw [← Bool.not_eq_true (Checked.signatureMissing _ _), ←
    Checked.readPacket_eq_nullSignature_iff P.inflate]
  unfold processWrite
  cases hr : readPacket P.inflate offset buffer with
  | rejected => exact absurd hr h.not_rejected
  | nullSignature =>
    constructor
    · intro hignored
      cases hignored .idle { announceAddr := 0 } (.frame 0) {}
    · rintro ⟨hnot, -⟩
      exact absurd rfl hnot
  | packet p =>
    have hheader : p.toHeader = (packetHeader offset buffer).1 := (readPacket_header hr).2.1
    rw [← hheader]
    exact dispatch_ignored_iff.trans ⟨fun hidle => ⟨nofun, hidle⟩, And.right⟩

/-- A packet of peer 7, compressed, whose body is no compressed text. -/
def brokenPacket (type : UInt8) : Bytes :=
  [1, type, 3, 0, 0, 0, 0, 0, 0, 0, 9, 4, 0, 5, 0, 0, 0, 0, 0, 0, 0, 7, 0, 9, 0x61, 0x62, 0x63]

theorem failsToInflate_versionHello :
    FailsToInflate Platform.bare.inflate 0 (brokenPacket 0x20) where
  version := by decide +kernel
  compressed := by decide +kernel
  body := ⟨[0x61, 0x62, 0x63], by decide +kernel, nofun⟩

theorem failsToInflate_announce : FailsToInflate Platform.bare.inflate 0 (brokenPacket 1) where
  version := by decide +kernel
  compressed := by decide +kernel
  body := ⟨[0x61, 0x62, 0x63], by decide +kernel, nofun⟩

theorem versionHello_ignored :
    FailsToInflate Platform.bare.inflate 0 (brokenPacket 0x20) ∧
      ∀ ambient t origin connection,
        processWrite .bare ambient t origin connection 0 (brokenPacket 0x20) = (t, []) :=
  ⟨failsToInflate_versionHello, (failedInflate_ignored_iff .bare 0 (brokenPacket 0x20)
    failsToInflate_versionHello).mpr (by decide +kernel)⟩

/-- The body of an announce becomes the name of the peer, and is passed along. -/
theorem brokenBody_becomes_name :
    let t : Tracker := { announceAddr := 0 }
    let u := (processWrite .bare .idle t (.entry 3) { connectionHandle := 3 } 0 (brokenPacket 1)).1
    FailsToInflate Platform.bare.inflate 0 (brokenPacket 1) ∧
      (u.peers.get? 7).map Peer.name = some [0x61, 0x62, 0x63] ∧
      u.packets.entries.map (·.2.val.payload) = [[0x61, 0x62, 0x63]] ∧ u ≠ t := by
  intro t u
  have hname : (u.peers.get? 7).map Peer.name = some [0x61, 0x62, 0x63] := by decide +kernel
  refine ⟨failsToInflate_announce, hname, by decide +kernel, fun h => ?_⟩
  rw [h] at hname
  cases hname

end BitchatRepeater
