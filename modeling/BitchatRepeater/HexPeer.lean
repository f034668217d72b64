import BitchatRepeater.ProtocolProcessor

/-!
# Peer ids in hex

The writer names a peer by 16 lower-case hex digits. The reader takes any 16
characters for digits; of the texts, exactly those the writer produces come back
from the number they are read as.
-/

namespace BitchatRepeater

open Lib ProtocolProcessor BinaryWriter

def hexDigits : Bytes :=
  [0x30, 0x31, 0x32, 0x33, 0x34, 0x35, 0x36, 0x37, 0x38, 0x39, 0x61, 0x62, 0x63, 0x64, 0x65, 0x66]

def lowerHex (c : UInt8) : Bool := 0x30 ≤ c && c ≤ 0x39 || 0x61 ≤ c && c ≤ 0x66

def HexText (text : Bytes) : Prop := text.length = 16 ∧ text.all lowerHex

instance : Decidable (HexText text) := inferInstanceAs (Decidable (_ ∧ _))

-- Facts about single bytes are checked for all 256 of them, as bit vectors.

theorem mem_hexDigits (h : lowerHex c) : c ∈ hexDigits := by
  have hall : ∀ v : BitVec 8, lowerHex ⟨v⟩ → (⟨v⟩ : UInt8) ∈ hexDigits := by decide +kernel
  exact hall c.toBitVec h

theorem lowerHex_writeUint8Hex16 (b : UInt8) : (writeUint8Hex16 b).all lowerHex := by
  have hall : ∀ v : BitVec 8, (writeUint8Hex16 ⟨v⟩).all lowerHex := by decide +kernel
  exact hall b.toBitVec

theorem writeUint8Hex16_hexByte (ha : lowerHex a) (hb : lowerHex b) :
    writeUint8Hex16 (hexByte a b) = [a, b] := by
  have hall : ∀ a ∈ hexDigits, ∀ b ∈ hexDigits, writeUint8Hex16 (hexByte a b) = [a, b] := by
    decide +kernel
  exact hall a (mem_hexDigits ha) b (mem_hexDigits hb)

theorem hexByte_writeUint8Hex16 (b : UInt8) :
    hexByte (hexify (b >>> 4 &&& 0xF)) (hexify (b &&& 0xF)) = b := by
  have hall : ∀ v : BitVec 8,
      hexByte (hexify ((⟨v⟩ : UInt8) >>> 4 &&& 0xF)) (hexify (⟨v⟩ &&& 0xF)) = ⟨v⟩ := by
    decide +kernel
  exact hall b.toBitVec

theorem writeUint64Hex16_eq (n : UInt64) : writeUint64Hex16 n =
    (split64 n).flatMap writeUint8Hex16 :=
  rfl

theorem hexText_writeUint64Hex16 (n : UInt64) : HexText (writeUint64Hex16 n) := by
  refine ⟨rfl, ?_⟩
  rw [writeUint64Hex16_eq, List.all_flatMap]
  simp [lowerHex_writeUint8Hex16]

theorem hexPeerId_eq (a₀ b₀ a₁ b₁ a₂ b₂ a₃ b₃ a₄ b₄ a₅ b₅ a₆ b₆ a₇ b₇ : UInt8) :
    hexPeerId 0 56 [a₀, b₀, a₁, b₁, a₂, b₂, a₃, b₃, a₄, b₄, a₅, b₅, a₆, b₆, a₇, b₇] =
      join64 (hexByte a₀ b₀) (hexByte a₁ b₁) (hexByte a₂ b₂) (hexByte a₃ b₃) (hexByte a₄ b₄)
        (hexByte a₅ b₅) (hexByte a₆ b₆) (hexByte a₇ b₇) := by
  simp [hexPeerId, join64]

theorem exists_pairs {text : List α} (h : text.length = 16) :
    ∃ a₀ b₀ a₁ b₁ a₂ b₂ a₃ b₃ a₄ b₄ a₅ b₅ a₆ b₆ a₇ b₇,
      text = [a₀, b₀, a₁, b₁, a₂, b₂, a₃, b₃, a₄, b₄, a₅, b₅, a₆, b₆, a₇, b₇] := by
  match text, h with
  | [a₀, b₀, a₁, b₁, a₂, b₂, a₃, b₃, a₄, b₄, a₅, b₅, a₆, b₆, a₇, b₇], _ =>
    exact ⟨_, _, _, _, _, _, _, _, _, _, _, _, _, _, _, _, rfl⟩

theorem hexPeerId_writeUint64Hex16 (n : UInt64) : hexPeerId 0 56 (writeUint64Hex16 n) = n := by
  refine (hexPeerId_eq ..).trans ?_
  simp only [hexByte_writeUint8Hex16]
  exact join64_split n

theorem writeUint64Hex16_hexPeerId (h : HexText text) :
    writeUint64Hex16 (hexPeerId 0 56 text) = text := by
  obtain ⟨a₀, b₀, a₁, b₁, a₂, b₂, a₃, b₃, a₄, b₄, a₅, b₅, a₆, b₆, a₇, b₇, rfl⟩ := exists_pairs h.1
  have hd := h.2
  simp only [List.all_cons, List.all_nil, Bool.and_true, Bool.and_eq_true] at hd
  obtain ⟨ha₀, hb₀, ha₁, hb₁, ha₂, hb₂, ha₃, hb₃, ha₄, hb₄, ha₅, hb₅, ha₆, hb₆, ha₇, hb₇⟩ := hd
  rw [hexPeerId_eq, writeUint64Hex16_eq, split64_join]
  simp only [List.flatMap_cons, List.flatMap_nil, writeUint8Hex16_hexByte ha₀ hb₀,
    writeUint8Hex16_hexByte ha₁ hb₁, writeUint8Hex16_hexByte ha₂ hb₂,
    writeUint8Hex16_hexByte ha₃ hb₃,
    writeUint8Hex16_hexByte ha₄ hb₄, writeUint8Hex16_hexByte ha₅ hb₅,
    writeUint8Hex16_hexByte ha₆ hb₆, writeUint8Hex16_hexByte ha₇ hb₇]
  rfl

end BitchatRepeater
