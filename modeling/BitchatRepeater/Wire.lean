import BitchatRepeater.Lib.BigEndian

/-!
# Reading and writing bytes

`BinaryReader` and `BinaryWriter`. Positions and sizes are the source's 16 bit
numbers, kept as naturals that are reduced modulo `2 ^ 16` where the source
stores them; the bound tests are made in `int`, where nothing wraps.

A scalar read that runs past the end yields zero and stays where it is, while
`readData` reports the failure. `BinaryReader.At` says which bytes a reader has
still ahead of it; the reading laws are stated through it.
-/

namespace BitchatRepeater

open Lib

abbrev Bytes := List UInt8

structure BinaryReader where
  buffer : Bytes
  bufferSize : Nat
  pos : Nat

namespace BinaryReader

/-- The size reaches the constructor as a `uint16_t`. -/
def new (offset : UInt16) (buffer : Bytes) : BinaryReader :=
  { buffer, bufferSize := buffer.length % 2 ^ 16, pos := offset.toNat }

def byte (r : BinaryReader) (i : Nat) : UInt8 := r.buffer.getD (r.pos + i) 0

def advance (r : BinaryReader) (n : Nat) : BinaryReader :=
  { r with pos := (r.pos + n) % 2 ^ 16 }

def readUint8 (r : BinaryReader) : UInt8 × BinaryReader :=
  if r.pos + 1 > r.bufferSize then (0, r) else (r.byte 0, r.advance 1)

def readUint16 (r : BinaryReader) : UInt16 × BinaryReader :=
  if r.pos + 2 > r.bufferSize then (0, r) else (join16 (r.byte 0) (r.byte 1), r.advance 2)

def readUint64 (r : BinaryReader) : UInt64 × BinaryReader :=
  if r.pos + 8 > r.bufferSize then (0, r)
  else
    (join64 (r.byte 0) (r.byte 1) (r.byte 2) (r.byte 3) (r.byte 4) (r.byte 5) (r.byte 6) (r.byte 7),
      r.advance 8)

/-- `none` is the null pointer. -/
def readData (r : BinaryReader) (len : Nat) : Option (Bytes × BinaryReader) :=
  if r.pos + len > r.bufferSize then none
  else some ((r.buffer.drop r.pos).take len, r.advance len)

/-- The pattern of every short field: a length byte, then that many bytes. -/
def readField (r : BinaryReader) : Option (Bytes × BinaryReader) :=
  r.readUint8.2.readData r.readUint8.1.toNat

-- ---------------------------------------------------------------------------
-- What is ahead of a reader
-- ---------------------------------------------------------------------------

def At (r : BinaryReader) (rest : Bytes) : Prop :=
  ∃ front behind, r.buffer = front ++ rest ++ behind ∧ r.pos = front.length ∧
    r.bufferSize = front.length + rest.length ∧ r.bufferSize < 2 ^ 16

theorem at_new {buffer : Bytes} (h : buffer.length < 2 ^ 16) : (new 0 buffer).At buffer :=
  ⟨[], [], by simp [new], rfl, by simpa [new] using h,
    by simp only [new]; exact Nat.mod_lt _ (by decide)⟩

theorem at_new_offset {front buffer : Bytes} (h : (front ++ buffer).length < 2 ^ 16) :
    (new (UInt16.ofNat front.length) (front ++ buffer)).At buffer := by
  have hmod : (front ++ buffer).length % 2 ^ 16 = front.length + buffer.length := by
    rw [Nat.mod_eq_of_lt h, List.length_append]
  have hfront : front.length < 2 ^ 16 := by
    rw [List.length_append] at h
    omega
  exact ⟨front, [], by simp [new], UInt16.toNat_ofNat_of_lt' hfront, hmod, Nat.mod_lt _ (by decide)⟩

theorem At.advance {r : BinaryReader} (h : r.At (s ++ rest)) : (r.advance s.length).At rest := by
  obtain ⟨front, behind, hb, hp, hs, hlt⟩ := h
  have hpos : (r.pos + s.length) % 2 ^ 16 = front.length + s.length := by
    rw [hp]
    refine Nat.mod_eq_of_lt ?_
    simp only [List.length_append] at hs
    omega
  refine ⟨front ++ s, behind, ?_, ?_, ?_, hlt⟩
  · simp [BinaryReader.advance, hb]
  · simpa [BinaryReader.advance] using hpos
  · simp only [BinaryReader.advance, hs, List.length_append]
    omega

theorem At.byte {r : BinaryReader} (h : r.At (s ++ rest)) (hi : i < s.length) :
    r.byte i = s.getD i 0 := by
  obtain ⟨front, behind, hb, hp, -, -⟩ := h
  have hidx : front.length + i - front.length = i := by omega
  rw [BinaryReader.byte, hb, hp, List.getD_eq_getElem?_getD, List.append_assoc, List.append_assoc,
    List.getElem?_append_right (by omega), hidx, List.getElem?_append_left hi,
    List.getD_eq_getElem?_getD]

theorem At.pos_add {r : BinaryReader} (h : r.At (s ++ rest)) (hn : s.length = n) :
    ¬ r.pos + n > r.bufferSize := by
  obtain ⟨front, behind, hb, hp, hs, -⟩ := h
  simp only [List.length_append] at hs
  omega

theorem At.pos_short {r : BinaryReader} (h : r.At rest) (hn : rest.length < n) :
    r.pos + n > r.bufferSize := by
  obtain ⟨front, behind, hb, hp, hs, -⟩ := h
  omega

theorem At.readUint8 {r : BinaryReader} (h : r.At (b :: rest)) :
    ∃ r', r.readUint8 = (b, r') ∧ r'.At rest := by
  have ha : r.At ([b] ++ rest) := h
  exact ⟨r.advance 1, by
    rw [BinaryReader.readUint8, if_neg (ha.pos_add (n := 1) rfl), ha.byte (by simp)]
    rfl, ha.advance⟩

theorem At.readUint8_nil {r : BinaryReader} (h : r.At []) : r.readUint8 = (0, r) := by
  rw [BinaryReader.readUint8, if_pos (h.pos_short (by simp))]

theorem At.readUint16_join {r : BinaryReader} (h : r.At (b₀ :: b₁ :: rest)) :
    ∃ r', r.readUint16 = (join16 b₀ b₁, r') ∧ r'.At rest := by
  have ha : r.At ([b₀, b₁] ++ rest) := h
  exact ⟨r.advance 2, by
    rw [BinaryReader.readUint16, if_neg (ha.pos_add (n := 2) rfl), ha.byte (by simp),
      ha.byte (by simp)]
    rfl, ha.advance⟩

theorem At.readUint16 {r : BinaryReader} (h : r.At (split16 n ++ rest)) :
    ∃ r', r.readUint16 = (n, r') ∧ r'.At rest := by
  obtain ⟨r', hr, ha⟩ := At.readUint16_join h
  exact ⟨r', by rw [hr, join16_split], ha⟩

theorem At.readUint64 {r : BinaryReader} (h : r.At (split64 n ++ rest)) :
    ∃ r', r.readUint64 = (n, r') ∧ r'.At rest := by
  have hb (i : Nat) (hi : i < 8) : r.byte i = (split64 n).getD i 0 := h.byte hi
  refine ⟨r.advance 8, ?_, h.advance⟩
  rw [BinaryReader.readUint64, if_neg (h.pos_add (n := 8) rfl)]
  simp only [hb 0 (by decide), hb 1 (by decide), hb 2 (by decide), hb 3 (by decide),
    hb 4 (by decide), hb 5 (by decide), hb 6 (by decide), hb 7 (by decide)]
  exact congrArg (·, r.advance 8) (join64_split n)

theorem At.readData {r : BinaryReader} (h : r.At (s ++ rest)) :
    ∃ r', r.readData s.length = some (s, r') ∧ r'.At rest := by
  refine ⟨r.advance s.length, ?_, h.advance⟩
  rw [BinaryReader.readData, if_neg (h.pos_add rfl)]
  obtain ⟨front, behind, hb, hp, -, -⟩ := h
  simp [hb, hp, List.append_assoc]

theorem At.readData_short {r : BinaryReader} (h : r.At rest) (hn : rest.length < n) :
    r.readData n = none := by
  rw [BinaryReader.readData, if_pos (h.pos_short hn)]

theorem At.readUint16_short {r : BinaryReader} (h : r.At rest) (hn : rest.length < 2) :
    r.readUint16 = (0, r) := by
  rw [BinaryReader.readUint16, if_pos (h.pos_short hn)]

theorem At.readUint64_short {r : BinaryReader} (h : r.At rest) (hn : rest.length < 8) :
    r.readUint64 = (0, r) := by
  rw [BinaryReader.readUint64, if_pos (h.pos_short hn)]

theorem At.readField {r : BinaryReader} (hs : s.length < 256)
    (h : r.At (UInt8.ofNat s.length :: s ++ rest)) :
    ∃ r', r.readField = some (s, r') ∧ r'.At rest := by
  obtain ⟨r₁, h₁, a₁⟩ := At.readUint8 h
  obtain ⟨r₂, h₂, a₂⟩ := a₁.readData
  have hlen : (UInt8.ofNat s.length).toNat = s.length := by
    simp [Nat.mod_eq_of_lt hs]
  exact ⟨r₂, by simp [BinaryReader.readField, h₁, hlen, h₂], a₂⟩

end BinaryReader

-- ---------------------------------------------------------------------------
-- Writing
-- ---------------------------------------------------------------------------

/-! Each function of `BinaryWriter` is given as the bytes it appends. -/

namespace BinaryWriter

def writeUint8 (value : UInt8) : Bytes := [value]

def writeUint16 (value : UInt16) : Bytes :=
  [(value >>> 8).toUInt8, value.toUInt8 &&& 0xFF]

def writeUint64 (value : UInt64) : Bytes :=
  [(value >>> 56).toUInt8, (value >>> 48).toUInt8 &&& 0xFF, (value >>> 40).toUInt8 &&& 0xFF,
    (value >>> 32).toUInt8 &&& 0xFF, (value >>> 24).toUInt8 &&& 0xFF,
    (value >>> 16).toUInt8 &&& 0xFF, (value >>> 8).toUInt8 &&& 0xFF, value.toUInt8 &&& 0xFF]

def writeData (data : Bytes) (len : Nat) : Bytes := data.take (len % 2 ^ 16)

def hexify (nibble : UInt8) : UInt8 :=
  if nibble < 10 then nibble + 48 else nibble + (97 - 10)

def writeUint8Hex16 (value : UInt8) : Bytes :=
  [hexify (value >>> 4 &&& 0xF), hexify (value &&& 0xF)]

def writeUint16Hex16 (value : UInt16) : Bytes :=
  writeUint8Hex16 (value >>> 8).toUInt8 ++ writeUint8Hex16 value.toUInt8

def writeUint32Hex16 (value : UInt32) : Bytes :=
  writeUint8Hex16 (value >>> 24).toUInt8 ++ writeUint8Hex16 (value >>> 16).toUInt8 ++
    writeUint8Hex16 (value >>> 8).toUInt8 ++ writeUint8Hex16 value.toUInt8

def writeUint48Hex16 (value : UInt64) : Bytes :=
  writeUint8Hex16 (value >>> 40).toUInt8 ++ writeUint8Hex16 (value >>> 32).toUInt8 ++
    writeUint8Hex16 (value >>> 24).toUInt8 ++ writeUint8Hex16 (value >>> 16).toUInt8 ++
    writeUint8Hex16 (value >>> 8).toUInt8 ++ writeUint8Hex16 value.toUInt8

def writeUint64Hex16 (value : UInt64) : Bytes :=
  writeUint8Hex16 (value >>> 56).toUInt8 ++ writeUint8Hex16 (value >>> 48).toUInt8 ++
    writeUint8Hex16 (value >>> 40).toUInt8 ++ writeUint8Hex16 (value >>> 32).toUInt8 ++
    writeUint8Hex16 (value >>> 24).toUInt8 ++ writeUint8Hex16 (value >>> 16).toUInt8 ++
    writeUint8Hex16 (value >>> 8).toUInt8 ++ writeUint8Hex16 value.toUInt8

@[simp] theorem length_writeUint64Hex16 (n : UInt64) : (writeUint64Hex16 n).length = 16 := rfl

def writeField (data : Bytes) : Bytes :=
  let len := min 255 data.length
  writeUint8 (UInt8.ofNat len) ++ writeData data len

theorem and_mask (b : UInt8) : b &&& 0xFF = b := by
  apply UInt8.toBitVec_inj.mp
  apply BitVec.eq_of_getLsbD_eq
  intro i hi
  interval_cases i <;> simp

@[simp] theorem writeUint16_eq (n : UInt16) : writeUint16 n = split16 n := by
  simp [writeUint16, split16, and_mask]

@[simp] theorem writeUint64_eq (n : UInt64) : writeUint64 n = split64 n := by
  simp [writeUint64, split64, and_mask]

theorem writeData_length (h : data.length < 2 ^ 16) : writeData data data.length = data := by
  rw [writeData, Nat.mod_eq_of_lt h, List.take_length]

theorem writeField_eq (h : data.length < 256) :
    writeField data = UInt8.ofNat data.length :: data := by
  have hm : min 255 data.length = data.length := by omega
  simp only [writeField, hm, writeUint8, writeData_length (by omega : data.length < 2 ^ 16)]
  rfl

end BinaryWriter

end BitchatRepeater
