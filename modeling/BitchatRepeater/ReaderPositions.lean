import BitchatRepeater.ParserAccesses

/-!
# Positions of the reader

The position is a 16 bit number, and so is the length that `read_data` adds to
it. The bound test is made before the sum is cut to 16 bits, and what passes it
ends within a buffer whose size is itself a 16 bit number; so the cut never
takes anything away.

A compressed payload is declared two bytes longer than it is. A declared length
below two wraps, to a length that no buffer holds behind a header.
-/

namespace BitchatRepeater.Checked

open Lib Tracker ProtocolProcessor

-- ---------------------------------------------------------------------------
-- Reading in any order
-- ---------------------------------------------------------------------------

inductive ReadCall
  | uint8
  | uint16
  | uint64
  | data (len : UInt16)
  deriving DecidableEq, Repr

def ReadCall.size : ReadCall → Nat
  | .uint8 => 1
  | .uint16 => 2
  | .uint64 => 8
  | .data len => len.toNat

inductive ReadValue
  | uint8 (n : UInt8)
  | uint16 (n : UInt16)
  | uint64 (n : UInt64)
  | data (p : Pointer UInt8)
  deriving DecidableEq, Repr

def ReadCall.nothing : ReadCall → ReadValue
  | .uint8 => .uint8 0
  | .uint16 => .uint16 0
  | .uint64 => .uint64 0
  | .data _ => .data .null

namespace Reader

def read (r : Reader) : ReadCall → Except Fault (ReadValue × Reader)
  | .uint8 => do
    let (n, r) ← r.readUint8
    pure (.uint8 n, r)
  | .uint16 => do
    let (n, r) ← r.readUint16
    pure (.uint16 n, r)
  | .uint64 => do
    let (n, r) ← r.readUint64
    pure (.uint64 n, r)
  | .data len =>
    let (p, r) := r.readData len.toNat
    pure (.data p, r)

def after (r : Reader) : List ReadCall → Except Fault Reader
  | [] => pure r
  | call :: calls => do
    let (_, r) ← r.read call
    r.after calls

end Reader

-- ---------------------------------------------------------------------------
-- One read
-- ---------------------------------------------------------------------------

def ReadValue.Shows (buffer : Bytes) (pos : Nat) : ReadValue → Prop
  | .uint8 n => (buffer.drop pos).take 1 = [n]
  | .uint16 n => (buffer.drop pos).take 2 = split16 n
  | .uint64 n => (buffer.drop pos).take 8 = split64 n
  | .data p => p = .into buffer pos

/-- A read whose bytes are not all there returns nothing, and the reader is the
same after it. Any other read shows its bytes and moves behind them. -/
inductive ReadSafe (buffer : Bytes) (r : Reader) (call : ReadCall) : ReadValue → Reader → Prop
  | short (h : buffer.length < r.pos + call.size) : ReadSafe buffer r call call.nothing r
  | whole (h : r.pos + call.size ≤ buffer.length) (hv : v.Shows buffer r.pos) :
    ReadSafe buffer r call v { r with pos := r.pos + call.size }

/-- The reader is over the whole buffer. An access past its end is a fault. -/
structure Reader.Over (r : Reader) (buffer : Bytes) : Prop where
  object : r.buffer = .into buffer 0
  size : r.bufferSize = buffer.length
  small : buffer.length < 2 ^ 16

section Reads
variable {buffer : Bytes} {r r' : Reader} {call : ReadCall} {v : ReadValue}

theorem over_new (offset : UInt16) (h : buffer.length < 2 ^ 16) :
    (Reader.new offset (.into buffer 0) buffer.length).Over buffer where
  object := rfl
  size := Nat.mod_eq_of_lt h
  small := h

namespace ReadSafe

theorem keepsOver (h : r.Over buffer) (hr : ReadSafe buffer r call v r') : r'.Over buffer := by
  cases hr with
  | short => exact h
  | whole => exact ⟨h.object, h.size, h.small⟩

theorem pos_le (hr : ReadSafe buffer r call v r') : r.pos ≤ r'.pos := by
  cases hr with
  | short => exact le_rfl
  | whole => exact Nat.le_add_right _ _

theorem pos_of_ne (hr : ReadSafe buffer r call v r') (hv : v ≠ call.nothing) :
    r'.pos = r.pos + call.size := by
  cases hr with
  | short => exact absurd rfl hv
  | whole => rfl

end ReadSafe

namespace Reader.Over

theorem byte (h : r.Over buffer) (hi : r.pos + i < buffer.length) :
    r.byte i = .ok buffer[r.pos + i] := by
  rw [Reader.byte, h.object]
  exact (Pointer.holds_into buffer).load hi

theorem advance (h : r.Over buffer) (hn : r.pos + n ≤ buffer.length) :
    r.advance n = { r with pos := r.pos + n } := by
  rw [Reader.advance, Nat.mod_eq_of_lt (hn.trans_lt h.small)]

theorem readUint8 (h : r.Over buffer) :
    ∃ n r', r.readUint8 = .ok (n, r') ∧ ReadSafe buffer r .uint8 (.uint8 n) r' := by
  unfold Reader.readUint8
  rw [h.size]
  split
  next hshort => exact ⟨0, r, rfl, .short hshort⟩
  next hin =>
    have hle : r.pos + 1 ≤ buffer.length := not_lt.mp hin
    rw [h.byte (by omega), h.advance hle]
    refine ⟨_, _, rfl, .whole hle ?_⟩
    rw [ReadValue.Shows, List.drop_eq_getElem_cons hle]
    rfl

theorem readUint16 (h : r.Over buffer) :
    ∃ n r', r.readUint16 = .ok (n, r') ∧ ReadSafe buffer r .uint16 (.uint16 n) r' := by
  unfold Reader.readUint16
  rw [h.size]
  split
  next hshort => exact ⟨0, r, rfl, .short hshort⟩
  next hin =>
    have hle : r.pos + 2 ≤ buffer.length := not_lt.mp hin
    rw [h.byte (by omega), h.byte (by omega), h.advance hle]
    refine ⟨_, _, rfl, .whole hle ?_⟩
    rw [ReadValue.Shows, split16_join, List.drop_eq_getElem_cons (by omega),
      List.drop_eq_getElem_cons (by omega)]
    rfl

theorem readUint64 (h : r.Over buffer) :
    ∃ n r', r.readUint64 = .ok (n, r') ∧ ReadSafe buffer r .uint64 (.uint64 n) r' := by
  unfold Reader.readUint64
  rw [h.size]
  split
  next hshort => exact ⟨0, r, rfl, .short hshort⟩
  next hin =>
    have hle : r.pos + 8 ≤ buffer.length := not_lt.mp hin
    have hbyte (i : Nat) (hi : i < 8) : r.byte i = .ok buffer[r.pos + i] := h.byte (by omega)
    rw [hbyte 0 (by decide), hbyte 1 (by decide), hbyte 2 (by decide), hbyte 3 (by decide),
      hbyte 4 (by decide), hbyte 5 (by decide), hbyte 6 (by decide), hbyte 7 (by decide),
      h.advance hle]
    refine ⟨_, _, rfl, .whole hle ?_⟩
    rw [ReadValue.Shows, split64_join]
    iterate 8 rw [List.drop_eq_getElem_cons (by omega)]
    rfl

theorem readData (h : r.Over buffer) (len : UInt16) :
    ∃ p r', r.readData len.toNat = (p, r') ∧ ReadSafe buffer r (.data len) (.data p) r' := by
  unfold Reader.readData
  rw [h.size]
  split
  next hshort => exact ⟨.null, r, rfl, .short hshort⟩
  next hin =>
    have hle : r.pos + len.toNat ≤ buffer.length := not_lt.mp hin
    rw [h.object, h.advance hle]
    refine ⟨_, _, rfl, .whole hle ?_⟩
    rw [ReadValue.Shows, Pointer.add, Nat.zero_add]

theorem read (h : r.Over buffer) (call : ReadCall) :
    ∃ v r', r.read call = .ok (v, r') ∧ ReadSafe buffer r call v r' := by
  unfold Reader.read
  cases call with
  | uint8 =>
    obtain ⟨n, r', hread, hsafe⟩ := h.readUint8
    exact ⟨_, r', by rw [hread]; rfl, hsafe⟩
  | uint16 =>
    obtain ⟨n, r', hread, hsafe⟩ := h.readUint16
    exact ⟨_, r', by rw [hread]; rfl, hsafe⟩
  | uint64 =>
    obtain ⟨n, r', hread, hsafe⟩ := h.readUint64
    exact ⟨_, r', by rw [hread]; rfl, hsafe⟩
  | data len =>
    obtain ⟨p, r', hread, hsafe⟩ := h.readData len
    exact ⟨_, r', by simp only [hread]; rfl, hsafe⟩

theorem after (h : r.Over buffer) (calls : List ReadCall) :
    ∃ r', r.after calls = .ok r' ∧ r'.Over buffer ∧ r.pos ≤ r'.pos := by
  induction calls generalizing r with
  | nil => exact ⟨r, rfl, h, le_rfl⟩
  | cons call calls ih =>
    obtain ⟨v, r₁, hread, hsafe⟩ := h.read call
    obtain ⟨r₂, hrest, hover, hle⟩ := ih (hsafe.keepsOver h)
    refine ⟨r₂, ?_, hover, hsafe.pos_le.trans hle⟩
    rw [Reader.after, hread]
    exact hrest

end Reader.Over

-- ---------------------------------------------------------------------------
-- Lengths that wrap
-- ---------------------------------------------------------------------------

/-- A flag is set only if the byte of the flags was there to be read. -/
theorem readHeader_pos (h : r.Over buffer) (hr : Checked.readHeader r = .ok (header, r')) :
    r'.Over buffer ∧ (header.packetFlags ≠ 0 → r.pos + 1 ≤ r'.pos) := by
  obtain ⟨type, r₁, e₁, s₁⟩ := h.readUint8
  have h₁ := s₁.keepsOver h
  obtain ⟨ttl, r₂, e₂, s₂⟩ := h₁.readUint8
  have h₂ := s₂.keepsOver h₁
  obtain ⟨timestampMs, r₃, e₃, s₃⟩ := h₂.readUint64
  have h₃ := s₃.keepsOver h₂
  obtain ⟨packetFlags, r₄, e₄, s₄⟩ := h₃.readUint8
  have h₄ := s₄.keepsOver h₃
  obtain ⟨payloadLength, r₅, e₅, s₅⟩ := h₄.readUint16
  have h₅ := s₅.keepsOver h₄
  obtain ⟨sender, r₆, e₆, s₆⟩ := h₅.readUint64
  have h₆ := s₆.keepsOver h₅
  have hstart : r.pos ≤ r₃.pos := s₁.pos_le.trans (s₂.pos_le.trans s₃.pos_le)
  have hend : r₄.pos ≤ r₆.pos := s₅.pos_le.trans s₆.pos_le
  have hflags : packetFlags ≠ 0 → r.pos + 1 ≤ r₆.pos := by
    intro hne
    have hpos := s₄.pos_of_ne fun he => hne (ReadValue.uint8.inj he)
    rw [ReadCall.size] at hpos
    omega
  simp only [Checked.readHeader, e₁, e₂, e₃, e₄, e₅, e₆, ok_bind] at hr
  split at hr
  · obtain ⟨recipient, r₇, e₇, s₇⟩ := h₆.readUint64
    rw [e₇, ok_bind] at hr
    cases hr
    exact ⟨s₇.keepsOver h₆, fun hne => (hflags hne).trans s₇.pos_le⟩
  · cases hr
    exact ⟨h₆, hflags⟩

/-- The payload is compressed, but its length does not cover the original size. -/
def lengthWraps (header : Header) : Bool :=
  hasFlag header.packetFlags packetFlagIsCompressed && header.payloadLength < 2

theorem readPayload_wraps (inflate : Bytes → Option Bytes) (h : r.Over buffer) (hpos : 2 ≤ r.pos)
    (hw : lengthWraps header) : (Checked.readPayload inflate header r).run = .ok none := by
  rw [lengthWraps, Bool.and_eq_true, decide_eq_true_eq] at hw
  obtain ⟨originalSize, r₁, e₁, s₁⟩ := h.readUint16
  obtain ⟨p, r₂, e₂, s₂⟩ := (s₁.keepsOver h).readData (header.payloadLength - 2)
  have hnull : p = .null := by
    cases s₂ with
    | short => rfl
    | whole hle =>
      have hwrapped := Frame.toNat_sub_two_wraps (UInt16.lt_iff_toNat_lt.mp hw.2)
      have hle₁ := s₁.pos_le
      have hsmall := h.small
      rw [ReadCall.size] at hle
      omega
  rw [Checked.readPayload, if_pos hw.1, e₁, lift_ok_bind]
  simp only [e₂, hnull]
  rfl

theorem processWrite_wraps {r₁ r₂ : Reader} (P : Platform) (ambient : Ambient) (t : Tracker)
    (origin : ConnPtr) (connection : BleConnection)
    (hversion : (Reader.new offset (.into buffer 0) buffer.length).readUint8 = .ok (version, r₁))
    (hheader : Checked.readHeader r₁ = .ok (header, r₂)) (hsmall : buffer.length < 2 ^ 16)
    (hw : lengthWraps header) :
    Checked.processWrite P ambient t origin connection offset buffer = .ok (t, []) := by
  have hsize : buffer.length % 2 ^ 16 = buffer.length := Nat.mod_eq_of_lt hsmall
  simp only [Checked.processWrite, hsize, List.take_length, hversion, ok_bind]
  split
  · rfl
  next hone =>
    have hover : (Reader.new offset (.into buffer 0) buffer.length).Over buffer :=
      over_new offset hsmall
    obtain ⟨n, r', hread, hsafe⟩ := hover.readUint8
    cases hversion.symm.trans hread
    have hpos₁ := hsafe.pos_of_ne fun he => by
      rw [ReadValue.uint8.inj he] at hone
      exact hone (by decide)
    obtain ⟨hover₂, hpos₂⟩ := readHeader_pos (hsafe.keepsOver hover) hheader
    have hflags : header.packetFlags ≠ 0 := by
      intro hzero
      rw [lengthWraps, hzero] at hw
      cases hw
    have hbehind : 2 ≤ r₂.pos := by
      have hone' := hpos₂ hflags
      rw [ReadCall.size] at hpos₁
      omega
    rw [hheader, ok_bind, processBody, readPayload_wraps P.inflate hover₂ hbehind hw]
    rfl

end Reads

/-- Whatever was read before and from whatever offset, a read is of bytes of the
buffer or has no effect, and the position only grows. So no packet gets through
whose payload is compressed and declared shorter than the original size. -/
theorem reads_in_buffer (buffer : Bytes) (offset : UInt16) (hsmall : buffer.length < 2 ^ 16) :
    (∀ calls, ∃ r, (Reader.new offset (.into buffer 0) buffer.length).after calls = .ok r ∧
      offset.toNat ≤ r.pos ∧
        ∀ call, ∃ v r', r.read call = .ok (v, r') ∧ ReadSafe buffer r call v r') ∧
      ∀ (P : Platform) (ambient : Ambient) (t : Tracker) (origin : ConnPtr)
        (connection : BleConnection) (version : UInt8) (header : Header) (r₁ r₂ : Reader),
        (Reader.new offset (.into buffer 0) buffer.length).readUint8 = .ok (version, r₁) →
          Checked.readHeader r₁ = .ok (header, r₂) → lengthWraps header →
            Checked.processWrite P ambient t origin connection offset buffer = .ok (t, []) := by
  constructor
  · intro calls
    obtain ⟨r, hrun, hover, hle⟩ := (over_new offset hsmall).after calls
    exact ⟨r, hrun, hle, hover.read⟩
  · intro P ambient t origin connection version header r₁ r₂ hversion hheader hw
    exact processWrite_wraps P ambient t origin connection hversion hheader hsmall hw

def shortCompressed : Bytes :=
  [1, 5, 3, 0, 0, 0, 0, 0, 0, 0, 9, 4, 0, 1, 0, 0, 0, 0, 0, 0, 0, 7, 0, 64, 0x61]

theorem reads_in_buffer_compressed :
    (∃ r, (Reader.new 0 (.into shortCompressed 0) 25).after [.uint64, .data 65535,
      .uint16] = .ok r ∧
      ∃ v r', r.read (.data 15) = .ok (v, r') ∧
        ReadSafe shortCompressed r (.data 15) v r') ∧
      Checked.processWrite .bare .idle { announceAddr := 0 } (.entry 3) {} 0 shortCompressed =
        .ok ({ announceAddr := 0 }, []) := by
  obtain ⟨hreads, hrejected⟩ := reads_in_buffer shortCompressed 0 (by decide)
  obtain ⟨r, hrun, -, hnext⟩ := hreads [.uint64, .data 65535, .uint16]
  exact ⟨⟨r, hrun, hnext (.data 15)⟩, hrejected .bare .idle _ (.entry 3) {} _ _ _ _ rfl
    rfl (by decide)⟩

end BitchatRepeater.Checked
