import BitchatRepeater.PacketCodec
import BitchatRepeater.RejectedInput

/-!
# Packets that break off

A scalar that is not there reads as zero and the next read starts where it would
have been. So of a frame that breaks off within its header, some fields are zero
and, within the timestamp, bytes of the timestamp are taken for flags and length.
`Frame.cut` says for every cut what is read; the cut is harmless if the payload
that this announces is not there, or if nothing is done with the packet.
-/

namespace BitchatRepeater

open Lib Tracker ProtocolProcessor

-- ---------------------------------------------------------------------------
-- Reading a prefix
-- ---------------------------------------------------------------------------

namespace BinaryReader

variable {r : BinaryReader}

theorem At.readUint8_take (h : r.At ((b :: rest).take j)) :
    ∃ r', r.readUint8 = (if j = 0 then 0 else b, r') ∧ r'.At (rest.take (j - 1)) := by
  cases j with
  | zero => exact ⟨r, h.readUint8_nil, h⟩
  | succ j =>
    obtain ⟨r', hr, ha⟩ := At.readUint8 h
    exact ⟨r', hr, ha⟩

theorem At.readUint16_take (h : r.At ((b₀ :: b₁ :: rest).take j)) (hj : 2 ≤ j) :
    ∃ r', r.readUint16 = (join16 b₀ b₁, r') ∧ r'.At (rest.take (j - 2)) := by
  obtain ⟨j, rfl⟩ := Nat.exists_eq_add_of_le' hj
  exact At.readUint16_join h

theorem At.readUint64_take (h : r.At ((split64 n ++ rest).take j)) (hj : 8 ≤ j) :
    ∃ r', r.readUint64 = (n, r') ∧ r'.At (rest.take (j - 8)) := by
  rw [List.take_append, List.take_of_length_le (by simpa using hj), length_split64] at h
  exact At.readUint64 h

end BinaryReader

/-- What is read of a frame that breaks off: the fields that decide what happens,
and the number of bytes behind the header. -/
structure Cut where
  type : UInt8
  ttl : UInt8
  packetFlags : UInt8
  payloadLength : UInt16
  left : Nat
  deriving DecidableEq, Repr

def Frame.cut (f : Frame) (k : Nat) : Cut :=
  let h := f.header
  let cut packetFlags payloadLength left :=
    { type := if k < 2 then 0 else h.type, ttl := if k < 3 then 0 else h.ttl,
      packetFlags, payloadLength, left : Cut }
  if k < 4 then cut 0 0 0
  -- within the timestamp
  else if k < 6 then cut (h.timestampMs >>> 56).toUInt8 0 (k - 4)
  else if k < 11 then
    cut (h.timestampMs >>> 56).toUInt8
      (join16 (h.timestampMs >>> 48).toUInt8 (h.timestampMs >>> 40).toUInt8) (k - 6)
  else if k < 12 then cut 0 0 0
  else if k < 14 then cut h.packetFlags 0 (k - 12)
  -- within the sender
  else if k < 22 then cut h.packetFlags h.payloadLength (k - 14)
  else if hasFlag h.packetFlags packetFlagHasRecipient && 30 ≤ k then
    cut h.packetFlags h.payloadLength (k - 30)
  else cut h.packetFlags h.payloadLength (k - 22)

/-- The reader reads the fields of `c`. -/
structure Reads (r : BinaryReader) (c : Cut) : Prop where
  type : (readHeader r).1.type = c.type
  ttl : (readHeader r).1.ttl = c.ttl
  packetFlags : (readHeader r).1.packetFlags = c.packetFlags
  payloadLength : (readHeader r).1.payloadLength = c.payloadLength
  left : ∃ rest, (readHeader r).2.At rest ∧ rest.length = c.left

section Stages
variable {r r₁ r₂ r₃ r₄ r₅ r₆ : BinaryReader} {rest : Bytes}

theorem reads_short (h₁ : r.readUint8 = (type, r₁)) (h₂ : r₁.readUint8 = (ttl, r₂))
    (h₃ : r₂.readUint64 = (ts, r₃)) (h₄ : r₃.readUint8 = (packetFlags, r₄))
    (h₅ : r₄.readUint16 = (payloadLength, r₅)) (ha : r₅.At rest) (hl : rest.length < 8) :
    Reads r ⟨type, ttl, packetFlags, payloadLength, rest.length⟩ := by
  have h₆ := ha.readUint64_short hl
  refine ⟨?_, ?_, ?_, ?_, rest, ?_, rfl⟩
  all_goals simp only [readHeader, h₁, h₂, h₃, h₄, h₅, h₆, ite_self]
  exact ha

theorem reads_sender (h₁ : r.readUint8 = (type, r₁)) (h₂ : r₁.readUint8 = (ttl, r₂))
    (h₃ : r₂.readUint64 = (ts, r₃)) (h₄ : r₃.readUint8 = (packetFlags, r₄))
    (h₅ : r₄.readUint16 = (payloadLength, r₅)) (h₆ : r₅.readUint64 = (sender, r₆))
    (ha : r₆.At ((flagged (hasFlag packetFlags packetFlagHasRecipient) (split64 recipient) ++
      back).take j))
    (hj : j ≤ (flagged (hasFlag packetFlags packetFlagHasRecipient) (split64 recipient) ++
      back).length) :
    Reads r ⟨type, ttl, packetFlags, payloadLength,
      if hasFlag packetFlags packetFlagHasRecipient && 8 ≤ j then j - 8 else j⟩ := by
  cases hf : hasFlag packetFlags packetFlagHasRecipient with
  | false =>
    rw [hf] at ha hj
    refine ⟨?_, ?_, ?_, ?_, _, ?_, List.length_take_of_le hj⟩
    all_goals simp only [readHeader, h₁, h₂, h₃, h₄, h₅, h₆, hf, Bool.false_eq_true, if_false]
    exact ha
  | true =>
    rw [hf] at ha hj
    simp only [flagged, if_true] at ha hj
    rcases Nat.lt_or_ge j 8 with hlt | hge
    · have h₇ := ha.readUint64_short (by rw [List.length_take]; omega)
      refine ⟨?_, ?_, ?_, ?_, _, ?_, (List.length_take_of_le hj).trans (by simp; omega)⟩
      all_goals simp only [readHeader, h₁, h₂, h₃, h₄, h₅, h₆, h₇, hf, if_true]
      exact ha
    · obtain ⟨r₇, h₇, a₇⟩ := ha.readUint64_take hge
      have hback : j - 8 ≤ back.length := by
        rw [List.length_append, length_split64] at hj
        omega
      refine ⟨?_, ?_, ?_, ?_, _, ?_, (List.length_take_of_le hback).trans (by simp [hge])⟩
      all_goals simp only [readHeader, h₁, h₂, h₃, h₄, h₅, h₆, h₇, hf, if_true]
      exact a₇

end Stages

theorem Frame.bytes_eq (f : Frame) : f.bytes = 1 :: f.header.type :: f.header.ttl ::
    (split64 f.header.timestampMs ++ (f.header.packetFlags :: (split16 f.header.payloadLength ++
      (split64 f.header.sender ++ (flagged (hasFlag f.header.packetFlags packetFlagHasRecipient)
        (split64 f.header.recipient) ++ (f.body ++ f.signature)))))) := by
  simp [Frame.bytes, Header.bytes]

section Frames
variable {f : Frame} {r r₁ r₂ : BinaryReader}

theorem Frame.reads_timestamp (hlt : k < 11)
    (h₁ : r.readUint8 = (if k < 2 then 0 else f.header.type, r₁))
    (h₂ : r₁.readUint8 = (if k < 3 then 0 else f.header.ttl, r₂))
    (ha : r₂.At ((split64 f.header.timestampMs ++ back).take (k - 3))) : Reads r (f.cut k) := by
  have h₃ := ha.readUint64_short (by rw [List.length_take]; omega)
  obtain ⟨r₄, h₄, a₄⟩ := ha.readUint8_take
  rcases Nat.lt_or_ge k 6 with hlt₆ | hge₆
  · have h₅ := a₄.readUint16_short (by rw [List.length_take]; omega)
    have hreads := reads_short h₁ h₂ h₃ h₄ h₅ a₄ (by rw [List.length_take]; omega)
    rw [List.length_take_of_le (by simp; omega)] at hreads
    rcases Nat.lt_or_ge k 4 with hlt₄ | hge₄
    · rw [if_pos (show k - 3 = 0 by omega), show k - 3 - 1 = 0 by omega] at hreads
      simpa only [Frame.cut, if_pos hlt₄] using hreads
    · rw [if_neg (show ¬ k - 3 = 0 by omega), show k - 3 - 1 = k - 4 by omega] at hreads
      simpa only [Frame.cut, if_neg hge₄.not_gt, if_pos hlt₆] using hreads
  · obtain ⟨r₅, h₅, a₅⟩ := a₄.readUint16_take (by omega)
    have hreads := reads_short h₁ h₂ h₃ h₄ h₅ a₅ (by rw [List.length_take]; omega)
    rw [List.length_take_of_le (by simp; omega), if_neg (show ¬ k - 3 = 0 by omega),
      show k - 3 - 1 - 2 = k - 6 by omega] at hreads
    simpa only [Frame.cut, if_neg (show ¬ k < 4 by omega), if_neg hge₆.not_gt,
      if_pos hlt] using hreads

/-- Behind the timestamp every field is read from where it is, as far as it is there. -/
theorem Frame.reads_behind (hge : 11 ≤ k) (hk : k < f.bytes.length)
    (h₁ : r.readUint8 = (if k < 2 then 0 else f.header.type, r₁))
    (h₂ : r₁.readUint8 = (if k < 3 then 0 else f.header.ttl, r₂))
    (ha : r₂.At ((f.bytes.drop 3).take (k - 3))) : Reads r (f.cut k) := by
  rw [f.bytes_eq] at ha hk
  simp only [List.length_cons, List.length_append, length_split64, length_split16] at hk
  obtain ⟨r₃, h₃, a₃⟩ := BinaryReader.At.readUint64_take ha (by omega)
  obtain ⟨r₄, h₄, a₄⟩ := a₃.readUint8_take
  simp only [Frame.cut, if_neg (show ¬ k < 4 by omega), if_neg (show ¬ k < 6 by omega),
    if_neg hge.not_gt]
  rcases Nat.lt_or_ge k 14 with hlt₁₄ | hge₁₄
  · have h₅ := a₄.readUint16_short (by rw [List.length_take]; omega)
    have hreads := reads_short h₁ h₂ h₃ h₄ h₅ a₄ (by rw [List.length_take]; omega)
    rw [List.length_take_of_le (by simp; omega)] at hreads
    rcases Nat.lt_or_ge k 12 with hlt₁₂ | hge₁₂
    · rw [if_pos (show k - 3 - 8 = 0 by omega), show k - 3 - 8 - 1 = 0 by omega] at hreads
      simpa only [if_pos hlt₁₂] using hreads
    · rw [if_neg (show ¬ k - 3 - 8 = 0 by omega), show k - 3 - 8 - 1 = k - 12 by omega] at hreads
      simpa only [if_neg hge₁₂.not_gt, if_pos hlt₁₄] using hreads
  · obtain ⟨r₅, h₅, a₅⟩ := a₄.readUint16_take (by omega)
    rw [join16_split] at h₅
    rw [if_neg (show ¬ k - 3 - 8 = 0 by omega)] at h₄
    simp only [if_neg (show ¬ k < 12 by omega), if_neg hge₁₄.not_gt]
    rcases Nat.lt_or_ge k 22 with hlt₂₂ | hge₂₂
    · have hreads := reads_short h₁ h₂ h₃ h₄ h₅ a₅ (by rw [List.length_take]; omega)
      rw [List.length_take_of_le (by simp; omega),
        show k - 3 - 8 - 1 - 2 = k - 14 by omega] at hreads
      simpa only [if_pos hlt₂₂] using hreads
    · obtain ⟨r₆, h₆, a₆⟩ := BinaryReader.At.readUint64_take a₅ (by omega)
      have hreads := reads_sender h₁ h₂ h₃ h₄ h₅ h₆ a₆
        (by rw [List.length_append, List.length_append]; omega)
      have hleft : (hasFlag f.header.packetFlags packetFlagHasRecipient && decide (8 ≤ k - 22)) =
          (hasFlag f.header.packetFlags packetFlagHasRecipient && decide (30 ≤ k)) := by
        rw [decide_eq_decide.mpr (show 8 ≤ k - 22 ↔ 30 ≤ k by omega)]
      rw [show k - 3 - 8 - 1 - 2 - 8 = k - 22 by omega, hleft,
        show k - 22 - 8 = k - 30 by omega] at hreads
      simp only [if_neg hge₂₂.not_gt]
      split
      next hc => rwa [if_pos hc] at hreads
      next hc => rwa [if_neg hc] at hreads

theorem Frame.reads_cut (hk₁ : 1 ≤ k) (hk : k < f.bytes.length)
    (ha : r.At (f.bytes.tail.take (k - 1))) :
    Reads r (f.cut k) := by
  have hbytes := f.bytes_eq
  rw [hbytes, List.tail_cons] at ha
  obtain ⟨r₁, h₁, a₁⟩ := ha.readUint8_take
  obtain ⟨r₂, h₂, a₂⟩ := a₁.readUint8_take
  rw [if_congr (show k - 1 = 0 ↔ k < 2 by omega) rfl rfl] at h₁
  rw [if_congr (show k - 1 - 1 = 0 ↔ k < 3 by omega) rfl rfl] at h₂
  rw [show k - 1 - 1 - 1 = k - 3 by omega] at a₂
  rcases Nat.lt_or_ge k 11 with hlt | hge
  · exact reads_timestamp hlt h₁ h₂ a₂
  · refine reads_behind hge hk h₁ h₂ ?_
    rw [hbytes]
    exact a₂

end Frames

-- ---------------------------------------------------------------------------
-- Payload and signature
-- ---------------------------------------------------------------------------

namespace Cut

def isCompressed (c : Cut) : Bool := hasFlag c.packetFlags packetFlagIsCompressed

def isSigned (c : Cut) : Bool := hasFlag c.packetFlags packetFlagHasSignature

def available (c : Cut) : Nat := if c.isCompressed && 2 ≤ c.left then c.left - 2 else c.left

def declared (c : Cut) : Nat :=
  (if c.isCompressed then c.payloadLength - 2 else c.payloadLength).toNat

end Cut

section Body
variable {r : BinaryReader} {rest : Bytes} {header : Header} {c : Cut}

theorem BinaryReader.At.readData_take (ha : r.At rest) (hn : n ≤ rest.length) :
    ∃ r', r.readData n = some (rest.take n, r') ∧ r'.At (rest.drop n) := by
  rw [← List.take_append_drop n rest] at ha
  obtain ⟨r', hr, ha'⟩ := ha.readData
  rw [List.length_take_of_le hn] at hr
  exact ⟨r', hr, ha'⟩

theorem readPayload_eq (inflate : Bytes → Option Bytes) (hf : header.packetFlags = c.packetFlags)
    (hp : header.payloadLength = c.payloadLength) (ha : r.At rest) (hl : rest.length = c.left) :
    ∃ (r' : BinaryReader) (rest' : Bytes) (payload : Bytes → Bytes), r'.At rest' ∧
    rest'.length = c.available ∧
      readPayload inflate header r = (r'.readData c.declared).map fun body =>
      (payload body.1, body.2) := by
  unfold readPayload Cut.available Cut.declared
  rw [hf, hp]
  cases hc : c.isCompressed with
  | false =>
    have hflag : hasFlag c.packetFlags packetFlagIsCompressed = false := hc
    refine ⟨r, rest, id, ha, hl, ?_⟩
    simp [hflag]
  | true =>
    have hflag : hasFlag c.packetFlags packetFlagIsCompressed = true := hc
    rcases Nat.lt_or_ge c.left 2 with hlt | hge
    · have hsize := ha.readUint16_short (hl ▸ hlt)
      refine ⟨r, rest, fun body => decompressed inflate body 0, ha, ?_, ?_⟩
      · simp [hl, hlt]
      · simp [hflag, hsize]
    · obtain ⟨b₀, b₁, rest', rfl⟩ : ∃ b₀ b₁ rest', rest = b₀ :: b₁ :: rest' := by
        match rest, hl with
        | [], hl => simp at hl; omega
        | [_], hl => simp at hl; omega
        | b₀ :: b₁ :: rest', _ => exact ⟨b₀, b₁, rest', rfl⟩
      obtain ⟨r', hsize, ha'⟩ := ha.readUint16_join
      refine ⟨r', rest', fun body => decompressed inflate body (join16 b₀ b₁).toNat, ha', ?_, ?_⟩
      · simp only [List.length_cons] at hl
        simp [hge]
        omega
      · simp [hflag, hsize]

theorem readBody_missing (inflate : Bytes → Option Bytes) (hf : header.packetFlags = c.packetFlags)
    (hp : header.payloadLength = c.payloadLength) (ha : r.At rest) (hl : rest.length = c.left)
    (h : c.available < c.declared) : readBody inflate header r = .rejected := by
  obtain ⟨r', rest', payload, ha', hl', he⟩ := readPayload_eq inflate hf hp ha hl
  rw [readBody, he, ha'.readData_short (hl' ▸ h), Option.map_none]

theorem readBody_there (inflate : Bytes → Option Bytes) (hf : header.packetFlags = c.packetFlags)
    (hp : header.payloadLength = c.payloadLength) (ha : r.At rest) (hl : rest.length = c.left)
    (h : c.declared ≤ c.available) (hs : c.available - c.declared < 64) :
    if c.isSigned then readBody inflate header r = .nullSignature
    else ∃ p, readBody inflate header r = .packet p ∧ p.toHeader = header := by
  obtain ⟨r', rest', payload, ha', hl', he⟩ := readPayload_eq inflate hf hp ha hl
  obtain ⟨r'', hd, ha''⟩ := ha'.readData_take (hl' ▸ h)
  have hshort := ha''.readData_short (n := 64) (by rw [List.length_drop]; omega)
  rw [readBody, he, hd, Option.map_some]
  unfold readSignature
  rw [hf]
  cases hflag : c.isSigned with
  | true =>
    have hsigned : hasFlag c.packetFlags packetFlagHasSignature = true := hflag
    simp [hsigned, hshort]
  | false =>
    have hsigned : hasFlag c.packetFlags packetFlagHasSignature = false := hflag
    simp [hsigned]

end Body

theorem Frame.left_cut_lt (f : Frame) (hk : k < 22) : (f.cut k).left < 8 := by
  unfold Frame.cut
  simp only [apply_ite Cut.left]
  split
  · exact Nat.succ_pos _
  split
  · omega
  split
  · omega
  split
  · exact Nat.succ_pos _
  split
  · omega
  · omega

theorem Frame.cut_behind (f : Frame) (hk : 22 ≤ k) : f.cut k =
    { type := f.header.type, ttl := f.header.ttl, packetFlags := f.header.packetFlags,
      payloadLength := f.header.payloadLength,
      left := if hasFlag f.header.packetFlags packetFlagHasRecipient && 30 ≤ k then k - 30
        else k - 22 } := by
  have hge (n : Nat) (hn : n ≤ 22) : ¬ k < n := by omega
  simp only [Frame.cut, if_neg (hge 2 (by decide)), if_neg (hge 3 (by decide)),
    if_neg (hge 4 (by decide)),
    if_neg (hge 6 (by decide)), if_neg (hge 11 (by decide)), if_neg (hge 12 (by decide)),
    if_neg (hge 14 (by decide)), if_neg (hge 22 le_rfl)]
  split <;> rfl

/-- Behind an incomplete header there is little, behind a complete one less than
was announced. -/
theorem Frame.cut_left (f : Frame) (k : Nat) : (f.cut k).left < 8 ∨
    (f.cut k).packetFlags = f.header.packetFlags ∧
    (f.cut k).payloadLength = f.header.payloadLength ∧
      (f.cut k).left + f.header.bytes.length = k := by
  rcases Nat.lt_or_ge k 22 with hlt | hge
  · exact .inl (f.left_cut_lt hlt)
  rw [f.cut_behind hge, Header.length_bytes, flaggedLength]
  cases hflag : hasFlag f.header.packetFlags packetFlagHasRecipient with
  | false =>
    right
    refine ⟨rfl, rfl, ?_⟩
    simp only [Bool.false_and, Bool.false_eq_true, if_false]
    omega
  | true =>
    simp only [Bool.true_and, decide_eq_true_eq, if_true, true_and]
    split
    · right; omega
    · left; omega

theorem Frame.behind_lt (f : Frame) (hk : k < f.bytes.length)
    (h : (f.cut k).declared ≤ (f.cut k).available) :
    (f.cut k).available - (f.cut k).declared < 64 := by
  have hle : (f.cut k).available ≤ (f.cut k).left := by
    unfold Cut.available
    split <;> omega
  rcases f.cut_left k with hlt | ⟨hflags, hlen, hleft⟩
  · omega
  · have hbody := f.declared
    have hheader := f.header.length_bytes_le
    have hsig : f.signature.length ≤ 64 := by
      rw [f.signed, flaggedLength]
      split <;> omega
    simp only [Frame.bytes, List.length_append] at hk
    unfold Cut.declared Cut.available at *
    rw [hlen] at *
    cases hc : (f.cut k).isCompressed with
    | false =>
      simp only [hc, Bool.false_and, Bool.false_eq_true, if_false] at *
      omega
    | true =>
      simp only [hc, Bool.true_and, decide_eq_true_eq, if_true] at *
      rcases Nat.lt_or_ge f.header.payloadLength.toNat 2 with hlt | hge
      · rw [Frame.toNat_sub_two_wraps hlt] at *
        split at h <;> omega
      · rw [Frame.toNat_sub_two hge] at *
        split <;> omega

-- ---------------------------------------------------------------------------
-- What is done with the packet
-- ---------------------------------------------------------------------------

def acts (type ttl : UInt8) : Bool :=
  match PacketType.ofCode? type with
  | some .noiseIdentityAnnounce | some .typeMessage | some .typeAnnounce => true
  | some type => type.passAlong && 0 < ttl
  | none => false

theorem ttl_lt_one_iff {ttl : UInt8} : ttl < 1 ↔ ¬ 0 < ttl := by
  have h0 : (0 : UInt8).toNat = 0 := rfl
  have h1 : (1 : UInt8).toNat = 1 := rfl
  rw [UInt8.lt_iff_toNat_lt, UInt8.lt_iff_toNat_lt]
  omega

theorem acts_other (hc : PacketType.ofCode? type = some kind)
    (hnoise : kind ≠ .noiseIdentityAnnounce)
    (hmessage : kind ≠ .typeMessage) (hannounce : kind ≠ .typeAnnounce) :
    acts type ttl = (kind.passAlong && 0 < ttl) := by
  unfold acts
  rw [hc]
  split
  next he => exact absurd (Option.some.inj he) hnoise
  next he => exact absurd (Option.some.inj he) hmessage
  next he => exact absurd (Option.some.inj he) hannounce
  next he =>
    cases he
    rfl
  next he => cases he

theorem dispatch_of_not_acts (h : acts p.type p.ttl = false) :
    dispatch P ambient t origin connection p = (t, []) := by
  unfold dispatch
  split
  next hc =>
    rw [acts, hc] at h
    cases h
  next hc =>
    rw [acts, hc] at h
    cases h
  next hc =>
    rw [acts, hc] at h
    cases h
  next type hnoise hmessage hannounce hc =>
    rw [acts_other hc hnoise hmessage hannounce] at h
    split
    next hpass =>
      have hzero : ¬ 0 < p.ttl := by simpa [hpass] using h
      exact if_pos (ttl_lt_one_iff.mpr hzero)
    · rfl
  · rfl

theorem contains_handleAnnounce :
    (handleAnnounce ambient t connection p).peers.contains p.sender := by
  have hpeers : (handleAnnounce ambient t connection p).peers =
      (updateOrStorePeerName t p.sender p.payload p.ttl connection).peers := by
    unfold handleAnnounce possiblyUpdateTimeOffset
    exact iteInduction (motive := fun u : Tracker => u.peers = _) (fun _ => rfl) (fun _ => rfl)
  rw [hpeers]
  unfold updateOrStorePeerName
  simp only
  split
  · simp only [setConnectionHandleForPeer, OrdMap.contains_modify]
    exact contains_updatePeer _ _ _
  · exact contains_updatePeer _ _ _

theorem peers_handlePassAlong (hash : Bytes → UInt32) :
    (handlePassAlong hash ambient t origin p).1.peers =
    if p.ttl < 1 then t.peers else checkSenderInPeers t.peers p.sender := by
  unfold handlePassAlong
  split
  · rfl
  · simp only [storePacketAndReturnIfNew]
    by_cases hc : t.packets.contains (p.passAlong.packetHash hash)
    · simp [hc]
    · simp [hc, enqueueBroadcastPacketFrom_eq]

theorem peers_handleMessage : (handleMessage ambient t origin p).1.peers =
    (processMessage (checkSenderInPeers t.peers p.sender) p.message p.payload).1 := by
  unfold handleMessage
  rcases processMessage (checkSenderInPeers t.peers p.sender) p.message p.payload with ⟨ps, _ | m⟩
  · rfl
  · simp only [storeMessageAndReturnIfNew]
    by_cases hc : t.messages.contains m.messageId
    · simp [hc]
    · simp [hc, enqueueBroadcastPacketFrom_eq]

theorem dispatch_of_acts (h : acts p.type p.ttl) :
    (dispatch P ambient t origin connection p).1.peers.contains p.sender := by
  unfold dispatch
  split
  · exact contains_updatePeer _ _ _
  · rw [peers_handleMessage, peers_processMessage]
    split
    · exact contains_checkSenderInPeers _ _
    · exact contains_checkSenderInPeers_of_contains (contains_checkSenderInPeers _ _)
  · rw [peers_handlePassAlong]
    split
    · exact contains_handleAnnounce
    · exact contains_checkSenderInPeers _ _
  next type hnoise hmessage hannounce hc =>
    rw [acts_other hc hnoise hmessage hannounce, Bool.and_eq_true, decide_eq_true_eq] at h
    rw [if_pos h.1, peers_handlePassAlong, if_neg fun hlt => ttl_lt_one_iff.mp hlt h.2]
    exact contains_checkSenderInPeers _ _
  next hc =>
    rw [acts, hc] at h
    cases h

/-- A tracker that knows no peers shows whether something is done with a packet. -/
theorem dispatch_ignored_iff {P : Platform} : (∀ ambient t origin connection,
    dispatch P ambient t origin connection p = (t, [])) ↔ acts p.type p.ttl = false := by
  constructor
  · intro h
    refine Bool.eq_false_of_not_eq_true fun hacts => ?_
    have hentered : (dispatch P .idle { announceAddr := 0 } (.frame 0) {} p).1.peers.contains
      p.sender :=
      dispatch_of_acts hacts
    rw [h] at hentered
    exact Bool.false_ne_true hentered
  · intro hidle ambient t origin connection
    exact dispatch_of_not_acts hidle

-- ---------------------------------------------------------------------------
-- Cutting a frame
-- ---------------------------------------------------------------------------

/-- Nothing is there at all, less than the announced payload, or a packet without
signature with which nothing is done. -/
def Frame.harmlessCut (f : Frame) (k : Nat) : Bool :=
  k = 0 || (f.cut k).available < (f.cut k).declared ||
    !(f.cut k).isSigned && !acts (f.cut k).type (f.cut k).ttl

theorem Frame.readPacket_cut (f : Frame) (inflate : Bytes → Option Bytes) (hk₁ : 1 ≤ k)
    (hk : k < f.bytes.length) (hk' : k < 2 ^ 16) :
    ∃ r, readPacket inflate 0 (f.bytes.take k) =
    readBody inflate (readHeader r).1 (readHeader r).2 ∧
      Reads r (f.cut k) := by
  have hlen : (f.bytes.take k).length = k := List.length_take_of_le hk.le
  have ha := BinaryReader.at_new (hlen.symm ▸ hk' : (f.bytes.take k).length < 2 ^ 16)
  have hcons : f.bytes.take k = 1 :: f.bytes.tail.take (k - 1) := by
    rw [f.bytes_eq, List.tail_cons]
    obtain ⟨j, rfl⟩ := Nat.exists_eq_add_of_le' hk₁
    rfl
  rw [hcons] at ha
  obtain ⟨r, hr, ha'⟩ := ha.readUint8
  refine ⟨r, ?_, Frame.reads_cut hk₁ hk ha'⟩
  simp only [hcons, readPacket, hr, ne_eq, not_true_eq_false, if_false]

/-- A frame that breaks off is ignored by every tracker exactly if the cut is
harmless. -/
theorem truncated_ignored_iff (P : Platform) (f : Frame) (k : Nat) (hk : k < f.bytes.length)
    (hk' : k < 2 ^ 16) :
    (∀ ambient t origin connection,
      processWrite P ambient t origin connection 0 (f.bytes.take k) = (t, [])) ↔
      f.harmlessCut k := by
  unfold processWrite Frame.harmlessCut
  rcases Nat.eq_zero_or_pos k with rfl | hk₁
  · exact ⟨fun _ => rfl, fun _ _ _ _ _ => rfl⟩
  obtain ⟨r, hr, hreads⟩ := f.readPacket_cut P.inflate hk₁ hk hk'
  obtain ⟨rest, ha, hl⟩ := hreads.left
  rw [hr]
  simp only [hk₁.ne', decide_false, Bool.false_or, Bool.or_eq_true, decide_eq_true_eq,
    Bool.and_eq_true, Bool.not_eq_true']
  rcases Nat.lt_or_ge (f.cut k).available (f.cut k).declared with hmissing | hthere
  · rw [readBody_missing P.inflate hreads.packetFlags hreads.payloadLength ha hl hmissing]
    exact ⟨fun _ => .inl hmissing, fun _ _ _ _ _ => rfl⟩
  have hbody := readBody_there P.inflate hreads.packetFlags hreads.payloadLength ha hl hthere
    (f.behind_lt hk hthere)
  cases hs : (f.cut k).isSigned with
  | true =>
    rw [hs, if_pos rfl] at hbody
    rw [hbody]
    constructor
    · intro h
      cases h .idle { announceAddr := 0 } (.frame 0) {}
    · rintro (hmissing | ⟨hfalse, -⟩)
      · omega
      · cases hfalse
  | false =>
    rw [hs, if_neg Bool.false_ne_true] at hbody
    obtain ⟨p, hp, hheader⟩ := hbody
    rw [hp, ← hreads.type, ← hreads.ttl, ← hheader]
    refine dispatch_ignored_iff.trans ⟨fun hidle => .inr ⟨rfl, hidle⟩, ?_⟩
    rintro (hmissing | ⟨-, hidle⟩)
    · omega
    · exact hidle

def announceFrame : Frame where
  header :=
    { type := 1, ttl := 3, timestampMs := 9, packetFlags := 0, payloadLength := 3, sender := 7,
      recipient := 0 }
  body := [0x61, 0x62, 0x63]
  signature := []
  proper := fun _ => rfl
  declared := rfl
  signed := rfl

theorem announce_cut_in_payload :
    announceFrame.bytes.length = 25 ∧
      ∀ ambient t origin connection,
        processWrite .bare ambient t origin connection 0 (announceFrame.bytes.take 24) = (t, []) :=
  ⟨by decide +kernel, (truncated_ignored_iff .bare announceFrame 24 (by decide +kernel)
    (by decide)).mpr
    (by decide +kernel)⟩

/-- Of the version and the type alone, an announce with an empty name of peer 0
is read. -/
theorem announce_cut_enters_peer :
    let t : Tracker := { announceAddr := 0 }
    let u := (processWrite .bare .idle t (.entry 3) { connectionHandle := 3 } 0
      (announceFrame.bytes.take 2)).1
    2 < announceFrame.bytes.length ∧ announceFrame.bytes.take 2 = [1, 1] ∧ u.peers.keys = [0] ∧
      u.handlePeerMap.get? 3 = some 0 ∧ u ≠ t := by
  intro t u
  have hkeys : u.peers.keys = [0] := by decide +kernel
  refine ⟨by decide +kernel, by decide +kernel, hkeys, by decide +kernel, fun h => ?_⟩
  rw [h] at hkeys
  cases hkeys

end BitchatRepeater
