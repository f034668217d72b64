import BitchatRepeater.RepeatedReports
import Mathlib.Data.List.Infix

/-!
# Advertising

What the program advertises, and what it makes of advertisements. BTstack's
iterator over advertising data is a parameter; all that is used of it is that it
goes through the structures of well-formed data in order. `check_for_uuid`
compares with the memory behind the pointer it is given, whatever the length of
the structure, so what lies behind an advertisement may decide. The name of the
service is a parameter, too, so that what depends on it shows.
-/

namespace BitchatRepeater

open Lib Tracker

def bitchatServiceUuidReversed : Bytes :=
  [0x5C, 0x4B, 0x3A, 0x2C, 0x1D, 0x8E, 0x3F, 0x9B, 0x5A, 0x4C, 0x9E, 0x4A, 0x2D, 0x5E, 0x7B, 0xF4]

def bleAdvertisingMaxLength : UInt8 := 31

-- ---------------------------------------------------------------------------
-- Structures
-- ---------------------------------------------------------------------------

inductive AdDataType
  | flags | incompleteList128 | completeList128 | shortenedLocalName | completeLocalName
  | solicitation128
  | other (code : UInt8)
  deriving DecidableEq, Repr

def AdDataType.ofCode (code : UInt8) : AdDataType :=
  if code = 0x01 then .flags
  else if code = 0x06 then .incompleteList128
  else if code = 0x07 then .completeList128
  else if code = 0x08 then .shortenedLocalName
  else if code = 0x09 then .completeLocalName
  else if code = 0x15 then .solicitation128
  else .other code

/-- A structure of advertising data. -/
structure AdStructure where
  dataType : UInt8
  data : Bytes
  fits : data.length < 255

/-- `{length, type, data}`, where the length counts the type. -/
def AdStructure.encode (s : AdStructure) : Bytes :=
  UInt8.ofNat (s.data.length + 1) :: s.dataType :: s.data

def encodeAd (structures : List AdStructure) : Bytes := structures.flatMap AdStructure.encode

/-- Where the iterator stands: the type of a structure, and the memory from its data on. -/
structure AdItem where
  dataType : UInt8
  memory : Bytes
  deriving DecidableEq, Repr

/-- `ad_iterator_init` with a length and a pointer, and where it then stands in turn. -/
abbrev AdIterator := UInt8 → Bytes → List AdItem

def adItems : List AdStructure → Bytes → List AdItem
  | [], _ => []
  | s :: rest, behind => ⟨s.dataType, s.data ++ encodeAd rest ++ behind⟩ :: adItems rest behind

def Iterates (iterator : AdIterator) : Prop :=
  ∀ structures behind, (encodeAd structures).length < 256 →
    iterator (UInt8.ofNat (encodeAd structures).length) (encodeAd structures ++ behind) =
      adItems structures behind

-- ---------------------------------------------------------------------------
-- An iterator
-- ---------------------------------------------------------------------------

def walkAd : Nat → Nat → Bytes → List AdItem
  | fuel + 1, left, length :: dataType :: memory =>
    if length = 0 || left < length.toNat + 1 then []
    else
      ⟨dataType, memory⟩ :: walkAd fuel (left - (length.toNat + 1)) (memory.drop (length.toNat - 1))
  | _, _, _ => []

theorem walkAd_encodeAd (fuel : Nat) (structures : List AdStructure) (behind : Bytes)
    (hfuel : structures.length < fuel) :
    walkAd fuel (encodeAd structures).length (encodeAd structures ++ behind) =
    adItems structures behind := by
  induction structures generalizing fuel with
  | nil =>
    unfold walkAd
    split
    · exact if_pos (by simp [encodeAd])
    · rfl
  | cons s rest ih =>
    obtain ⟨fuel, rfl⟩ : ∃ m, fuel = m + 1 := ⟨fuel - 1, by omega⟩
    have hfits := s.fits
    have hlength : (UInt8.ofNat (s.data.length + 1)).toNat = s.data.length + 1 := by
      rw [UInt8.toNat_ofNat', Nat.mod_eq_of_lt (by omega)]
    have hne : UInt8.ofNat (s.data.length + 1) ≠ 0 := by
      intro he
      rw [he] at hlength
      cases hlength
    have hencode : encodeAd (s :: rest) =
        UInt8.ofNat (s.data.length + 1) :: s.dataType :: (s.data ++ encodeAd rest) := rfl
    rw [hencode, List.cons_append, List.cons_append, walkAd, hlength, if_neg]
    · have hleft : (UInt8.ofNat (s.data.length + 1) :: s.dataType ::
        (s.data ++ encodeAd rest)).length -
          (s.data.length + 1 + 1) = (encodeAd rest).length := by
        simp only [List.length_cons, List.length_append]
        omega
      have hdrop : (s.data ++ encodeAd rest ++ behind).drop (s.data.length + 1 - 1) =
          encodeAd rest ++ behind := by
        rw [Nat.add_sub_cancel, List.append_assoc, List.drop_left]
      rw [hleft, hdrop, ih fuel (Nat.lt_of_succ_lt_succ hfuel)]
      rfl
    · simp only [Bool.or_eq_true, decide_eq_true_iff, List.length_cons, List.length_append, not_or]
      exact ⟨hne, by omega⟩

theorem length_le_encodeAd (structures : List AdStructure) :
    structures.length ≤ (encodeAd structures).length := by
  induction structures with
  | nil => exact Nat.zero_le _
  | cons s rest ih =>
    simp only [encodeAd, AdStructure.encode, List.flatMap_cons, List.length_append,
      List.length_cons] at ih ⊢
    omega

def walkIterator : AdIterator := fun size memory => walkAd 256 size.toNat memory

theorem iterates_walkIterator : Iterates walkIterator := by
  intro structures behind hlen
  have hsize : (UInt8.ofNat (encodeAd structures).length).toNat = (encodeAd structures).length := by
    rw [UInt8.toNat_ofNat', Nat.mod_eq_of_lt hlen]
  rw [walkIterator, hsize]
  exact walkAd_encodeAd 256 structures behind ((length_le_encodeAd structures).trans_lt hlen)

-- ---------------------------------------------------------------------------
-- What is heard
-- ---------------------------------------------------------------------------

/-- `0 == memcmp(expected, memory, size of expected)`. -/
def memcmpEqual (expected memory : Bytes) : Bool := memory.take expected.length = expected

@[ext] structure AdFound where
  uuid : Bool := false
  name : Bool := false
  deriving DecidableEq, Repr

/-- One round of the loop: a later structure overwrites what an earlier one said. -/
def checkItem (name : Bytes) (found : AdFound) (item : AdItem) : AdFound :=
  match AdDataType.ofCode item.dataType with
  | .incompleteList128 | .completeList128 | .solicitation128 =>
    { found with uuid := memcmpEqual bitchatServiceUuidReversed item.memory }
  | .shortenedLocalName | .completeLocalName => { found with name := memcmpEqual name item.memory }
  | _ => found

def AdFound.status (found : AdFound) : ServiceUuidCheckStatus :=
  if found.uuid then
    if found.name then .serviceUUIDAndNameFound else .serviceUUIDFound
  else .serviceUUIDNotFound

def checkForUuid (iterator : AdIterator) (name : Bytes) (size : UInt8) (memory : Bytes) :
    ServiceUuidCheckStatus :=
  ((iterator size memory).foldl (checkItem name) {}).status

-- ---------------------------------------------------------------------------
-- What is said
-- ---------------------------------------------------------------------------

/-- The static array and its length, with the writes to it in order, those that
miss it as well. -/
structure AdvData where
  writes : List (Nat × UInt8) := []
  len : UInt8 := 0
  deriving DecidableEq, Repr

namespace AdvData

def push (d : AdvData) (byte : UInt8) : AdvData :=
  { writes := d.writes ++ [(d.len.toNat, byte)], len := d.len + 1 }

/-- `memcpy` to the end, and the length moved on. -/
def copy (d : AdvData) (bytes : Bytes) : AdvData :=
  { writes := d.writes ++ bytes.zipIdx.map fun (byte, k) => (d.len.toNat + k, byte)
    len := d.len + UInt8.ofNat bytes.length }

/-- The last byte written there. -/
def cell (d : AdvData) (index : Nat) : UInt8 :=
  d.writes.foldl (fun byte write => if write.1 = index then write.2 else byte) 0

/-- What the stack is given. -/
def data (d : AdvData) : Bytes := (List.range d.len.toNat).map d.cell

def fitableNameLen (d : AdvData) (name : Bytes) : UInt8 :=
  min (bleAdvertisingMaxLength - d.len - 2) (UInt8.ofNat name.length)

end AdvData

def populateAdvertisingData (name : Bytes) (d : AdvData) : AdvData :=
  let d := ((d.push 2).push 0x01).push 0x06
  let d := ((d.push 17).push 0x06).copy bitchatServiceUuidReversed
  let fitable := d.fitableNameLen name
  let d := d.push (fitable + 1)
  let d := d.push (if fitable = UInt8.ofNat name.length then 0x09 else 0x08)
  d.copy (name.take fitable.toNat)

-- ---------------------------------------------------------------------------
-- Any advertisement
-- ---------------------------------------------------------------------------

variable {iterator : AdIterator} {name behind expected : Bytes} {structures : List AdStructure}

def listsUuids (dataType : UInt8) : Bool :=
  match AdDataType.ofCode dataType with
  | .incompleteList128 | .completeList128 | .solicitation128 => true
  | _ => false

def namesDevice (dataType : UInt8) : Bool :=
  match AdDataType.ofCode dataType with
  | .shortenedLocalName | .completeLocalName => true
  | _ => false

/-- The last structure of this kind, with what comes behind it, begins with `expected`. -/
def LastSays (kind : UInt8 → Bool) (expected : Bytes) (structures : List AdStructure)
    (behind : Bytes) : Prop :=
  ∃ before s after, structures = before ++ s :: after ∧ kind s.dataType ∧
    expected <+: s.data ++ encodeAd after ++ behind ∧ ∀ x ∈ after, kind x.dataType = false

theorem memcmpEqual_iff : memcmpEqual expected memory ↔ expected <+: memory := by
  rw [memcmpEqual, decide_eq_true_iff, List.prefix_iff_eq_take]
  exact eq_comm

theorem uuid_checkItem (name : Bytes) (found : AdFound) (item : AdItem) :
    (checkItem name found item).uuid =
    if listsUuids item.dataType then memcmpEqual bitchatServiceUuidReversed item.memory
    else found.uuid := by
  unfold checkItem listsUuids
  cases AdDataType.ofCode item.dataType <;> rfl

theorem name_checkItem (name : Bytes) (found : AdFound) (item : AdItem) :
    (checkItem name found item).name =
    if namesDevice item.dataType then memcmpEqual name item.memory else found.name := by
  unfold checkItem namesDevice
  cases AdDataType.ofCode item.dataType <;> rfl

theorem foldl_checkItem_iff (found : AdFound → Bool) (kind : UInt8 → Bool)
    (hcheck : ∀ f item, found (checkItem name f item) =
      if kind item.dataType then memcmpEqual expected item.memory else found f)
    (behind : Bytes) (structures : List AdStructure) (f : AdFound) :
    found ((adItems structures behind).foldl (checkItem name) f) ↔
      LastSays kind expected structures behind ∨
      found f ∧ ∀ s ∈ structures, kind s.dataType = false := by
  induction structures generalizing f with
  | nil => simp [adItems, LastSays]
  | cons s rest ih =>
    rw [adItems, List.foldl_cons, ih, hcheck]
    constructor
    · rintro (⟨before, x, after, rfl, hx⟩ | ⟨hfound, hrest⟩)
      · exact .inl ⟨s :: before, x, after, rfl, hx⟩
      · split at hfound
        next hs => exact .inl ⟨[], s, rest, rfl, hs, memcmpEqual_iff.mp hfound, hrest⟩
        next hs => exact .inr ⟨hfound, List.forall_mem_cons.mpr ⟨Bool.eq_false_iff.mpr hs, hrest⟩⟩
    · rintro (⟨before, x, after, he, hx, hmem, hafter⟩ | ⟨hfound, hall⟩)
      · cases before with
        | nil =>
          obtain ⟨rfl, rfl⟩ := List.cons.inj he
          right
          rw [if_pos hx]
          exact ⟨memcmpEqual_iff.mpr hmem, hafter⟩
        | cons y before =>
          obtain ⟨rfl, rfl⟩ := List.cons.inj he
          exact .inl ⟨before, x, after, rfl, hx, hmem, hafter⟩
      · obtain ⟨hs, hrest⟩ := List.forall_mem_cons.mp hall
        rw [hs]
        exact .inr ⟨hfound, hrest⟩

theorem checkForUuid_encodeAd (hit : Iterates iterator)
    (hlen : (encodeAd structures).length < 256) :
    checkForUuid iterator name (UInt8.ofNat (encodeAd structures).length)
      (encodeAd structures ++ behind) =
      ((adItems structures behind).foldl (checkItem name) {}).status := by
  rw [checkForUuid, hit structures behind hlen]

theorem AdFound.status_found (found : AdFound) :
    found.status ≠ .serviceUUIDNotFound ↔ found.uuid := by
  cases found with
  | mk uuid name => cases uuid <;> cases name <;> simp [status]

theorem AdFound.status_both (found : AdFound) :
    found.status = .serviceUUIDAndNameFound ↔ found.uuid ∧ found.name := by
  cases found with
  | mk uuid name => cases uuid <;> cases name <;> simp [status]

/-- A peer is taken for one that speaks the protocol just if the last list of 128 bit
UUIDs begins with ours, and for a repeater if moreover the last name begins with
ours. Where such a structure is too short, what lies behind it decides. -/
theorem advert_recognised_iff (iterator : AdIterator) (hit : Iterates iterator)
    (name behind : Bytes)
    (structures : List AdStructure) (hlen : (encodeAd structures).length < 256) :
    let status := checkForUuid iterator name (UInt8.ofNat (encodeAd structures).length)
      (encodeAd structures ++ behind)
    (status ≠ .serviceUUIDNotFound ↔
      LastSays listsUuids bitchatServiceUuidReversed structures behind) ∧
      (status = .serviceUUIDAndNameFound ↔
        LastSays listsUuids bitchatServiceUuidReversed structures behind ∧
          LastSays namesDevice name structures behind) := by
  intro status
  have huuid := foldl_checkItem_iff AdFound.uuid listsUuids (uuid_checkItem name)
    behind structures {}
  have hname := foldl_checkItem_iff AdFound.name namesDevice (name_checkItem name)
    behind structures {}
  simp only [Bool.false_eq_true, false_and, or_false] at huuid hname
  have hstatus : status = _ := checkForUuid_encodeAd hit hlen
  rw [hstatus, AdFound.status_found, AdFound.status_both, huuid, hname]
  exact ⟨Iff.rfl, Iff.rfl⟩

def twoLists : List AdStructure :=
  [⟨0x07, bitchatServiceUuidReversed, by decide⟩, ⟨0x09, bitchatServiceName, by decide⟩,
    ⟨0x15, List.replicate 16 0, by decide⟩]

theorem twoLists_recognised :
    let status := checkForUuid walkIterator bitchatServiceName
      (UInt8.ofNat (encodeAd twoLists).length)
      (encodeAd twoLists ++ [])
    (status ≠ .serviceUUIDNotFound ↔ LastSays listsUuids bitchatServiceUuidReversed twoLists []) ∧
      (status = .serviceUUIDAndNameFound ↔
        LastSays listsUuids bitchatServiceUuidReversed twoLists [] ∧
          LastSays namesDevice bitchatServiceName twoLists []) ∧
      status = .serviceUUIDNotFound :=
  have h := advert_recognised_iff walkIterator iterates_walkIterator bitchatServiceName []
    twoLists (by decide)
  ⟨h.1, h.2, by decide +kernel⟩

-- ---------------------------------------------------------------------------
-- Our advertisement
-- ---------------------------------------------------------------------------

namespace AdvData

variable {d : AdvData} {bytes : Bytes}

/-- These bytes were written one after the other, and no others. -/
structure Holds (d : AdvData) (bytes : Bytes) : Prop where
  writes : d.writes = bytes.zipIdx.map fun (byte, k) => (k, byte)
  len : d.len.toNat = bytes.length

theorem holds_empty : ({} : AdvData).Holds [] := ⟨rfl, rfl⟩

theorem len_copy (d : AdvData) (bytes : Bytes) (hlen : d.len.toNat + bytes.length < 256) :
    (d.copy bytes).len.toNat = d.len.toNat + bytes.length := by
  have hbytes : (UInt8.ofNat bytes.length).toNat = bytes.length := by
    rw [UInt8.toNat_ofNat', Nat.mod_eq_of_lt (by omega)]
  rw [copy, UInt8.toNat_add, hbytes]
  exact Nat.mod_eq_of_lt hlen

theorem push_eq_copy (d : AdvData) (byte : UInt8) : d.push byte = d.copy [byte] := by
  simp [push, copy]

theorem len_push (d : AdvData) (byte : UInt8) (hlen : d.len.toNat < 255) :
    (d.push byte).len.toNat = d.len.toNat + 1 := by
  rw [push_eq_copy]
  exact d.len_copy [byte] (Nat.succ_lt_succ hlen)

theorem Holds.copy (h : d.Holds bytes) (more : Bytes) (hlen : bytes.length + more.length < 256) :
    (d.copy more).Holds (bytes ++ more) where
  writes := by
    rw [AdvData.copy, h.writes, h.len, List.zipIdx_append, List.map_append]
    rw [Nat.zero_add, List.zipIdx_eq_map_add (i := bytes.length)]
    simp [Function.comp_def, Nat.add_comm]
  len := by
    rw [d.len_copy more (h.len ▸ hlen), h.len, List.length_append]

theorem Holds.push (h : d.Holds bytes) (byte : UInt8) (hlen : bytes.length < 255) :
    (d.push byte).Holds (bytes ++ [byte]) := by
  rw [push_eq_copy]
  exact h.copy [byte] (by simpa using Nat.succ_lt_succ hlen)

theorem Holds.cell (h : d.Holds bytes) (index : Nat) : d.cell index = bytes.getD index 0 := by
  rw [AdvData.cell, h.writes]
  clear h
  induction bytes using List.reverseRecOn with
  | nil => rfl
  | append_singleton bytes byte ih =>
    rw [List.zipIdx_append, List.map_append, List.foldl_append, ih]
    simp only [List.zipIdx_singleton, List.map_singleton, List.foldl_cons,
      List.foldl_nil, Nat.zero_add]
    split
    next he => simp [← he]
    next hne =>
      simp only [List.getD_eq_getElem?_getD, List.getElem?_append, List.getElem?_singleton]
      split
      · rfl
      · rw [if_neg (by omega), List.getElem?_eq_none (by omega)]

theorem Holds.data (h : d.Holds bytes) : d.data = bytes := by
  refine List.ext_getElem (by simp [AdvData.data, h.len]) fun k hk hk' => ?_
  simp [AdvData.data, h.cell, hk']

end AdvData

/-- What fits of the name, whose length is taken modulo 256. -/
def fitableName (name : Bytes) : Bytes := name.take (min 8 (name.length % 256))

theorem length_fitableName (name : Bytes) : (fitableName name).length =
    min 8 (name.length % 256) := by
  have hle := Nat.mod_le name.length 256
  rw [fitableName, List.length_take]
  omega

def ownStructures (name : Bytes) : List AdStructure :=
  [⟨0x01, [0x06], by decide⟩,
    ⟨0x06, bitchatServiceUuidReversed, by decide⟩,
    ⟨if UInt8.ofNat (fitableName name).length = UInt8.ofNat name.length then 0x09 else 0x08,
      fitableName name, by rw [length_fitableName]; omega⟩]

theorem length_encodeAd_own (name : Bytes) :
    (encodeAd (ownStructures name)).length = 23 + min 8 (name.length % 256) := by
  simp only [encodeAd, ownStructures, AdStructure.encode, List.flatMap_cons, List.flatMap_nil,
    List.append_nil, List.length_append, List.length_cons, length_fitableName]
  simp [bitchatServiceUuidReversed]
  omega

theorem toNat_fitableNameLen {d : AdvData} (hd : d.len = 21) (name : Bytes) :
    (d.fitableNameLen name).toNat = (fitableName name).length := by
  have hroom : bleAdvertisingMaxLength - d.len - 2 = 8 := by rw [hd]; decide
  have hname : (UInt8.ofNat name.length).toNat = name.length % 256 := UInt8.toNat_ofNat'
  rw [AdvData.fitableNameLen, hroom, length_fitableName]
  show (if (8 : UInt8) ≤ UInt8.ofNat name.length then (8 : UInt8)
    else UInt8.ofNat name.length).toNat = _
  split
  next hle =>
    rw [UInt8.le_iff_toNat_le, hname] at hle
    exact (min_eq_left hle).symm
  next hlt =>
    rw [UInt8.le_iff_toNat_le, hname] at hlt
    rw [hname]
    exact (min_eq_right (Nat.le_of_not_le hlt)).symm

theorem holds_populateAdvertisingData (name : Bytes) :
    (populateAdvertisingData name {}).Holds (encodeAd (ownStructures name)) := by
  have hflags := ((AdvData.holds_empty.push 2 (by decide)).push 0x01 (by decide)).push
    0x06 (by decide)
  have huuid := ((hflags.push 17 (by decide)).push 0x06 (by decide)).copy
    bitchatServiceUuidReversed (by decide)
  generalize hd : (((((({} : AdvData).push 2).push 0x01).push 0x06).push 17).push 0x06).copy
    bitchatServiceUuidReversed = d at huuid
  have hlen : d.len = 21 := by rw [← hd]; decide
  have hfit := toNat_fitableNameLen hlen name
  have hshort : (fitableName name).length ≤ 8 := by
    rw [length_fitableName]
    exact min_le_left _ _
  have hbyte : d.fitableNameLen name = UInt8.ofNat (fitableName name).length := by
    rw [← hfit, UInt8.ofNat_toNat]
  have hname : name.take (d.fitableNameLen name).toNat = fitableName name := by
    rw [hfit, length_fitableName, fitableName]
  have hpop : populateAdvertisingData name {} = ((d.push (d.fitableNameLen name + 1)).push
      (if d.fitableNameLen name = UInt8.ofNat name.length then 0x09 else 0x08)).copy
        (name.take (d.fitableNameLen name).toNat) := by
    rw [← hd]
    rfl
  have hsize : UInt8.ofNat ((fitableName name).length + 1) = d.fitableNameLen name + 1 := by
    rw [hbyte, UInt8.ofNat_add]
    rfl
  have hhead : bitchatServiceUuidReversed.length = 16 := rfl
  have hall := ((huuid.push (d.fitableNameLen name + 1) (by simp [hhead])).push
    (if d.fitableNameLen name = UInt8.ofNat name.length then 0x09 else 0x08) (by simp [hhead])).copy
      (fitableName name) (by simp [hhead]; omega)
  rw [hpop, hname]
  simpa [encodeAd, ownStructures, AdStructure.encode, hsize, ← hbyte, hhead] using hall

theorem check_own (name behind : Bytes) :
    (adItems (ownStructures name) behind).foldl (checkItem name) {} =
      { uuid := true, name := memcmpEqual name (fitableName name ++ behind) } := by
  have huuid (rest : Bytes) : memcmpEqual bitchatServiceUuidReversed
    (bitchatServiceUuidReversed ++ rest) = true :=
    memcmpEqual_iff.mpr (List.prefix_append _ _)
  have hlists (complete : Prop) [Decidable complete] :
      listsUuids (if complete then 0x09 else 0x08) = false := by
    split <;> rfl
  have hnames (complete : Prop) [Decidable complete] :
      namesDevice (if complete then 0x09 else 0x08) = true := by
    split <;> rfl
  refine AdFound.ext ?_ ?_
  · simp only [ownStructures, adItems, List.foldl_cons, List.foldl_nil, uuid_checkItem, hlists,
      List.append_assoc, huuid]
    rfl
  · simp only [ownStructures, adItems, List.foldl_cons, List.foldl_nil, name_checkItem, hnames]
    simp [encodeAd]

/-- Of a name that does not fit the rest has to lie behind the advertisement. -/
theorem memcmpEqual_fitableName (name behind : Bytes) :
    memcmpEqual name (fitableName name ++ behind) ↔
    name.drop (fitableName name).length <+: behind := by
  have hsplit : name = fitableName name ++ name.drop (fitableName name).length := by
    rw [length_fitableName]
    exact (List.take_append_drop _ name).symm
  rw [memcmpEqual_iff]
  nth_rewrite 1 [hsplit]
  exact List.prefix_append_right_inj _

namespace AdvData

theorem Holds.lt_of_mem {d : AdvData} {bytes : Bytes} (h : d.Holds bytes) (hw : w ∈ d.writes) :
    w.1 < bytes.length := by
  rw [h.writes] at hw
  obtain ⟨⟨byte, k⟩, hk, rfl⟩ := List.mem_map.mp hw
  exact List.snd_lt_of_mem_zipIdx hk

theorem writes_push (d : AdvData) (byte : UInt8) : d.writes <+: (d.push byte).writes :=
  List.prefix_append _ _

theorem writes_copy (d : AdvData) (bytes : Bytes) : d.writes <+: (d.copy bytes).writes :=
  List.prefix_append _ _

end AdvData

theorem writes_populateAdvertisingData (name : Bytes) (d : AdvData) :
    d.writes <+: (populateAdvertisingData name d).writes := by
  have hflags := ((d.writes_push 2).trans (AdvData.writes_push _ 0x01)).trans
    (AdvData.writes_push _ 0x06)
  have huuid := ((hflags.trans (AdvData.writes_push _ 17)).trans (AdvData.writes_push _ 0x06)).trans
    (AdvData.writes_copy _ bitchatServiceUuidReversed)
  exact ((huuid.trans (AdvData.writes_push _ _)).trans (AdvData.writes_push _ _)).trans
    (AdvData.writes_copy _ _)

theorem exists_write_populateAdvertisingData (name : Bytes) (d : AdvData) (hd : d.len.toNat < 235) :
    ∃ byte, (d.len.toNat + 21, byte) ∈ (populateAdvertisingData name d).writes := by
  generalize hu : (((((d.push 2).push 0x01).push 0x06).push 17).push 0x06).copy
    bitchatServiceUuidReversed = u
  have hlen : u.len.toNat = d.len.toNat + 21 := by
    have hhead : bitchatServiceUuidReversed.length = 16 := rfl
    have h₁ := d.len_push 2 (by omega)
    have h₂ := (d.push 2).len_push 0x01 (by omega)
    have h₃ := ((d.push 2).push 0x01).len_push 0x06 (by omega)
    have h₄ := (((d.push 2).push 0x01).push 0x06).len_push 17 (by omega)
    have h₅ := ((((d.push 2).push 0x01).push 0x06).push 17).len_push 0x06 (by omega)
    rw [← hu, AdvData.len_copy _ _ (by omega), hhead]
    omega
  have hpop : populateAdvertisingData name d = ((u.push (u.fitableNameLen name + 1)).push
      (if u.fitableNameLen name = UInt8.ofNat name.length then 0x09 else 0x08)).copy
        (name.take (u.fitableNameLen name).toNat) := by
    rw [← hu]
    rfl
  have hw : (u.len.toNat, u.fitableNameLen name + 1) ∈
    (u.push (u.fitableNameLen name + 1)).writes :=
    List.mem_append_right _ List.mem_cons_self
  refine ⟨u.fitableNameLen name + 1, ?_⟩
  rw [hpop, ← hlen]
  exact (AdvData.writes_copy _ _).subset ((AdvData.writes_push _ _).subset hw)

/-- The static array is filled once. Whatever the name, a second call writes behind it. -/
theorem advData_inside_iff (name : Bytes) (n : Nat) :
    (∀ w ∈ ((populateAdvertisingData name)^[n] {}).writes, w.1 < bleAdvertisingMaxLength.toNat) ↔
    n ≤ 1 := by
  have hfirst := holds_populateAdvertisingData name
  have hlen := length_encodeAd_own name
  have hmax : bleAdvertisingMaxLength.toNat = 31 := rfl
  constructor
  · intro h
    by_contra hn
    obtain ⟨m, rfl⟩ : ∃ m, n = m + 2 := ⟨n - 2, by omega⟩
    obtain ⟨byte, hw⟩ := exists_write_populateAdvertisingData name (populateAdvertisingData name {})
      (by rw [hfirst.len, hlen]; omega)
    have hstays (m : Nat) : (populateAdvertisingData name
      (populateAdvertisingData name {})).writes <+:
        ((populateAdvertisingData name)^[m + 2] {}).writes := by
      induction m with
      | zero => exact List.prefix_refl _
      | succ m ih =>
        rw [Function.iterate_succ_apply']
        exact ih.trans (writes_populateAdvertisingData name _)
    have hlt := h _ ((hstays m).subset hw)
    rw [hfirst.len, hlen, hmax] at hlt
    omega
  · intro hn w hw
    interval_cases n
    · cases hw
    · have hlt := hfirst.lt_of_mem hw
      rw [hlen] at hlt
      rw [hmax]
      omega

-- ---------------------------------------------------------------------------
-- Neighbours
-- ---------------------------------------------------------------------------

variable {t u : Tracker}

def UnlinkedNeighbours (t : Tracker) : Prop :=
  ∀ address n, t.availableNeighbours.get? address = some n →
  n.btAddress = address ∧ n.connected = false

inductive NeighbourStep (t u : Tracker) : Prop
  | goes (h : ∀ address n, u.availableNeighbours.get? address = some n →
      t.availableNeighbours.get? address = some n)
  | comes (now : UInt64) (address : Bytes) (addressType : AddressType)
      (services : ServiceUuidCheckStatus)
      (rssi : Int) (h : u = t.addAvailablePeer now address addressType services rssi)

theorem NeighbourStep.same (h : u.availableNeighbours = t.availableNeighbours) :
    NeighbourStep t u :=
  .goes fun address n hn => by rwa [h] at hn

theorem NeighbourStep.erase {gone : Bytes × BleConnection → Bool}
    (h : u.availableNeighbours = t.availableNeighbours.eraseIf gone) : NeighbourStep t u := by
  refine .goes fun address n hn => ?_
  rw [h, OrdMap.get?_eq_some, OrdMap.mem_eraseIf] at hn
  exact OrdMap.get?_eq_some.mpr hn.1

theorem Adjusts.neighbourStep (h : Adjusts P t i r) : NeighbourStep t r.1 := by
  cases h with
  | same => exact .same rfl
  | find h => exact .same (neighbours_connectionForConnHandle t h)
  | update h => exact .same (neighbours_connectionForConnHandle t h)
  | advertise => exact .comes _ _ _ _ _ rfl
  | report => exact .erase rfl
  | reportRole => exact .erase rfl
  | disconnect => exact .same rfl
  | connect => exact .same rfl
  | start => exact .erase rfl
  | duplicates =>
    unfold getAnyDuplicateHandle
    split
    · exact .same rfl
    · exact .same rfl

theorem neighbourStep_step (P : Platform) (t : Tracker) (i : Input) :
    NeighbourStep t (step P t i).1 := by
  cases hi : ordinary i.event with
  | true => exact (adjusts_step hi).neighbourStep
  | false =>
    obtain ⟨event, ambient⟩ := i
    have hwrite (h : Handle) (origin : ConnPtr) (offset : UInt16) (buffer : Bytes) :
        (ProtocolProcessor.processWrite P ambient (t.connectionForConnHandle h) origin
          ((t.connectionForConnHandle h).connectionAt h) offset buffer).1.availableNeighbours =
            t.availableNeighbours := by
      obtain ⟨_, _, _, _, _, _, _, _, he⟩ :=
        processWrite_frame P ambient (t.connectionForConnHandle h)
        origin ((t.connectionForConnHandle h).connectionAt h) offset buffer
      rw [he]
      exact neighbours_connectionForConnHandle t h
    cases event with
    | attWrite h transaction att offset buffer =>
      obtain ⟨rfl, rfl⟩ := attWrite_of_not_ordinary hi
      exact .same (hwrite h _ offset buffer)
    | gattNotification h value => exact .same (hwrite h _ 0 value)
    | canSendNotification h status =>
      obtain ⟨_, _, _, he⟩ := (drains_sendRawPacket .notify t h status).eq
      exact .same (congrArg availableNeighbours he :)
    | canWriteWithoutResponse h status =>
      obtain ⟨_, _, _, he⟩ := (drains_sendRawPacket .write t h status).eq
      exact .same (congrArg availableNeighbours he :)
    | lifeCheck =>
      obtain ⟨_, _, he⟩ := handlePinActivity_frame P ambient t
      exact .same (congrArg availableNeighbours he :)
    | announceToConnections =>
      obtain ⟨_, _, _, he⟩ := (announces_announceToConnections P ambient.now ambient.stale t).eq
      exact .same (congrArg availableNeighbours he :)
    | sendPackets =>
      obtain ⟨v, targeted, hs, he, -⟩ := sendPackets_sends ambient.stale t
      obtain ⟨_, _, _, _, hv⟩ := hs.eq
      exact .same (by simp only [step, he, hv])
    | cleanupStaleItems => exact .erase rfl
    | _ => cases hi

theorem UnlinkedNeighbours.step (h : UnlinkedNeighbours t) (hs : NeighbourStep t u) :
    UnlinkedNeighbours u := by
  intro address n hn
  cases hs with
  | goes hg => exact h address n (hg address n hn)
  | comes now a addressType services rssi hu =>
    subst hu
    simp only [Tracker.addAvailablePeer, OrdMap.get?_insert] at hn
    split at hn
    next he =>
      cases hn
      refine ⟨he.symm, ?_⟩
      cases hg : t.availableNeighbours.get? a with
      | none => rfl
      | some c => exact (h a c hg).2
    next => exact h address n hn

theorem unlinkedNeighbours_run (P : Platform) (addr : Addr) (is : List Input) :
    UnlinkedNeighbours (run (step P) { announceAddr := addr } is).1 :=
  run_state_invariant UnlinkedNeighbours (fun t i _ h => h.step (neighbourStep_step P t i))
    (fun _ _ hn => nomatch hn) (along_true _ _)

theorem connectable_addAvailablePeer (h : UnlinkedNeighbours t) (now : UInt64) (address : Bytes)
    (addressType : AddressType) (services : ServiceUuidCheckStatus) (rssi : Int) :
    (∃ c ∈ (t.addAvailablePeer now address addressType services rssi).getConnectableNeighbours,
        c.btAddress = address) ↔
      addressType ≠ .leRandom ∧ (buildTimeMs ≤ t.timestampOffsetMs ∨
        services = .serviceUUIDAndNameFound) := by
  have hunlinked := h.step (.comes now address addressType services rssi rfl)
  have hget : (t.addAvailablePeer now address addressType services rssi).availableNeighbours.get?
    address =
      some { (t.availableNeighbours.get? address).getD {} with
        btAddress := address, btAddressType := addressType, servicesFound := services, rssi := rssi
        lastSeenTime := now } := OrdMap.get?_insert_self
  generalize hc : ({ (t.availableNeighbours.get? address).getD {} with
    btAddress := address, btAddressType := addressType, servicesFound := services, rssi := rssi
    lastSeenTime := now } : BleConnection) = c at hget
  have hidle : c.connected = false := (hunlinked address c hget).2
  have hdecides : c ∈ (t.addAvailablePeer now address addressType services
    rssi).getConnectableNeighbours ↔
      addressType ≠ .leRandom ∧ (buildTimeMs ≤ t.timestampOffsetMs ∨
        services = .serviceUUIDAndNameFound) := by
    have hm : c ∈ (t.addAvailablePeer now address addressType services
      rssi).availableNeighbours.entries.map
        Prod.snd := List.mem_map_of_mem (OrdMap.get?_eq_some.mp hget)
    rw [getConnectableNeighbours, List.mem_filter]
    have hoffset : (t.addAvailablePeer now address addressType services rssi).timestampOffsetMs =
        t.timestampOffsetMs := rfl
    have htype : c.btAddressType = addressType := by rw [← hc]
    have hfound : c.servicesFound = services := by rw [← hc]
    simp [hm, hidle, hoffset, BleConnection.isRandom, BleConnection.isRepeater, htype,
      hfound, and_comm]
  rw [← hdecides]
  constructor
  · rintro ⟨d, hd, he⟩
    obtain ⟨⟨k, d⟩, hk, rfl⟩ := List.mem_map.mp (List.mem_filter.mp hd).1
    have hgetd := OrdMap.get?_eq_some.mpr hk
    rw [← (hunlinked k d hgetd).1, he, hget] at hgetd
    cases hgetd
    exact hd
  · intro hm
    exact ⟨c, hm, (hunlinked address c hget).1⟩

/-- In every run, a repeater whose advertisement is heard at a public address is a
neighbour to connect to, unless the clock is not set yet and its name did not fit
into the advertisement and what lies behind that is not the rest of the name. -/
theorem repeater_connectable_iff (P : Platform) (addr : Addr) (is : List Input)
    (iterator : AdIterator) (hit : Iterates iterator) (name behind : Bytes) (address : Bytes)
    (addressType : AddressType) (rssi : Int) (ambient : Ambient) :
    let t := (run (step P) { announceAddr := addr } is).1
    let advert := populateAdvertisingData name {}
    let services := checkForUuid iterator name advert.len (advert.data ++ behind)
    (∃ c ∈ (step P t
        ⟨.advertisingReport address addressType services rssi, ambient⟩).1.getConnectableNeighbours,
      c.btAddress = address) ↔
      addressType ≠ .leRandom ∧
        (buildTimeMs ≤ t.timestampOffsetMs ∨ name.drop (min 8 (name.length % 256)) <+: behind) := by
  intro t advert services
  have hholds : advert.Holds (encodeAd (ownStructures name)) := holds_populateAdvertisingData name
  have hlen : (encodeAd (ownStructures name)).length < 256 := by
    rw [length_encodeAd_own]
    omega
  have hservices : services = ({ uuid := true,
                                 name := memcmpEqual name (fitableName name ++ behind) } :
                                 AdFound).status := by
    show checkForUuid iterator name advert.len (advert.data ++ behind) = _
    rw [hholds.data, ← check_own, ← checkForUuid_encodeAd hit hlen, ← hholds.len, UInt8.ofNat_toNat]
  have hfound : services ≠ .serviceUUIDNotFound := by
    rw [hservices, AdFound.status_found]
  have hnamed : services = .serviceUUIDAndNameFound ↔
      name.drop (min 8 (name.length % 256)) <+: behind := by
    rw [hservices, AdFound.status_both, ← length_fitableName, ← memcmpEqual_fitableName]
    exact and_iff_right rfl
  have hstep : (step P t ⟨.advertisingReport address addressType services rssi, ambient⟩).1 =
      t.addAvailablePeer ambient.now address addressType services rssi := by
    simp only [step, if_neg hfound]
  rw [hstep, connectable_addAvailablePeer (unlinkedNeighbours_run P addr is), hnamed]

/-- The name of the program just fits, and its repeaters connect before any clock is set. -/
theorem repeater_connectable :
    let advert := populateAdvertisingData bitchatServiceName {}
    let services := checkForUuid walkIterator bitchatServiceName advert.len (advert.data ++ [])
    ∃ c ∈ (step .bare { announceAddr := 0 }
        ⟨.advertisingReport [1, 1, 1, 1, 1, 1] .lePublic services (-60),
          .idle⟩).1.getConnectableNeighbours,
      c.btAddress = [1, 1, 1, 1, 1, 1] :=
  (repeater_connectable_iff .bare 0 [] walkIterator iterates_walkIterator bitchatServiceName []
    [1, 1, 1, 1, 1, 1] .lePublic (-60) .idle).mpr ⟨by decide, .inr (by decide)⟩

end BitchatRepeater
