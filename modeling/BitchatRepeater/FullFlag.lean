import BitchatRepeater.LogDrain

/-!
# The full flag

`full()` reads `maxed`, which every call that moves the head or the tail sets anew.
A write compares the head with `tail - 1` and misses the buffer that is full with
its tail at the start of the array. What consumes resets the flag, also where
nothing is taken from a full buffer, or where a line sets the tail behind the head.
-/

namespace BitchatRepeater.CircularBuffer

open Lib

section Flag
variable {α : Type} {b b' : CircularBuffer α}

/-- `full()` tells whether the buffer holds as many items as it can. -/
def FullExact (b : CircularBuffer α) : Prop :=
  (b.full ↔ b.held.length + 1 = b.fixedSize) ∧ (b.full ↔ (b.head + 1) % b.fixedSize = b.tail)

def FillsToEnd (b : CircularBuffer α) (count : Nat) : Prop :=
  (b.head + count) % b.fixedSize + 1 = b.fixedSize ∧ b.fixedSize ≤ b.size + count + 1

instance decidableFillsToEnd (b : CircularBuffer α) (count : Nat) :
    Decidable (FillsToEnd b count) :=
  inferInstanceAs (Decidable (_ ∧ _))

theorem Ok.full_iff (h : Ok b) : b.size + 1 = b.fixedSize ↔
    (b.head + 1) % b.fixedSize = b.tail := by
  have hsize := h.size_lt
  rw [h.head_add, Nat.add_assoc, add_mod_eq_self_iff h.tail_lt]
  constructor
  · intro he
    rw [he]
  · intro hd
    have hle := Nat.le_of_dvd (Nat.succ_pos _) hd
    omega

theorem Ok.fullExact_iff (h : Ok b) : FullExact b ↔ (b.maxed ↔ b.size + 1 = b.fixedSize) := by
  rw [FullExact, length_held, ← h.full_iff, and_self]
  rfl

theorem FullExact.maxed_iff (hx : FullExact b) (h : Ok b) : b.maxed ↔ b.size + 1 = b.fixedSize :=
  h.fullExact_iff.mp hx

-- ---------------------------------------------------------------------------
-- Writing
-- ---------------------------------------------------------------------------

/-- The comparison with `tail - 1` tells, unless the head is in the last cell. -/
theorem Ok.compared_iff (h : Ok b) (hm : b.maxed ↔ b.head + 1 = b.tail) :
    FullExact b ↔ ¬ (b.head + 1 = b.fixedSize ∧ b.tail = 0) := by
  have hh := h.head_lt
  have ht := h.tail_lt
  rw [h.fullExact_iff, hm, h.full_iff]
  rcases Nat.lt_or_ge (b.head + 1) b.fixedSize with hlt | hge
  · rw [Nat.mod_eq_of_lt hlt]
    omega
  · have heq : b.head + 1 = b.fixedSize := Nat.le_antisymm hh hge
    rw [heq, Nat.mod_self]
    omega

theorem Ok.fillsToEnd_iff (h : Ok b) (hhead : b'.head = (b.head + count) % b.fixedSize)
    (htail : b.size + count + 1 ≤ b.fixedSize ∧ b'.tail = b.tail ∨
      b.fixedSize ≤ b.size + count + 1 ∧ b'.tail = (b.head + count + 1) % b.fixedSize) :
    b'.head + 1 = b.fixedSize ∧ b'.tail = 0 ↔ FillsToEnd b count := by
  have ht := h.tail_lt
  rw [FillsToEnd, hhead]
  refine and_congr_right fun hlast => ?_
  rcases htail with ⟨hroom, htail⟩ | ⟨hfull, htail⟩
  · rw [htail]
    rw [h.head_add, Nat.add_assoc] at hlast
    constructor
    · intro hzero
      rw [hzero, Nat.zero_add] at hlast
      have hle := Nat.mod_le (b.size + count) b.fixedSize
      omega
    · intro hfull
      have hcount : b.size + count = b.fixedSize - 1 := by omega
      by_contra hpos
      rw [hcount, show b.tail + (b.fixedSize - 1) = b.tail - 1 + b.fixedSize by omega,
        Nat.add_mod_right, Nat.mod_eq_of_lt (by omega)] at hlast
      omega
  · refine iff_of_true ?_ hfull
    rw [htail, ← Nat.mod_add_mod, hlast, Nat.mod_self]

theorem FullExact.writeItem_iff (hx : FullExact b) [Zero α] (h : Ok b) (item : α) :
    FullExact (b.writeItem item) ↔ ¬ FillsToEnd b 1 := by
  have htail := tail_writeItem h (hx.maxed_iff h).mpr item
  rw [(ok_writeItem h item).compared_iff decide_eq_true_iff]
  exact not_congr (h.fillsToEnd_iff rfl htail)

theorem FullExact.ready (hx : FullExact b) (h : Ok b) (hs : s ≠ []) : Ready b s :=
  ⟨fun hnil => absurd hnil hs, fun _ hfull => .inl ((hx.maxed_iff h).mpr hfull)⟩

theorem FullExact.write_iff [Zero α] [DecidableEq α] (hx : FullExact b) (h : Ok b)
    (hw : b.write items = some b') : FullExact b' ↔ ¬ FillsToEnd b (str items).length := by
  obtain ⟨hok, hfixed, hmaxed⟩ := ok_write h hw
  obtain ⟨flag, rfl, hm⟩ := write_eq hw
  rw [hok.compared_iff hmaxed, hfixed]
  by_cases hs : str items = []
  · -- head and tail stay where they are
    rw [hs] at hm ⊢
    have hroom : b.size + 0 + 1 ≤ b.fixedSize := h.size_lt
    exact not_congr (h.fillsToEnd_iff rfl (.inl ⟨hroom, tail_wrote_nil h hm⟩))
  · exact not_congr (h.fillsToEnd_iff rfl (tail_wrote h (hx.ready h hs) hs hm))

-- ---------------------------------------------------------------------------
-- Consuming
-- ---------------------------------------------------------------------------

theorem Ok.movedTo_iff (h : Ok b) (hpos : pos < b.fixedSize) :
    FullExact (b.movedTo pos) ↔ (b.head + 1) % b.fixedSize ≠ pos := by
  have hok := h.movedTo hpos
  rw [hok.fullExact_iff, hok.full_iff]
  simp [CircularBuffer.movedTo]

theorem Ok.consumed_iff (h : Ok b) (hj : j ≤ b.consumable) :
    FullExact (b.movedTo ((b.tail + j) % b.fixedSize)) ↔ (j = 0 → b.size + 1 ≠ b.fixedSize) := by
  have hok := h.movedTo (Nat.mod_lt (b.tail + j) (Nat.zero_lt_of_lt h.head_lt))
  have hsize := h.size_lt
  have hsplit := congrArg List.length (h.held_movedTo hj rfl)
  rw [List.length_append, length_held, length_held, copy, List.length_map,
    List.length_range] at hsplit
  rw [hok.fullExact_iff]
  simp only [CircularBuffer.movedTo, Bool.false_eq_true, false_iff] at hsplit ⊢
  omega

theorem Ok.room_of_consumable (h : Ok b) (hn : 2 ≤ b.fixedSize) (hc : b.consumable = 0) :
    b.size + 1 ≠ b.fixedSize := by
  have hnil : b.held = [] := by
    by_contra hne
    exact absurd (h.consumable_le.2.2 hne) (by omega)
  rw [← length_held, hnil, List.length_nil]
  omega

end Flag

-- ---------------------------------------------------------------------------
-- Calls
-- ---------------------------------------------------------------------------

section Char
variable {b b' : CircularBuffer UInt8}

/-- Where a line from characters that run on over the end of the array does not set
the tail one cell behind the head: it may go to the cell of the line size, or from
an empty front piece behind a stale newline. -/
def LineKeepsRoom (b : CircularBuffer UInt8) (lineSize : Nat) : Prop :=
  match b.strchr b.tail with
  | some none =>
    if lineSize < b.consumable then lineSize ≠ b.head + 1
    else
      match b.strchr 0 with
      | some (some i) => b.head = 0 → min (lineSize - b.consumable) (i + 1) ≠ 1
      | _ => True
  | _ => True

instance decidableLineKeepsRoom (b : CircularBuffer UInt8) (lineSize : Nat) :
    Decidable (LineKeepsRoom b lineSize) := by
  unfold LineKeepsRoom
  rcases b.strchr b.tail with _ | _ | _
  · exact isTrue trivial
  · rcases b.strchr 0 with _ | _ | _
    all_goals
      dsimp only
      infer_instance
  · exact isTrue trivial

/-- When a call leaves the flag exact: a write does not fill the buffer up to the
last cell, and what consumes takes something from a full buffer. -/
def FlagReady (b : CircularBuffer UInt8) : Call → Prop
  | .writeItem _ => ¬ FillsToEnd b 1
  | .write items => ¬ FillsToEnd b (str items).length
  | .consumeBlockInto blockSize => blockSize.toNat = 0 → b.size + 1 ≠ b.fixedSize
  | .consumeLine lineSize =>
    (lineSize.toNat = 0 → b.size + 1 ≠ b.fixedSize) ∧ (b.wraps → LineKeepsRoom b lineSize.toNat)
  | .consume | .consumeBlock | .clear | .clearIfEmpty => True

instance decidableFlagReady (b : CircularBuffer UInt8) : DecidablePred (FlagReady b)
  | .writeItem _ => inferInstanceAs (Decidable (¬ FillsToEnd b 1))
  | .write items => inferInstanceAs (Decidable (¬ FillsToEnd b (str items).length))
  | .consumeBlockInto blockSize =>
    inferInstanceAs (Decidable (blockSize.toNat = 0 → b.size + 1 ≠ b.fixedSize))
  | .consumeLine lineSize =>
    inferInstanceAs (Decidable ((lineSize.toNat = 0 → b.size + 1 ≠ b.fixedSize) ∧
      (b.wraps → LineKeepsRoom b lineSize.toNat)))
  | .consume | .consumeBlock | .clear | .clearIfEmpty => isTrue trivial

theorem Ended.front_newline (h : Ended b) (hw : b.head < b.tail) (hj : b.strchr 0 = some (some j)) :
    j < b.fixedSize ∧ (0 < b.head → j < b.head) := by
  obtain ⟨z, hz, hzn, hzh⟩ := h.front hw
  have hjz : j < z := by
    rcases strchr_ended hz hzn (Nat.zero_le z) with h0 | ⟨i, hi, h0⟩
    · cases hj.symm.trans h0
    · cases hj.symm.trans h0
      exact hi
  exact ⟨hjz.trans_le hzn, fun hpos => hzh hpos ▸ hjz⟩

theorem Ended.over_iff (h : Ended b) (hw : b.head < b.tail) (hj : b.strchr 0 = some (some j))
    (he : extra = min room (j + 1)) :
    FullExact (b.movedTo (extra % b.fixedSize)) ↔ (b.head = 0 → extra ≠ 1) := by
  have ht := h.tail_lt
  obtain ⟨hjn, hjh⟩ := h.front_newline hw hj
  rw [h.toOk.movedTo_iff (Nat.mod_lt _ (Nat.zero_lt_of_lt ht)), Nat.mod_eq_of_lt (by omega)]
  rcases Nat.eq_zero_or_pos b.head with hzero | hpos
  · rw [hzero]
    rcases Nat.lt_or_ge extra b.fixedSize with hlt | hge
    · rw [Nat.mod_eq_of_lt hlt]
      omega
    · have heq : extra = b.fixedSize := by omega
      rw [heq, Nat.mod_self]
      omega
  · -- the newline stands in front of the head
    have hlt := hjh hpos
    rw [Nat.mod_eq_of_lt (by omega)]
    omega

theorem Ended.part_iff (h : Ended b) (hi : b.strchr b.tail = some none)
    (hlong : lineSize.toNat < b.consumable) (hc : b.consumeLine lineSize = some (b', line)) :
    FullExact b' ↔ (lineSize.toNat = 0 → b.size + 1 ≠ b.fixedSize) ∧
      (b.wraps → lineSize.toNat ≠ b.head + 1) := by
  have hend := h.toOk.consumable_le.2.1
  rw [consumeLine_part hi hlong] at hc
  obtain ⟨-, -, he⟩ := Option.map_eq_some_iff.mp hc
  cases he
  by_cases hhead : lineSize.toNat ≤ b.head
  · rw [if_pos hhead, h.toOk.consumed_iff hlong.le]
    exact ⟨fun hfull => ⟨hfull, fun _ => by omega⟩, And.left⟩
  · have hwraps : b.wraps := by
      by_contra hw
      rw [consumable, if_neg hw] at hlong
      omega
    have hlt := wraps_iff.mp hwraps
    have ht := h.tail_lt
    have he : b.empty = false := by simp [empty, hlt.ne]
    have hback : (b.head ≤ b.tail + lineSize.toNat && !b.empty) = true := by
      rw [he, Bool.not_false, Bool.and_true, decide_eq_true_eq]
      omega
    rw [if_neg hhead, hback, if_pos rfl, h.toOk.movedTo_iff (by omega), Nat.mod_eq_of_lt (by omega)]
    constructor
    · exact fun hne => ⟨fun hzero => by omega, fun _ => hne.symm⟩
    · exact fun hne => (hne.2 hwraps).symm

theorem Ended.fit_iff (h : Ended b) (hn : 2 ≤ b.fixedSize) (hi : b.strchr b.tail = some none)
    (hfit : b.consumable ≤ lineSize.toNat) (hc : b.consumeLine lineSize = some (b', line)) :
    FullExact b' ↔ (b.wraps →
      match b.strchr 0 with
      | some (some i) => b.head = 0 → min (lineSize.toNat - b.consumable) (i + 1) ≠ 1
      | _ => True) := by
  have htail := h.toOk.tail_consumable
  have hpiece := (h.toOk.consumed_iff le_rfl).mpr (h.toOk.room_of_consumable hn)
  rw [htail] at hpiece
  rw [consumeLine_piece hi hfit] at hc
  by_cases hw : b.wraps
  · rw [if_pos hw] at hc hpiece
    obtain ⟨lineEnd, h0, he⟩ := Option.map_eq_some_iff.mp hc
    cases he
    cases lineEnd with
    | none =>
      rw [Nat.zero_mod]
      rw [h0]
      exact iff_of_true hpiece fun _ => trivial
    | some j =>
      have hsmall : j + 1 < 2 ^ 16 := by
        have hlt := (h.front_newline (wraps_iff.mp hw) h0).1
        have hn' : b.fixedSize < 2 ^ 16 := h.small
        omega
      simp only [Nat.mod_eq_of_lt hsmall]
      rw [h.over_iff (wraps_iff.mp hw) h0 rfl, h0]
      exact ⟨fun hone _ => hone, fun hone => hone hw⟩
  · rw [if_neg hw] at hc hpiece
    cases hc
    exact iff_of_true hpiece fun hw' => absurd hw' hw

theorem Ended.line_iff (h : Ended b) (hn : 2 ≤ b.fixedSize)
    (hc : b.consumeLine lineSize = some (b', line)) :
    FullExact b' ↔ (lineSize.toNat = 0 → b.size + 1 ≠ b.fixedSize) ∧
      (b.wraps → LineKeepsRoom b lineSize.toNat) := by
  unfold LineKeepsRoom
  rcases hi : b.strchr b.tail with _ | _ | i
  · simp [consumeLine, hi] at hc
  · simp only
    rcases Nat.lt_or_ge lineSize.toNat b.consumable with hlong | hfit
    · simp only [if_pos hlong]
      exact h.part_iff hi hlong hc
    · simp only [if_neg hfit.not_gt]
      rw [h.fit_iff hn hi hfit hc]
      exact (and_iff_right fun hzero => h.toOk.room_of_consumable hn (by omega)).symm
  · rw [consumeLine_newline hi] at hc
    cases hc
    rw [h.toOk.consumed_iff (by omega)]
    simp only [implies_true, and_true]
    refine ⟨fun hfull hzero => hfull (by omega), fun hfull hzero => ?_⟩
    by_cases hcons : b.consumable = 0
    · exact h.toOk.room_of_consumable hn hcons
    · have hheld : b.held ≠ [] := by
        intro hnil
        have hle := h.toOk.consumable_le.1
        rw [← length_held, hnil, List.length_nil] at hle
        omega
      have hahead := h.newline_ahead hheld hi
      exact hfull (by omega)

theorem fullExact_reset (hn : 2 ≤ b.fixedSize) (hfixed : b'.fixedSize = b.fixedSize)
    (hhead : b'.head = 0) (htail : b'.tail = 0) (hmaxed : b'.maxed = false) : FullExact b' := by
  have hnil : b'.held = [] := held_reset hhead htail
  rw [FullExact, full, hmaxed, hnil, hhead, htail, hfixed, Nat.mod_eq_of_lt (by omega)]
  simp only [Bool.false_eq_true, false_iff, List.length_nil]
  omega

theorem Ended.fullExact_iff (h : Ended b) (hn : 2 ≤ b.fixedSize) (hx : FullExact b)
    (hc : b.call c = some (b', out)) : FullExact b' ↔ FlagReady b c := by
  cases c with
  | writeItem item =>
    cases hc
    exact hx.writeItem_iff h.toOk item
  | write items =>
    obtain ⟨b₁, hw, he⟩ := Option.map_eq_some_iff.mp hc
    cases he
    exact hx.write_iff h.toOk hw
  | consume =>
    cases hc
    refine iff_of_true ?_ trivial
    unfold consume
    split
    · exact hx
    next he =>
      have hone := h.consumable_pos he
      exact (h.toOk.consumed_iff hone).mpr fun hzero => absurd hzero one_ne_zero
  | consumeBlock =>
    cases (congrArg some h.toOk.consumeBlock_eq).symm.trans hc
    exact iff_of_true ((h.toOk.consumed_iff le_rfl).mpr (h.toOk.room_of_consumable hn)) trivial
  | consumeBlockInto blockSize =>
    cases (congrArg some (h.toOk.consumeBlockInto_eq blockSize)).symm.trans hc
    rw [h.toOk.consumed_iff (Nat.min_le_right _ _)]
    refine ⟨fun hfull hzero => hfull (by omega), fun hfull hzero => ?_⟩
    by_cases hcons : b.consumable = 0
    · exact h.toOk.room_of_consumable hn hcons
    · exact hfull (by omega)
  | consumeLine lineSize => exact h.line_iff hn hc
  | clear =>
    cases hc
    exact iff_of_true (fullExact_reset hn rfl rfl rfl rfl) trivial
  | clearIfEmpty =>
    cases hc
    refine iff_of_true ?_ trivial
    unfold clearIfEmpty
    simp only
    split
    · exact fullExact_reset hn rfl rfl rfl rfl
    · exact hx

/-- The flag is exact in every state on the way just if every call that returns
leaves it so. -/
theorem full_exact_iff (size : UInt16) (memory : Nat → UInt8) (cs : List Call)
    (hn : 2 ≤ size.toNat) :
    (∀ before, before <+: cs → ∀ r ∈ (new size memory).calls before, FullExact r.1) ↔
      TryAlong call FlagReady (new size memory) cs := by
  have hnew := ended_new size memory (Nat.zero_lt_of_lt hn)
  have hexact : FullExact (new size memory) :=
    fullExact_reset (b := new size memory) hn rfl rfl rfl rfl
  simp only [calls_eq]
  refine Iff.trans ?_ (and_iff_right hexact)
  refine forall_prefix_iff_tryAlong (fun b => Ended b ∧ 2 ≤ b.fixedSize) FullExact ?_ ?_ ⟨hnew, hn⟩
  · rintro b ⟨h, hfixed⟩ c ⟨b', out⟩ hc
    exact ⟨h.call hc, (ok_call h.toOk hc).2.symm ▸ hfixed⟩
  · rintro b ⟨h, hfixed⟩ hx c ⟨b', out⟩ hc
    exact h.fullExact_iff hfixed hx hc

theorem full_exact_over_the_end :
    let cs : List Call := [.write [0x61, 0x62], .write [0x63, 0x64], .writeItem 0x65,
      .consumeBlockInto 1, .consumeLine 159, .clear]
    ∀ before, before <+: cs → ∀ r ∈ (new 4 fun _ => 0).calls before, FullExact r.1 := by
  intro cs
  refine (full_exact_iff 4 (fun _ => 0) cs (by decide)).mpr ?_
  decide +kernel

/-- Three characters fill the buffer of four cells, with the tail at the start. -/
theorem full_not_told :
    ∃ b, (new 4 fun _ => 0).calls [.write [0x61, 0x62, 0x63]] = some (b, [[]]) ∧
      b.held = [0x61, 0x62, 0x63] ∧ (b.head + 1) % b.fixedSize = b.tail ∧ b.full = false ∧
      ¬ FullExact b := by
  refine ⟨_, rfl, ?_, ?_, ?_, fun hx => ?_⟩
  · decide +kernel
  · decide +kernel
  · decide +kernel
  · have hfull := hx.1.mpr (by decide +kernel)
    revert hfull
    decide +kernel

end Char

end BitchatRepeater.CircularBuffer
