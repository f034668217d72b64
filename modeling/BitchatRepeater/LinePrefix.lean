import BitchatRepeater.LogDrain

/-!
# One line from the log

What `consume_line` writes to the caller's array should be the first characters of
what is held, up to a newline or the line size, and the rest should stay. It is so
where a newline stands ahead. Elsewhere the end of the line is taken from cells
that need not be held, and the tail from numbers that are not positions.
-/

namespace BitchatRepeater.CircularBuffer

open Lib

variable {b b' : CircularBuffer UInt8} {lineSize : UInt16}

def consumeLineInto (b : CircularBuffer UInt8) (line : Nat → UInt8) (lineSize : UInt16) :
    Option (CircularBuffer UInt8 × (Nat → UInt8) × Nat) :=
  (b.consumeLine lineSize).map fun (b, text) =>
    (b, fun i => (text ++ [0]).getD i (line i), text.length)

/-- The array holds the first `k` characters with a zero behind, and they are gone. -/
structure LineTaken (b b' : CircularBuffer UInt8) (lineSize : Nat) (line : Nat → UInt8)
    (k : Nat) : Prop where
  held : b.held = (List.range k).map line ++ b'.held
  ended : line k = 0
  le : k ≤ lineSize
  pos : 0 < k ↔ b.held ≠ []
  newline : ∀ i < k, line i = newline → i + 1 = k

/-- When a line is what it should be. The search from the tail must end inside the
array. If it ends at a zero and not at a newline, no newline may stand behind that
zero; a piece longer than the line must not end in front of the array's end with a
head below the line size; and a piece shorter than the line is continued only if
something is held at the start of the array. -/
def LineReady (b : CircularBuffer UInt8) (lineSize : Nat) : Prop :=
  match b.strchr b.tail with
  | none => False
  | some (some _) => True
  | some none =>
    if lineSize < b.consumable then
      (b.strchr (b.tail + lineSize)).isSome ∧ (b.wraps → lineSize ≤ b.head) ∧
        newline ∉ (b.held.take lineSize).dropLast
    else if b.wraps ∧ b.consumable < lineSize ∧ b.strchr 0 ≠ some none then
      0 < b.head ∧ newline ∉ b.held.take b.consumable
    else newline ∉ (b.held.take b.consumable).dropLast

instance decidableLineReady (b : CircularBuffer UInt8) (lineSize : Nat) :
    Decidable (LineReady b lineSize) := by
  unfold LineReady
  split <;> infer_instance

-- ---------------------------------------------------------------------------
-- The array and the text in it
-- ---------------------------------------------------------------------------

/-- The text of a line and what is left, out of what was held. -/
structure IsLine (content text rest : Bytes) (lineSize : Nat) : Prop where
  split : content = text ++ rest
  le : text.length ≤ lineSize
  pos : content ≠ [] → text ≠ []
  newline : newline ∉ text.dropLast

theorem getD_terminated (text : Bytes) (line : Nat → UInt8) (hi : i < text.length) :
    (text ++ [0]).getD i (line i) = text[i] := by
  rw [List.getD_eq_getElem?_getD, List.getElem?_append_left hi, List.getElem?_eq_getElem hi,
    Option.getD_some]

theorem map_terminated (text : Bytes) (line : Nat → UInt8) :
    (List.range text.length).map (fun i => (text ++ [0]).getD i (line i)) = text := by
  refine List.ext_getElem (by simp) fun i hi hi' => ?_
  rw [List.getElem_map, List.getElem_range]
  exact getD_terminated text line hi'

theorem newline_dropLast_iff (text : Bytes) :
    newline ∉ text.dropLast ↔ ∀ i (hi : i < text.length), text[i] = newline →
    i + 1 = text.length := by
  simp only [List.mem_iff_getElem, List.length_dropLast, List.getElem_dropLast, not_exists]
  constructor
  · intro h i hi hnl
    by_contra hne
    exact h i (by omega) hnl
  · intro h i hi hnl
    have := h i (by omega) hnl
    omega

theorem lineTaken_iff (b b' : CircularBuffer UInt8) (text : Bytes)
    (line : Nat → UInt8) (len : Nat) :
    LineTaken b b' len (fun i => (text ++ [0]).getD i (line i)) text.length ↔
      IsLine b.held text b'.held len := by
  have hcells : (∀ i < text.length, (text ++ [0]).getD i (line i) = newline → i + 1 = text.length) ↔
      newline ∉ text.dropLast := by
    rw [newline_dropLast_iff]
    refine forall_congr' fun i => forall_congr' fun hi => ?_
    rw [getD_terminated text line hi]
  constructor
  · rintro ⟨hheld, -, hle, hpos, hnl⟩
    rw [map_terminated] at hheld
    exact ⟨hheld, hle, fun hne => List.length_pos_iff.mp (hpos.mpr hne), hcells.mp hnl⟩
  · rintro ⟨hheld, hle, hpos, hnl⟩
    refine ⟨?_, by simp, hle, ⟨fun hk hnil => ?_, fun hne => List.length_pos_iff.mpr (hpos hne)⟩,
      hcells.mpr hnl⟩
    · rw [map_terminated]
      exact hheld
    · rw [hnil] at hheld
      exact absurd (List.append_eq_nil_iff.mp hheld.symm).1 (List.length_pos_iff.mp hk)

theorem consumeLineInto_taken_iff (line : Nat → UInt8) :
    (∃ b' line' k, b.consumeLineInto line lineSize = some (b', line', k) ∧
      LineTaken b b' lineSize.toNat line' k) ↔
    ∃ b' text, b.consumeLine lineSize = some (b', text) ∧
    IsLine b.held text b'.held lineSize.toNat := by
  constructor
  · rintro ⟨b', line', k, hc, ht⟩
    obtain ⟨⟨b₁, text⟩, hline, he⟩ := Option.map_eq_some_iff.mp hc
    cases he
    exact ⟨b', text, hline, (lineTaken_iff b b' text line _).mp ht⟩
  · rintro ⟨b', text, hline, ht⟩
    refine ⟨b', _, _, by rw [consumeLineInto, hline]; rfl, (lineTaken_iff b b' text line _).mpr ht⟩

theorem isLine_iff_of_eq {b₁ : CircularBuffer UInt8} {t : Bytes}
    (hline : b.consumeLine lineSize = some (b₁, t)) :
    (∃ b' text, b.consumeLine lineSize = some (b', text) ∧ IsLine b.held text b'.held len) ↔
      IsLine b.held t b₁.held len := by
  constructor
  · rintro ⟨b', text, hc, hl⟩
    cases hline.symm.trans hc
    exact hl
  · exact fun hl => ⟨b₁, t, hline, hl⟩

-- ---------------------------------------------------------------------------
-- One piece
-- ---------------------------------------------------------------------------

theorem length_copy (b : CircularBuffer UInt8) (start len : Nat) :
    (b.copy start len).length = len := by
  simp [copy]

theorem mem_copy : x ∈ b.copy start len ↔ ∃ i < len, b.buffer (start + i) = x := by
  simp [copy]

theorem dropLast_copy (b : CircularBuffer UInt8) (start len : Nat) :
    (b.copy start len).dropLast = b.copy start (len - 1) := by
  cases len with
  | zero => rfl
  | succ len => simp [copy, List.range_succ]

theorem Ok.copy_eq_take (h : Ok b) (hj : j ≤ b.consumable) : b.copy b.tail j = b.held.take j := by
  rw [h.held_movedTo hj rfl, List.take_left' (length_copy b b.tail j)]

theorem Ok.isLine_copy (h : Ok b) (hj : j ≤ b.consumable) (hle : j ≤ len)
    (hpos : b.held ≠ [] → 0 < j) (ht : pos = (b.tail + j) % b.fixedSize) :
    IsLine b.held (b.copy b.tail j) (b.movedTo pos).held len ↔
    newline ∉ (b.held.take j).dropLast := by
  rw [← h.copy_eq_take hj]
  refine ⟨IsLine.newline, fun hnl => ⟨h.held_movedTo hj ht, ?_,
    fun hne => copy_ne_nil (hpos hne), hnl⟩⟩
  rw [length_copy]
  exact hle

theorem strchr_first (hi : b.strchr x = some (some i)) (hxy : x ≤ y) (hyi : y < i) :
    b.buffer y ≠ newline := by
  intro hnl
  have hy := strchr_between hi hxy hyi.le
  have hend := (strchr_le hi).2
  rw [strchr_cell (by omega), if_pos hnl] at hy
  cases hy
  exact Nat.lt_irrefl _ hyi

theorem newline_not_mem_copy (hi : b.strchr x = some (some i)) (hlen : x + len ≤ i) :
    newline ∉ b.copy x len := by
  rw [mem_copy]
  rintro ⟨y, hy, hnl⟩
  exact strchr_first hi (Nat.le_add_right x y) (by omega) hnl

theorem Ended.isLine_newline (h : Ended b) (hL : 0 < lineSize.toNat)
    (hi : b.strchr b.tail = some (some i)) :
    ∃ b' text, b.consumeLine lineSize = some (b', text) ∧
    IsLine b.held text b'.held lineSize.toNat := by
  obtain ⟨-, -, hne⟩ := h.toOk.consumable_le
  have hle := strchr_le hi
  refine ⟨_, _, consumeLine_newline hi, (h.toOk.isLine_copy ?_ ?_ ?_ rfl).mpr ?_⟩
  · omega
  · omega
  · intro hheld
    have hcons := hne hheld
    have hahead := h.newline_ahead hheld hi
    omega
  · rw [← h.toOk.copy_eq_take (by omega), dropLast_copy]
    refine newline_not_mem_copy hi ?_
    have := Nat.mod_le (i - b.tail + 1) (2 ^ 16)
    omega

theorem Ended.isLine_piece_iff (h : Ended b) (hfit : b.consumable ≤ lineSize.toNat)
    (ht : pos = (b.tail + b.consumable) % b.fixedSize) :
    IsLine b.held (b.copy b.tail b.consumable) (b.movedTo pos).held lineSize.toNat ↔
      newline ∉ (b.held.take b.consumable).dropLast :=
  h.toOk.isLine_copy le_rfl hfit h.toOk.consumable_le.2.2 ht

-- ---------------------------------------------------------------------------
-- A piece that is longer than the line
-- ---------------------------------------------------------------------------

theorem Ended.size_wraps (h : Ended b) (hw : b.wraps) :
    b.size = b.head + b.consumable ∧ b.consumable = b.fixedSize - b.tail := by
  have hlt := wraps_iff.mp hw
  have ht := h.tail_lt
  rw [h.toOk.size_of_lt hlt, consumable, if_pos hw]
  omega

theorem Ended.isLine_part_iff (h : Ended b) (hL : 0 < lineSize.toNat)
    (hi : b.strchr b.tail = some none) (hlong : lineSize.toNat < b.consumable) :
    (∃ b' text, b.consumeLine lineSize = some (b', text) ∧
      IsLine b.held text b'.held lineSize.toNat) ↔
      (b.strchr (b.tail + lineSize.toNat)).isSome ∧ (b.wraps → lineSize.toNat ≤ b.head) ∧
        newline ∉ (b.held.take lineSize.toNat).dropLast := by
  obtain ⟨-, hend, -⟩ := h.toOk.consumable_le
  have hline := consumeLine_part hi hlong
  rcases hs : b.strchr (b.tail + lineSize.toNat) with _ | e
  · rw [hs] at hline
    simp [hline]
  rw [hs, Option.map_some] at hline
  have hnext : (b.wraps → lineSize.toNat ≤ b.head) ↔ lineSize.toNat ≤ b.head := by
    refine ⟨fun hw => ?_, fun hle _ => hle⟩
    by_cases hwraps : b.wraps
    · exact hw hwraps
    · rw [consumable, if_neg hwraps] at hlong
      omega
  rw [Option.isSome_some, hnext]
  rw [isLine_iff_of_eq hline]
  by_cases hhead : lineSize.toNat ≤ b.head
  · rw [if_pos hhead, h.toOk.isLine_copy hlong.le le_rfl (fun _ => hL) rfl]
    exact ⟨fun hnl => ⟨rfl, hhead, hnl⟩, fun hc => hc.2.2⟩
  · refine iff_of_false (fun hl => ?_) fun hc => hhead hc.2.1
    have hwraps : b.wraps := by
      by_contra hw
      exact hhead (hnext.mp fun hw' => absurd hw' hw)
    obtain ⟨hsize, hcons⟩ := h.size_wraps hwraps
    have hlt := wraps_iff.mp hwraps
    have he : b.empty = false := by simp [empty, hlt.ne]
    have hback : (b.head ≤ b.tail + lineSize.toNat && !b.empty) = true := by
      rw [he, Bool.not_false, Bool.and_true, decide_eq_true_eq]
      omega
    -- the tail is set to the line size, so what is left is too long
    have hcount := congrArg List.length hl.split
    have hmoved : Ok (b.movedTo lineSize.toNat) := h.toOk.movedTo (by omega)
    rw [if_neg hhead, hback, if_pos rfl, List.length_append, length_copy, length_held, length_held,
      hmoved.size_of_lt (Nat.lt_of_not_ge hhead), hsize, hcons] at hcount
    simp only [CircularBuffer.movedTo] at hcount
    omega

-- ---------------------------------------------------------------------------
-- A line that goes on at the start of the array
-- ---------------------------------------------------------------------------

theorem Ended.front_held (h : Ended b) (hextra : extra ≤ b.head) :
    (b.movedTo 0).held = b.copy 0 extra ++ (b.movedTo extra).held := by
  have hn := Nat.zero_lt_of_lt h.tail_lt
  have hstart : Ok (b.movedTo 0) := h.toOk.movedTo hn
  have hwraps : ¬ (b.movedTo 0).wraps := fun hw' => absurd (wraps_iff.mp hw') (Nat.not_lt_zero _)
  have hcons : (b.movedTo 0).consumable = b.head := by
    rw [consumable, if_neg hwraps]
    rfl
  have hlt : extra < b.fixedSize := Nat.lt_of_le_of_lt hextra h.head_lt
  refine hstart.held_movedTo (hcons.symm ▸ hextra) ?_
  simp only [CircularBuffer.movedTo]
  rw [Nat.zero_add, Nat.mod_eq_of_lt hlt]

theorem Ended.isLine_over_iff (h : Ended b) (hw : b.head < b.tail) (hfit : b.consumable < len)
    (hj : b.strchr 0 = some (some j)) (hjh : 0 < b.head → j < b.head)
    (he : extra = min (len - b.consumable) (j + 1)) :
    IsLine b.held (b.copy b.tail b.consumable ++ b.copy 0 extra)
        (b.movedTo (extra % b.fixedSize)).held len ↔
      0 < b.head ∧ newline ∉ b.held.take b.consumable := by
  have hwraps := wraps_iff.mpr hw
  obtain ⟨hsize, hcons⟩ := h.size_wraps hwraps
  have htail := h.toOk.tail_consumable
  rw [if_pos hwraps] at htail
  have hpiece := h.toOk.held_movedTo le_rfl htail.symm
  have hfront : extra - 1 ≤ j := by omega
  have hdrop : newline ∉ (b.copy b.tail b.consumable ++ b.copy 0 extra).dropLast ↔
      newline ∉ b.held.take b.consumable := by
    have hne : b.copy 0 extra ≠ [] := copy_ne_nil (by omega)
    rw [List.dropLast_append_of_ne_nil hne, dropLast_copy, List.mem_append, not_or,
      h.toOk.copy_eq_take le_rfl]
    refine and_iff_left (newline_not_mem_copy hj ?_)
    omega
  constructor
  · intro hl
    have hcount := congrArg List.length hl.split
    simp only [List.length_append, length_copy, length_held] at hcount
    exact ⟨by omega, hdrop.mp hl.newline⟩
  · rintro ⟨hhead, hnl⟩
    have hextra : extra ≤ b.head := by
      have := hjh hhead
      omega
    have hlt : extra < b.fixedSize := Nat.lt_of_le_of_lt hextra h.head_lt
    rw [Nat.mod_eq_of_lt hlt]
    refine ⟨?_, ?_, fun _ => ?_, hdrop.mpr hnl⟩
    · rw [hpiece, h.front_held hextra, List.append_assoc]
    · rw [List.length_append, length_copy, length_copy]
      omega
    · refine List.append_ne_nil_of_left_ne_nil (copy_ne_nil ?_) _
      have ht := h.tail_lt
      omega

theorem Ended.isLine_fit_iff (h : Ended b) (hi : b.strchr b.tail = some none)
    (hfit : b.consumable ≤ lineSize.toNat) :
    (∃ b' text, b.consumeLine lineSize = some (b', text) ∧
      IsLine b.held text b'.held lineSize.toNat) ↔
      if b.wraps ∧ b.consumable < lineSize.toNat ∧ b.strchr 0 ≠ some none then
        0 < b.head ∧ newline ∉ b.held.take b.consumable
      else newline ∉ (b.held.take b.consumable).dropLast := by
  have hline := consumeLine_piece hi hfit
  have htail := h.toOk.tail_consumable
  by_cases hw : b.wraps
  · have hlt := wraps_iff.mp hw
    obtain ⟨z, hz, hzn, hzh⟩ := h.front hlt
    rw [if_pos hw] at hline htail
    rcases strchr_ended hz hzn (Nat.zero_le z) with h0 | ⟨j, hjz, h0⟩
    · -- no newline from the start of the array on
      have hpiece : b.consumeLine lineSize = some (b.movedTo 0, b.copy b.tail b.consumable) := by
        rw [hline, h0]
        simp [copy]
      rw [if_neg fun hc => hc.2.2 h0, isLine_iff_of_eq hpiece, h.isLine_piece_iff hfit htail.symm]
    · have hj : j + 1 < 2 ^ 16 := by
        have hn : b.fixedSize < 2 ^ 16 := h.small
        omega
      have hover := hline
      rw [h0, Option.map_some] at hover
      simp only [Nat.mod_eq_of_lt hj] at hover
      rcases Nat.lt_or_eq_of_le hfit with hshort | heq
      · have hjh : 0 < b.head → j < b.head := fun hpos => by
          have := hzh hpos
          omega
        rw [if_pos ⟨hw, hshort, by simp [h0]⟩, isLine_iff_of_eq hover,
          h.isLine_over_iff hlt hshort h0 hjh rfl]
      · -- the line is full already
        rw [← heq, Nat.sub_self, Nat.zero_min, Nat.zero_mod] at hover
        have hpiece : b.consumeLine lineSize = some (b.movedTo 0, b.copy b.tail b.consumable) := by
          rw [hover]
          simp [copy]
        rw [if_neg fun hc => hc.2.1.ne heq, isLine_iff_of_eq hpiece,
          h.isLine_piece_iff hfit htail.symm]
  · rw [if_neg hw] at hline htail
    rw [if_neg fun hc => hw hc.1, isLine_iff_of_eq hline, h.isLine_piece_iff hfit htail.symm]

-- ---------------------------------------------------------------------------
-- All lines
-- ---------------------------------------------------------------------------

theorem Ended.isLine_iff (h : Ended b) (hL : 0 < lineSize.toNat) :
    (∃ b' text, b.consumeLine lineSize = some (b', text) ∧
      IsLine b.held text b'.held lineSize.toNat) ↔
      LineReady b lineSize.toNat := by
  unfold LineReady
  rcases hi : b.strchr b.tail with _ | _ | i
  · simp [consumeLine, hi]
  · rcases Nat.lt_or_ge lineSize.toNat b.consumable with hlong | hfit
    · simp only [if_pos hlong]
      exact h.isLine_part_iff hL hi hlong
    · simp only [if_neg hfit.not_gt]
      exact h.isLine_fit_iff hi hfit
  · exact iff_of_true (h.isLine_newline hL hi) trivial

/-- A line takes the first characters of what is held exactly in these states. -/
theorem line_is_prefix_iff (size : UInt16) (memory : Nat → UInt8) (cs : List Call)
    (outs : List Bytes)
    (b : CircularBuffer UInt8) (line : Nat → UInt8) (lineSize : UInt16) (hn : 0 < size.toNat)
    (hL : 1 ≤ lineSize.toNat) (hc : (new size memory).calls cs = some (b, outs)) :
    (∃ b' line' k, b.consumeLineInto line lineSize = some (b', line', k) ∧
      LineTaken b b' lineSize.toNat line' k) ↔ LineReady b lineSize.toNat := by
  rw [consumeLineInto_taken_iff]
  exact (ended_calls size memory cs hn hc).isLine_iff hL

theorem line_over_the_end :
    ∃ b, (new 4 fun _ => 0).calls [.write [0x61, 0x62], .consume, .consume,
      .write [0x63, 0x64, 0x0A]] =
        some (b, [[], [0x61], [0x62], []]) ∧ b.held = [0x63, 0x64, 0x0A] ∧
      ∃ b' line' k, b.consumeLineInto (fun _ => 0x2E) 159 = some (b', line', k) ∧
        LineTaken b b' 159 line' k := by
  refine ⟨_, rfl, ?_, (line_is_prefix_iff 4 (fun _ => 0)
    [.write [0x61, 0x62], .consume, .consume, .write [0x63, 0x64, 0x0A]] _ _ (fun _ => 0x2E) 159
    (by decide) (by decide) rfl).mpr ?_⟩
  · decide +kernel
  · decide +kernel

/-- Three characters are held, in the last three cells. The line of two sets the
tail to cell 2, and five characters consumed before are held again. -/
theorem line_brings_back :
    ∃ b b', (new 8 fun _ => 0).calls [.write [0x61, 0x62, 0x63, 0x64, 0x65, 0x66, 0x67],
        .consumeBlockInto 5, .write [0x68]] = some (b, [[], [0x61, 0x62, 0x63, 0x64, 0x65], []]) ∧
      b.held = [0x66, 0x67, 0x68] ∧ b.consumeLine 2 = some (b', [0x66, 0x67]) ∧
      b'.held = [0x63, 0x64, 0x65, 0x66, 0x67, 0x68] ∧
      ¬ ∃ b' line' k, b.consumeLineInto (fun _ => 0x2E) 2 = some (b', line', k) ∧
        LineTaken b b' 2 line' k := by
  refine ⟨_, _, rfl, ?_, rfl, ?_, ?_⟩
  · decide +kernel
  · decide +kernel
  · intro htaken
    have h := ended_calls 8 (fun _ => 0) [.write [0x61, 0x62, 0x63, 0x64, 0x65, 0x66, 0x67],
      .consumeBlockInto 5, .write [0x68]] (by decide) rfl
    have hready := (h.isLine_iff (by decide)).mp ((consumeLineInto_taken_iff _).mp htaken)
    revert hready
    decide +kernel

end BitchatRepeater.CircularBuffer
