import BitchatRepeater.CircularBufferLaws

/-!
# Draining the log line by line

`printAvailableLogging` takes lines while the buffer is not empty. Held characters
that lie in one piece always come out. Where they run on over the end of the array,
`consume_line` looks for newlines and string ends in cells that need not be held,
and the tail it sets may lie behind the one it came from.
-/

namespace BitchatRepeater.CircularBuffer

variable {b b' : CircularBuffer UInt8} {lineSize : UInt16}

/-- The loop of `printAvailableLogging`, with at most `fuel` tests of its condition. -/
def drain (lineSize : UInt16) : Nat → CircularBuffer UInt8 → Option (List Bytes)
  | 0, _ => none
  | fuel + 1, b =>
    if b.empty then some []
    else do
      let (b, line) ← b.consumeLine lineSize
      let lines ← drain lineSize fuel b
      return line :: lines

def Drains (lineSize : UInt16) (b : CircularBuffer UInt8) : Prop :=
  ∃ fuel lines, b.drain lineSize fuel = some lines ∧ ∀ line ∈ lines, line ≠ []

-- ---------------------------------------------------------------------------
-- Looking for a newline
-- ---------------------------------------------------------------------------

theorem strchr_cell (hx : x ≤ b.fixedSize) : b.strchr x =
    if b.buffer x = newline then some (some x)
    else if b.buffer x = 0 then some none
    else b.strchr (x + 1) := by
  rw [strchr, strchr, show b.fixedSize + 1 - x = b.fixedSize + 1 - (x + 1) + 1 by omega, strchr.go]

theorem strchr_beyond (hx : b.fixedSize < x) : b.strchr x = none := by
  rw [strchr, show b.fixedSize + 1 - x = 0 by omega, strchr.go]

theorem strchr_movedTo (b : CircularBuffer UInt8) (pos x : Nat) :
    (b.movedTo pos).strchr x = b.strchr x := by
  have hgo : ∀ cells i, strchr.go (b.movedTo pos) cells i = strchr.go b cells i := by
    intro cells
    induction cells with
    | zero => exact fun _ => rfl
    | succ cells ih =>
      intro i
      simp only [strchr.go, ih]
      rfl
  exact hgo _ _

theorem strchr_le (hi : b.strchr x = some (some i)) : x ≤ i ∧ i ≤ b.fixedSize := by
  rcases Nat.lt_or_ge b.fixedSize x with hx | hx
  · rw [strchr_beyond hx] at hi
    cases hi
  · rw [strchr_cell hx] at hi
    split at hi
    · cases hi
      exact ⟨le_rfl, hx⟩
    · split at hi
      · cases hi
      · obtain ⟨hle, hend⟩ := strchr_le hi
        exact ⟨Nat.le_of_succ_le hle, hend⟩
termination_by b.fixedSize + 1 - x

theorem strchr_between (hi : b.strchr x = some (some i)) (hxy : x ≤ y) (hyi : y ≤ i) :
    b.strchr y = some (some i) := by
  induction y, hxy using Nat.le_induction with
  | base => exact hi
  | succ y hxy ih =>
    have hy := ih (Nat.le_of_succ_le hyi)
    have hend := (strchr_le hi).2
    rw [strchr_cell (by omega)] at hy
    split at hy
    · cases hy
      omega
    · split at hy
      · cases hy
      · exact hy

theorem strchr_ended (hz : b.buffer z = 0) (hzn : z ≤ b.fixedSize) (hxz : x ≤ z) :
    b.strchr x = some none ∨ ∃ i < z, b.strchr x = some (some i) := by
  rw [strchr_cell (by omega)]
  split
  next hnl =>
    refine .inr ⟨x, ?_, rfl⟩
    rcases Nat.lt_or_eq_of_le hxz with hlt | rfl
    · exact hlt
    · rw [hz] at hnl
      cases hnl
  next hnl =>
    split
    · exact .inl rfl
    next hne =>
      have hlt : x < z := by
        rcases Nat.lt_or_eq_of_le hxz with hlt | rfl
        · exact hlt
        · exact absurd hz hne
      exact strchr_ended hz hzn hlt
termination_by z - x

-- ---------------------------------------------------------------------------
-- Reading on to the end of the array
-- ---------------------------------------------------------------------------

/-- Where the lines from `x` on come to a rest: behind a newline with only a string
end ahead, unless whole lines lead on. -/
def rest (b : CircularBuffer UInt8) (lineSize x : Nat) : Option Nat :=
  if b.fixedSize ≤ x then some b.fixedSize
  else
    match hi : b.strchr x with
    | none => none
    | some (some i) => rest b lineSize (min (i + 1) b.fixedSize)
    | some none =>
      if 0 < lineSize ∧ lineSize ≤ b.head ∧ x + lineSize < b.fixedSize then
        if (b.strchr (x + lineSize)).isSome then rest b lineSize (x + lineSize) else none
      else some x
termination_by b.fixedSize - x
decreasing_by
  · have := strchr_le hi
    omega
  · omega

theorem rest_end (hx : b.fixedSize ≤ x) : b.rest len x = some b.fixedSize := by
  rw [rest, if_pos hx]

theorem rest_overrun (hx : x < b.fixedSize) (hi : b.strchr x = none) : b.rest len x = none := by
  rw [rest, if_neg hx.not_ge]
  split
  · rfl
  next hi' => cases hi.symm.trans hi'
  next hi' => cases hi.symm.trans hi'

theorem rest_newline (hx : x < b.fixedSize) (hi : b.strchr x = some (some i)) :
    b.rest len x = b.rest len (min (i + 1) b.fixedSize) := by
  rw [rest, if_neg hx.not_ge]
  split
  next hi' => cases hi.symm.trans hi'
  next hi' =>
    cases hi.symm.trans hi'
    rfl
  next hi' => cases hi.symm.trans hi'

theorem rest_ended (len : Nat) (hx : x < b.fixedSize) (hi : b.strchr x = some none) :
    b.rest len x = if 0 < len ∧ len ≤ b.head ∧ x + len < b.fixedSize then
      if (b.strchr (x + len)).isSome then b.rest len (x + len) else none
    else some x := by
  rw [rest, if_neg hx.not_ge]
  split
  next hi' => cases hi.symm.trans hi'
  next hi' => cases hi.symm.trans hi'
  · rfl

theorem rest_movedTo (b : CircularBuffer UInt8) (pos len x : Nat) :
    (b.movedTo pos).rest len x = b.rest len x := by
  fun_induction rest b len x with
  | case1 x hx => exact rest_end hx
  | case2 x hx hi => exact rest_overrun (Nat.lt_of_not_ge hx) ((strchr_movedTo b pos x).trans hi)
  | case3 x hx i hi ih =>
    exact (rest_newline (b := b.movedTo pos) (Nat.lt_of_not_ge hx)
      ((strchr_movedTo b pos x).trans hi)).trans ih
  | case4 x hx hi hlen hsome ih =>
    rw [rest_ended (b := b.movedTo pos) len (Nat.lt_of_not_ge hx)
      ((strchr_movedTo b pos x).trans hi), strchr_movedTo, if_pos hsome]
    exact (if_pos hlen).trans ih
  | case5 x hx hi hlen hnone =>
    rw [rest_ended (b := b.movedTo pos) len (Nat.lt_of_not_ge hx)
      ((strchr_movedTo b pos x).trans hi), strchr_movedTo, if_neg hnone]
    exact if_pos hlen
  | case6 x hx hi hlen =>
    rw [rest_ended (b := b.movedTo pos) len (Nat.lt_of_not_ge hx)
      ((strchr_movedTo b pos x).trans hi)]
    exact if_neg hlen

/-- Where the line from a place of rest leads: past the end of the memory, to the
end of the held characters, or back to a cell from which they are read again. -/
def onward (b : CircularBuffer UInt8) (lineSize x : Nat) : Option (Option Nat) :=
  if x + lineSize < b.fixedSize then (b.strchr (x + lineSize)).map fun _ => some lineSize
  else if b.head = 0 ∧ x < b.fixedSize ∧ x + lineSize ≠ b.fixedSize ∧ b.strchr 0 ≠ some none then
    some (some 0)
  else some none

def after (b : CircularBuffer UInt8) (lineSize x : Nat) : Option (Option Nat) :=
  (b.rest lineSize x).bind (b.onward lineSize)

/-- The lines from `x` on come to the end, going back at most `backs` times. -/
def settles (b : CircularBuffer UInt8) (lineSize : Nat) : Nat → Nat → Bool
  | 0, x => b.after lineSize x = some none
  | backs + 1, x =>
    match b.after lineSize x with
    | none => false
    | some none => true
    | some (some y) => b.settles lineSize backs y

theorem settles_congr (h : b.after len x = b.after len y) (backs : Nat) :
    b.settles len backs x = b.settles len backs y := by
  cases backs with
  | zero => rw [settles, settles, h]
  | succ backs => rw [settles, settles, h]

theorem settles_back (h : b.after len x = some (some y)) (backs : Nat) :
    b.settles len (backs + 1) x = b.settles len backs y := by
  rw [settles, h]

theorem settles_end (h : b.after len x = some none) (backs : Nat) : b.settles len backs x := by
  cases backs with
  | zero => simp [settles, h]
  | succ backs => simp [settles, h]

theorem not_settles (h : b.after len x = none) (backs : Nat) : b.settles len backs x = false := by
  cases backs with
  | zero => simp [settles, h]
  | succ backs => simp [settles, h]

theorem after_movedTo (b : CircularBuffer UInt8) (pos len x : Nat) :
    (b.movedTo pos).after len x = b.after len x := by
  have honward : (b.movedTo pos).onward len = b.onward len := by
    funext x
    rw [onward, onward, strchr_movedTo, strchr_movedTo]
    rfl
  rw [after, after, rest_movedTo, honward]

theorem settles_movedTo (b : CircularBuffer UInt8) (pos len backs x : Nat) :
    (b.movedTo pos).settles len backs x = b.settles len backs x := by
  induction backs generalizing x with
  | zero => rw [settles, settles, after_movedTo]
  | succ backs ih =>
    rw [settles, settles, after_movedTo]
    split
    · rfl
    · rfl
    · exact ih _

theorem after_back (h : b.after len x = some (some y)) : y = 0 ∨ y = len := by
  obtain ⟨s, -, hs⟩ := Option.bind_eq_some_iff.mp h
  unfold onward at hs
  split at hs
  · obtain ⟨e, -, he⟩ := Option.map_eq_some_iff.mp hs
    cases he
    exact .inr rfl
  · split at hs
    · cases hs
      exact .inl rfl
    · cases hs

/-- Going back to the same cell a second time, the lines never end. -/
theorem settles_one (y : Nat) (hy : y = 0 ∨ y = len) (h : b.settles len backs y) :
    b.settles len 1 y := by
  induction backs generalizing y with
  | zero =>
    refine settles_end ?_ 1
    simpa [settles] using h
  | succ backs ih =>
    rcases hx : b.after len y with _ | _ | z
    · rw [not_settles hx] at h
      cases h
    · exact settles_end hx 1
    · rw [settles_back hx] at h
      have hz := after_back hx
      have hone := ih z hz h
      rcases hx' : b.after len z with _ | _ | w
      · rw [not_settles hx'] at h
        cases h
      · rw [settles_back hx]
        exact settles_end hx' 0
      · have hlast := hone
        rw [settles_back hx'] at hlast
        have hw := after_back hx'
        have hend : b.after len w = some none := by simpa [settles] using hlast
        -- the two cells are `y` and `z`, and one of them is `w`
        have hwy : w = y ∨ w = z ∨ y = z := by omega
        rcases hwy with rfl | rfl | rfl
        · rw [hx] at hend
          cases hend
        · rw [hx'] at hend
          cases hend
        · exact hone

theorem settles_two (h : b.settles len backs x) : b.settles len 2 x := by
  rcases hx : b.after len x with _ | _ | y
  · rw [not_settles hx] at h
    cases h
  · exact settles_end hx 2
  · rw [settles_back hx]
    cases backs with
    | zero => simp [settles, hx] at h
    | succ backs =>
      rw [settles_back hx] at h
      exact settles_one y (after_back hx) h

-- ---------------------------------------------------------------------------
-- The end item
-- ---------------------------------------------------------------------------

/-- What all calls keep: the end item stands behind the held characters, in the
extra cell if they go up to the end of the array. -/
structure Ended (b : CircularBuffer UInt8) : Prop extends Ok b where
  small : b.fixedSize < 2 ^ 16
  ended : 0 < b.head → b.buffer b.head = 0
  last : b.head = 0 → b.tail ≠ 0 → b.buffer b.fixedSize = 0

theorem ended_behind (h : Ok b) (hsmall : b.fixedSize < 2 ^ 16) (hpos : pos < b.fixedSize)
    (hcell : b.buffer (pos + 1) = 0) (hhead : b.head = (pos + 1) % b.fixedSize) : Ended b := by
  rcases Nat.lt_or_eq_of_le (Nat.succ_le_of_lt hpos) with hlt | heq
  · rw [Nat.mod_eq_of_lt hlt] at hhead
    exact ⟨h, hsmall, fun _ => hhead ▸ hcell,
      fun hz => absurd (hhead.symm.trans hz) (Nat.succ_ne_zero _)⟩
  · rw [← heq, Nat.mod_self] at hhead
    exact ⟨h, hsmall, fun hz => absurd hhead hz.ne', fun _ _ => heq ▸ hcell⟩

theorem Ended.writeItem (h : Ended b) (item : UInt8) : Ended (b.writeItem item) :=
  ended_behind (ok_writeItem h.toOk item) h.small h.head_lt (Function.update_self _ _ _) rfl

theorem Ended.write (h : Ended b) (hw : b.write items = some b') : Ended b' := by
  obtain ⟨hok, -, -⟩ := ok_write h.toOk hw
  obtain ⟨flag, rfl, hm⟩ := write_eq hw
  have hn := Nat.zero_lt_of_lt h.head_lt
  by_cases hs : str items = []
  · -- nothing moves, and only the end item of the empty string is written
    rw [hs] at hok hm ⊢
    have hcell : ∀ i, b.buffer i = 0 → (b.wrote [] flag).buffer i = 0 := by
      intro i hi
      by_cases h1 : i = 1
      · rw [h1]
        exact Function.update_self 1 0 b.buffer
      · exact (Function.update_of_ne h1 0 b.buffer).trans hi
    have hhead : (b.wrote [] flag).head = b.head := Nat.mod_eq_of_lt h.head_lt
    refine ⟨hok, h.small, ?_, ?_⟩
    · rw [hhead]
      exact fun hpos => hcell _ (h.ended hpos)
    · rw [hhead, tail_wrote_nil h.toOk hm]
      exact fun hzero hne => hcell _ (h.last hzero hne)
  · have hpos := List.length_pos_iff.mpr hs
    refine ended_behind hok h.small (Nat.mod_lt (b.head + ((str items).length - 1)) hn) ?_ ?_
    · simp only [wrote, if_neg hs]
      exact Function.update_self _ _ _
    · rw [wrote_head, wrote_fixedSize, Nat.mod_add_mod, Nat.add_assoc, Nat.sub_add_cancel hpos]

theorem Ended.movedTo (h : Ended b) (hpos : pos < b.fixedSize) (he : b.empty → pos = b.head) :
    Ended (b.movedTo pos) := by
  refine ⟨h.toOk.movedTo hpos, h.small, h.ended, fun hzero hne => h.last hzero fun ht => hne ?_⟩
  have hhead : b.head = 0 := hzero
  exact (he (empty_iff_head_eq.mpr (hhead.trans ht.symm))).trans hhead

theorem Ended.moves (h : Ended b) (hm : Moves b b') : Ended b' := by
  obtain ⟨hok, hfixed⟩ := hm.ok h.toOk
  cases hm with
  | tail hpos hbetween =>
    refine h.movedTo hpos fun he => ?_
    have heq := empty_iff_head_eq.mp he
    have hle := hbetween heq.ge
    omega
  | reset _ hhead htail _ _ =>
    exact ⟨hok, hfixed ▸ h.small, fun hz => absurd hhead hz.ne', fun _ hne => absurd htail hne⟩
  | request => exact ⟨hok, h.small, h.ended, h.last⟩

theorem Ended.call (h : Ended b) (hc : b.call c = some (b', out)) : Ended b' := by
  obtain ⟨item, rfl, rfl⟩ | ⟨items, rfl, hw⟩ | ⟨-, hm⟩ := call_cases h.toOk hc
  · exact h.writeItem item
  · exact h.write hw
  · exact h.moves hm

theorem ended_new (size : UInt16) (memory : Nat → UInt8) (hn : 0 < size.toNat) :
    Ended (new size memory) :=
  ⟨⟨hn, hn, fun hm => absurd hm Bool.false_ne_true⟩, size.toNat_lt,
    fun hz => absurd hz (Nat.lt_irrefl 0),
    fun _ hne => absurd rfl hne⟩

theorem ended_calls (size : UInt16) (memory : Nat → UInt8) (cs : List Call) (hn : 0 < size.toNat)
    (hc : (new size memory).calls cs = some (b, outs)) : Ended b :=
  calls_invariant Ended (fun _ _ _ _ h => h.call) (ended_new size memory hn) hc

-- ---------------------------------------------------------------------------
-- One piece
-- ---------------------------------------------------------------------------

theorem drains_of_empty (he : b.empty) : Drains lineSize b :=
  ⟨1, [], by simp [drain, he], List.forall_mem_nil _⟩

theorem Drains.cons {line : Bytes} (he : ¬ b.empty) (hc : b.consumeLine lineSize = some (b', line))
    (hl : line ≠ []) (h : Drains lineSize b') : Drains lineSize b := by
  obtain ⟨fuel, lines, hd, hlines⟩ := h
  refine ⟨fuel + 1, line :: lines, ?_, List.forall_mem_cons.mpr ⟨hl, hlines⟩⟩
  simp [drain, he, hc, hd]

theorem copy_ne_nil (hlen : 0 < len) : b.copy start len ≠ [] := by
  simp [copy, hlen.ne']

theorem Ended.consumable_pos (h : Ended b) (he : ¬ b.empty) : 0 < b.consumable :=
  h.toOk.consumable_le.2.2 fun hnil => he (h.toOk.empty_iff.mpr hnil)

/-- The sixteen bits of the line's length matter only where nothing is held. -/
theorem Ended.newline_ahead (h : Ended b) (hheld : b.held ≠ [])
    (hi : b.strchr b.tail = some (some i)) :
    0 < (i - b.tail + 1) % 2 ^ 16 := by
  have hsmall := h.small
  have hle := strchr_le hi
  by_contra hzero
  have hround : i = b.fixedSize ∧ b.tail = 0 ∧ b.fixedSize = 2 ^ 16 - 1 := by omega
  have hcons := h.toOk.consumable_le.2.2 hheld
  have hw : ¬ b.wraps := fun hw => absurd (wraps_iff.mp hw) (by omega)
  rw [consumable, if_neg hw] at hcons
  have hlt := h.head_lt
  rcases strchr_ended (x := b.tail) (h.ended (by omega)) hlt.le (by omega) with hz | ⟨j, hj, hz⟩
  · cases hi.symm.trans hz
  · cases hi.symm.trans hz
    omega

theorem Ended.line_newline (h : Ended b) (hL : 0 < lineSize.toNat) (he : ¬ b.empty)
    (hi : b.strchr b.tail = some (some i)) :
    ∃ len, 0 < len ∧ len ≤ b.consumable ∧ b.tail + len ≤ i + 1 ∧
      b.consumeLine lineSize = some (b.movedTo ((b.tail + len) % b.fixedSize),
        b.copy b.tail len) := by
  have hpos := h.consumable_pos he
  have hle := (strchr_le hi).1
  have hahead := h.newline_ahead (fun hnil => he (h.toOk.empty_iff.mpr hnil)) hi
  have hmod := Nat.mod_le (i - b.tail + 1) (2 ^ 16)
  refine ⟨_, ?_, ?_, ?_, consumeLine_newline hi⟩
  · omega
  · omega
  · omega

theorem drains_piece {b : CircularBuffer UInt8} (h : Ended b) (hle : b.tail ≤ b.head)
    (hL : 0 < lineSize.toNat) : Drains lineSize b := by
  by_cases he : b.empty
  · exact drains_of_empty he
  · have hlt : b.tail < b.head := by
      rcases Nat.lt_or_eq_of_le hle with hlt | heq
      · exact hlt
      · exact absurd (empty_iff_head_eq.mpr heq.symm) he
    have hh := h.head_lt
    have hsmall := h.small
    have hw : ¬ b.wraps := fun hw => absurd (wraps_iff.mp hw) (by omega)
    have hcons : b.consumable = b.head - b.tail := by rw [consumable, if_neg hw]
    have hcell := h.ended (by omega)
    -- the line moves the tail on, to the head at most
    have hgo : ∀ len, 0 < len → b.tail + len ≤ b.head →
        b.consumeLine lineSize = some (b.movedTo (b.tail + len), b.copy b.tail len) →
        Drains lineSize b := by
      intro len hpos hend hline
      refine Drains.cons he hline (copy_ne_nil hpos) ?_
      exact drains_piece (h.movedTo (by omega) fun he' => absurd he' he) hend hL
    rcases strchr_ended hcell hh.le hle with hi | ⟨i, hi, hfound⟩
    · rcases Nat.lt_or_ge lineSize.toNat b.consumable with hlong | hfit
      · obtain ⟨e, hrest⟩ : ∃ e, b.strchr (b.tail + lineSize.toNat) = some e := by
          rcases strchr_ended (x := b.tail + lineSize.toNat) hcell hh.le (by omega) with hi | ⟨i, -,
            hi⟩
          · exact ⟨_, hi⟩
          · exact ⟨_, hi⟩
        refine hgo lineSize.toNat hL (by omega) ?_
        rw [consumeLine_part hi hlong, hrest, if_pos (by omega), Nat.mod_eq_of_lt (by omega)]
        rfl
      · refine hgo (b.head - b.tail) (by omega) (by omega) ?_
        rw [consumeLine_piece hi hfit, if_neg hw, hcons, Nat.add_sub_cancel' hle]
    · obtain ⟨len, hpos, hlen, -, hline⟩ := h.line_newline hL he hfound
      rw [Nat.mod_eq_of_lt (by omega)] at hline
      exact hgo len hpos (by omega) hline
termination_by b.head - b.tail
decreasing_by
  simp only [CircularBuffer.movedTo]
  omega

-- ---------------------------------------------------------------------------
-- Two pieces
-- ---------------------------------------------------------------------------

theorem after_newline (hx : x < b.fixedSize) (hi : b.strchr x = some (some i)) (hxy : x ≤ y)
    (hyi : y ≤ i + 1) (hy : y ≤ b.fixedSize) : b.after len y = b.after len x := by
  have hrest : b.rest len y = b.rest len x := by
    rw [rest_newline hx hi]
    rcases Nat.lt_or_eq_of_le hyi with hlt | rfl
    · have hend := (strchr_le hi).2
      rcases Nat.lt_or_eq_of_le hy with hyn | rfl
      · exact rest_newline hyn (strchr_between hi hxy (Nat.le_of_lt_succ hlt))
      · rw [Nat.min_eq_right hlt.le]
    · rw [Nat.min_eq_left hy]
  rw [after, after, hrest]

theorem after_end : b.after len b.fixedSize = some none := by
  rw [after, rest_end le_rfl, Option.bind_some, onward, if_neg (by omega), if_neg (by omega)]

/-- One line of held characters that run on over the end of the array: it fails
where reading on does, it ends them or leaves them in one piece, or it leaves the
tail where reading on leads to the same. -/
def LineLeads (lineSize : UInt16) (b : CircularBuffer UInt8) : Prop :=
  (b.consumeLine lineSize = none ∧ b.after lineSize.toNat b.tail = none) ∨
  ∃ y line, b.consumeLine lineSize = some (b.movedTo y, line) ∧ line ≠ [] ∧ y < b.fixedSize ∧
    (y ≤ b.head ∧ (∃ backs, b.settles lineSize.toNat backs b.tail) ∨
      b.tail < y ∧ b.after lineSize.toNat y = b.after lineSize.toNat b.tail ∨
      b.head < y ∧ ∃ z, b.after lineSize.toNat b.tail = some (some z) ∧
        b.after lineSize.toNat y = b.after lineSize.toNat z)

theorem Ended.leads_newline (h : Ended b) (hw : b.head < b.tail) (hL : 0 < lineSize.toNat)
    (hi : b.strchr b.tail = some (some i)) : LineLeads lineSize b := by
  have he : ¬ b.empty := fun he => hw.ne (empty_iff_head_eq.mp he)
  have ht := h.tail_lt
  have hsmall := h.small
  have hcons : b.consumable = b.fixedSize - b.tail := by rw [consumable, if_pos (wraps_iff.mpr hw)]
  have hend := (strchr_le hi).2
  obtain ⟨len, hlen, hle, hnl, hline⟩ := h.line_newline hL he hi
  have hafter : b.after lineSize.toNat (b.tail + len) = b.after lineSize.toNat b.tail :=
    after_newline ht hi (Nat.le_add_right b.tail len) hnl (by omega)
  refine .inr ⟨_, _, hline, copy_ne_nil hlen, Nat.mod_lt _ (by omega), ?_⟩
  rcases Nat.lt_or_eq_of_le (show b.tail + len ≤ b.fixedSize by omega) with hlt | heq
  · rw [Nat.mod_eq_of_lt hlt]
    exact .inr (.inl ⟨Nat.lt_add_of_pos_right hlen, hafter⟩)
  · rw [heq, after_end] at hafter
    rw [heq, Nat.mod_self]
    exact .inl ⟨Nat.zero_le _, 0, settles_end hafter.symm 0⟩

/-- The rest of the array is longer than a line: the tail moves on by a line, or
to the cell whose index is the line size. -/
theorem Ended.leads_part (h : Ended b) (hw : b.head < b.tail) (hL : 0 < lineSize.toNat)
    (hi : b.strchr b.tail = some none) (hlong : b.tail + lineSize.toNat < b.fixedSize) :
    LineLeads lineSize b := by
  have he : b.empty = false := by simp [empty, hw.ne]
  have hcons : b.consumable = b.fixedSize - b.tail := by rw [consumable, if_pos (wraps_iff.mpr hw)]
  have hline := consumeLine_part hi (show lineSize.toNat < b.consumable by omega)
  have hrest := rest_ended lineSize.toNat h.tail_lt hi
  have hstop : b.onward lineSize.toNat b.tail =
      (b.strchr (b.tail + lineSize.toNat)).map fun _ => some lineSize.toNat := if_pos hlong
  by_cases hhead : lineSize.toNat ≤ b.head
  · rw [if_pos ⟨hL, hhead, hlong⟩] at hrest
    rw [if_pos hhead, Nat.mod_eq_of_lt hlong] at hline
    rcases hs : b.strchr (b.tail + lineSize.toNat) with _ | e
    all_goals rw [hs] at hline hrest
    · exact .inl ⟨hline, congrArg (Option.bind · _) hrest⟩
    · refine .inr ⟨_, _, hline, copy_ne_nil hL, hlong, .inr (.inl ⟨Nat.lt_add_of_pos_right hL, ?_⟩)⟩
      exact congrArg (Option.bind · _) hrest.symm
  · have hback : (b.head ≤ b.tail + lineSize.toNat && !b.empty) = true := by
      rw [he, Bool.not_false, Bool.and_true, decide_eq_true_eq]
      omega
    rw [if_neg fun hc => hhead hc.2.1] at hrest
    rw [if_neg hhead, hback, if_pos rfl] at hline
    have hafter : b.after lineSize.toNat b.tail = b.onward lineSize.toNat b.tail := by
      rw [after, hrest, Option.bind_some]
    rw [hstop] at hafter
    rcases hs : b.strchr (b.tail + lineSize.toNat) with _ | e
    all_goals rw [hs] at hline hafter
    · exact .inl ⟨hline, hafter⟩
    · exact .inr ⟨_, _, hline, copy_ne_nil hL, by omega,
        .inr (.inr ⟨Nat.lt_of_not_ge hhead, lineSize.toNat, hafter, rfl⟩)⟩

theorem Ended.front (h : Ended b) (hw : b.head < b.tail) :
    ∃ z, b.buffer z = 0 ∧ z ≤ b.fixedSize ∧ (0 < b.head → z = b.head) := by
  rcases Nat.eq_zero_or_pos b.head with hzero | hpos
  · exact ⟨b.fixedSize, h.last hzero (by omega), le_rfl, fun hpos => absurd hzero hpos.ne'⟩
  · exact ⟨b.head, h.ended hpos, h.head_lt.le, fun _ => rfl⟩

/-- The rest of the array fits into the line, which goes on at the start. There
only an empty front piece can have a newline that is not held. -/
theorem Ended.leads_piece (h : Ended b) (hw : b.head < b.tail) (hL : 0 < lineSize.toNat)
    (hi : b.strchr b.tail = some none) (hfit : b.fixedSize ≤ b.tail + lineSize.toNat) :
    LineLeads lineSize b := by
  have ht := h.tail_lt
  have hsmall := h.small
  have hwraps := wraps_iff.mpr hw
  have hcons : b.consumable = b.fixedSize - b.tail := by rw [consumable, if_pos hwraps]
  have hline := consumeLine_piece hi (show b.consumable ≤ lineSize.toNat by omega)
  have hout : ∀ extra, b.copy b.tail b.consumable ++ b.copy 0 extra ≠ [] :=
    fun extra => List.append_ne_nil_of_left_ne_nil (copy_ne_nil (by omega)) _
  have hafter : b.after lineSize.toNat b.tail =
      if b.head = 0 ∧ b.tail < b.fixedSize ∧ b.tail + lineSize.toNat ≠ b.fixedSize ∧
        b.strchr 0 ≠ some none then some (some 0) else some none := by
    rw [after, rest_ended _ ht hi, if_neg fun hc => absurd hc.2.2 hfit.not_gt,
      Option.bind_some, onward, if_neg hfit.not_gt]
  obtain ⟨z, hz, hzn, hzh⟩ := h.front hw
  rw [if_pos hwraps] at hline
  rcases strchr_ended hz hzn (Nat.zero_le z) with h0 | ⟨j, hj, h0⟩
  · rw [h0] at hline hafter
    rw [if_neg fun hc => hc.2.2.2 rfl] at hafter
    refine .inr ⟨_, _, hline, hout 0, Nat.mod_lt _ (by omega), .inl ⟨?_, 0, settles_end hafter 0⟩⟩
    exact (Nat.zero_mod _).le.trans (Nat.zero_le _)
  · rw [h0] at hline hafter
    simp only [Option.map_some, Nat.mod_eq_of_lt (show j + 1 < 2 ^ 16 by omega)] at hline
    generalize hextra : min (lineSize.toNat - b.consumable) (j + 1) = extra at hline
    refine .inr ⟨_, _, hline, hout extra, Nat.mod_lt _ (by omega), ?_⟩
    by_cases hc : b.head = 0 ∧ b.tail + lineSize.toNat ≠ b.fixedSize
    · rw [if_pos ⟨hc.1, ht, hc.2, by simp⟩] at hafter
      have hzero : b.after lineSize.toNat extra = b.after lineSize.toNat 0 :=
        after_newline (by omega) h0 (Nat.zero_le _) (by omega) (by omega)
      rcases Nat.lt_or_eq_of_le (show extra ≤ b.fixedSize by omega) with hlt | heq
      · rw [Nat.mod_eq_of_lt hlt]
        exact .inr (.inr ⟨by omega, 0, hafter, hzero⟩)
      · rw [heq, after_end] at hzero
        rw [heq, Nat.mod_self]
        refine .inl ⟨Nat.zero_le _, 1, ?_⟩
        rw [settles_back hafter]
        exact settles_end hzero.symm 0
    · rw [if_neg fun hc' => hc ⟨hc'.1, hc'.2.2.1⟩] at hafter
      refine .inl ⟨?_, 0, settles_end hafter 0⟩
      have hle : extra ≤ b.head := by
        rcases Nat.eq_zero_or_pos b.head with hzero | hpos
        · have hall := Classical.not_not.mp fun hne => hc ⟨hzero, hne⟩
          omega
        · have := hzh hpos
          omega
      exact (Nat.mod_le _ _).trans hle

theorem Ended.leads (h : Ended b) (hw : b.head < b.tail) (hL : 0 < lineSize.toNat) :
    LineLeads lineSize b := by
  rcases hi : b.strchr b.tail with _ | _ | i
  · refine .inl ⟨by simp [consumeLine, hi], ?_⟩
    rw [after, rest_overrun h.tail_lt hi, Option.bind_none]
  · rcases Nat.lt_or_ge (b.tail + lineSize.toNat) b.fixedSize with hlong | hfit
    · exact h.leads_part hw hL hi hlong
    · exact h.leads_piece hw hL hi hfit
  · exact h.leads_newline hw hL hi

-- ---------------------------------------------------------------------------
-- Any number of lines
-- ---------------------------------------------------------------------------

theorem settles_of_drain (h : Ended b) (hw : b.head < b.tail) (hL : 0 < lineSize.toNat)
    (hd : b.drain lineSize fuel = some lines) : ∃ backs, b.settles lineSize.toNat backs b.tail := by
  induction fuel generalizing b lines with
  | zero => cases hd
  | succ fuel ih =>
    have he : ¬ b.empty := fun he => hw.ne (empty_iff_head_eq.mp he)
    rw [drain, if_neg he] at hd
    obtain ⟨⟨b₁, line⟩, hline, hd⟩ := Option.bind_eq_some_iff.mp hd
    obtain ⟨lines₁, hd₁, -⟩ := Option.bind_eq_some_iff.mp hd
    rcases h.leads hw hL with ⟨hnone, -⟩ | ⟨y, line', hsome, -, hy, hcase⟩
    · cases hline.symm.trans hnone
    cases hline.symm.trans hsome
    have hnext : b.head < y → ∃ backs, b.settles lineSize.toNat backs y := by
      intro hhead
      obtain ⟨backs, hs⟩ := ih (h.movedTo hy fun he' => absurd he' he) hhead hd₁
      rw [settles_movedTo] at hs
      exact ⟨backs, hs⟩
    rcases hcase with ⟨-, hs⟩ | ⟨hlt, hafter⟩ | ⟨hlt, z, hback, hafter⟩
    · exact hs
    · obtain ⟨backs, hs⟩ := hnext (hw.trans hlt)
      exact ⟨backs, settles_congr hafter backs ▸ hs⟩
    · obtain ⟨backs, hs⟩ := hnext hlt
      refine ⟨backs + 1, ?_⟩
      rw [settles_back hback, ← settles_congr hafter]
      exact hs

theorem drains_of_settles {b : CircularBuffer UInt8} (h : Ended b) (hw : b.head < b.tail)
    (hL : 0 < lineSize.toNat) (hs : b.settles lineSize.toNat backs b.tail) : Drains lineSize b := by
  have he : ¬ b.empty := fun he => hw.ne (empty_iff_head_eq.mp he)
  rcases h.leads hw hL with ⟨-, hnone⟩ | ⟨y, line, hline, hl, hy, hcase⟩
  · rw [not_settles hnone] at hs
    cases hs
  have hnext : Ended (b.movedTo y) := h.movedTo hy fun he' => absurd he' he
  refine Drains.cons he hline hl ?_
  rcases hcase with ⟨hle, -⟩ | ⟨hlt, hafter⟩ | ⟨hlt, z, hback, hafter⟩
  · exact drains_piece hnext hle hL
  · rw [← settles_congr hafter, ← settles_movedTo b y] at hs
    exact drains_of_settles hnext (hw.trans hlt) hL hs
  · rcases hb : backs with _ | k
    · simp [hb, settles, hback] at hs
    · rw [hb, settles_back hback, ← settles_congr hafter, ← settles_movedTo b y] at hs
      exact drains_of_settles hnext hlt hL hs
termination_by (backs, b.fixedSize - b.tail)
decreasing_by
  · refine Prod.Lex.right backs ?_
    simp only [CircularBuffer.movedTo]
    omega
  · exact Prod.Lex.left _ _ (hb ▸ Nat.lt_succ_self k)

/-- The loop ends with nothing left exactly if the held characters lie in one
piece, or reading on from the tail comes to the end. -/
theorem drains_iff (size : UInt16) (memory : Nat → UInt8) (cs : List Call) (outs : List Bytes)
    (b : CircularBuffer UInt8) (lineSize : UInt16) (hn : 0 < size.toNat) (hL : 1 ≤ lineSize.toNat)
    (hc : (new size memory).calls cs = some (b, outs)) :
    Drains lineSize b ↔ (b.wraps → b.settles lineSize.toNat 2 b.tail) := by
  have h := ended_calls size memory cs hn hc
  constructor
  · rintro ⟨fuel, lines, hd, -⟩ hw
    obtain ⟨backs, hs⟩ := settles_of_drain h (wraps_iff.mp hw) hL hd
    exact settles_two hs
  · intro hs
    rcases Nat.lt_or_ge b.head b.tail with hw | hle
    · exact drains_of_settles h hw hL (hs (wraps_iff.mpr hw))
    · exact drains_piece h hle hL

theorem drains_over_the_end :
    ∃ b, (new 4 fun _ => 0).calls [.write [0x61, 0x62], .consume, .consume,
      .write [0x63, 0x64, 0x0A]] =
        some (b, [[], [0x61], [0x62], []]) ∧ b.wraps = true ∧ Drains 159 b := by
  refine ⟨_, rfl, ?_, (drains_iff 4 (fun _ => 0)
    [.write [0x61, 0x62], .consume, .consume, .write [0x63, 0x64, 0x0A]] _ _ 159
    (by decide) (by decide) rfl).mpr fun _ => ?_⟩
  · decide +kernel
  · decide +kernel

/-- One character is held, in the last cell. The line from there takes up the
newline left behind the start of the array, and so does every later one. -/
theorem stale_newline_never_drains :
    ∃ b, (new 4 fun _ => 0).calls
        [.write [0x61, 0x0A, 0x62], .consume, .consume, .consume, .write [0x63]] =
        some (b, [[], [0x61], [0x0A], [0x62], []]) ∧ b.held = [0x63] ∧ ¬ Drains 159 b := by
  refine ⟨_, rfl, ?_, ?_⟩
  · decide +kernel
  · rintro ⟨fuel, lines, hd, -⟩
    have h := ended_calls 4 (fun _ => 0)
      [.write [0x61, 0x0A, 0x62], .consume, .consume, .consume, .write [0x63]] (by decide) rfl
    obtain ⟨backs, hs⟩ := settles_of_drain h (by decide +kernel) (by decide) hd
    have hnever := settles_two hs
    revert hnever
    decide +kernel

end BitchatRepeater.CircularBuffer
