import BitchatRepeater.FullFlag

/-!
# Searches of `consume_line`

`consume_line` looks for newlines with `strchr`, which ends at a newline or a zero and
knows nothing of the array's end. A write puts the end item behind its last
character, but the extra cell gets one only from a write that ends with the last
cell. Behind a text that runs on over the end, the characters up to the end of the
array may have nothing after them but what the memory held at first.
-/

namespace BitchatRepeater.CircularBuffer

open Lib

variable {b b' : CircularBuffer UInt8}

def IsStop (char : UInt8) : Prop := char = newline ∨ char = 0

instance decidableIsStop (char : UInt8) : Decidable (IsStop char) :=
  inferInstanceAs (Decidable (char = newline ∨ char = 0))

def Stops (b : CircularBuffer UInt8) (start : Nat) : Prop :=
  ∃ i ≤ b.fixedSize, start ≤ i ∧ IsStop (b.buffer i)

/-- Where the searches of a call begin. There is a second one where the first stops
at a zero: from the start of the array, or behind the part that fills the line. -/
def scans (b : CircularBuffer UInt8) (lineSize : Nat) : List Nat :=
  let willConsume := min lineSize b.consumable
  b.tail ::
    match b.strchr b.tail with
    | some none =>
      if b.consumable = willConsume then
        if b.wraps then [0] else []
      else [b.tail + willConsume]
    | _ => []

def ScansInside (b : CircularBuffer UInt8) : Prop :=
  ∀ lineSize : UInt16, ∀ start ∈ b.scans lineSize.toNat, b.Stops start

-- ---------------------------------------------------------------------------
-- Searches that stop
-- ---------------------------------------------------------------------------

theorem strchr_isSome_iff : (b.strchr x).isSome ↔ b.Stops x := by
  rcases Nat.lt_or_ge b.fixedSize x with hx | hx
  · rw [strchr_beyond hx]
    refine iff_of_false (by simp) ?_
    rintro ⟨i, hi, hxi, -⟩
    omega
  · rw [strchr_cell hx]
    split
    next hnl => exact iff_of_true rfl ⟨x, hx, le_rfl, .inl hnl⟩
    next hnl =>
      split
      next hz => exact iff_of_true rfl ⟨x, hx, le_rfl, .inr hz⟩
      next hz =>
        rw [strchr_isSome_iff]
        constructor
        · rintro ⟨i, hi, hxi, hstop⟩
          exact ⟨i, hi, Nat.le_of_succ_le hxi, hstop⟩
        · rintro ⟨i, hi, hxi, hstop⟩
          refine ⟨i, hi, Nat.lt_of_le_of_ne hxi fun he => ?_, hstop⟩
          rw [← he] at hstop
          exact hstop.elim hnl hz
termination_by b.fixedSize + 1 - x

theorem consumeLine_isSome_iff (b : CircularBuffer UInt8) (lineSize : UInt16) :
    (b.consumeLine lineSize).isSome ↔ ∀ start ∈ b.scans lineSize.toNat, b.Stops start := by
  simp only [scans, List.forall_mem_cons, ← strchr_isSome_iff]
  rcases hi : b.strchr b.tail with _ | _ | i
  · simp [consumeLine, hi]
  · rcases Nat.lt_or_ge lineSize.toNat b.consumable with hlong | hfit
    · rw [consumeLine_part hi hlong, Nat.min_eq_left hlong.le]
      simp [hlong.ne']
    · rw [consumeLine_piece hi hfit, Nat.min_eq_right hfit]
      by_cases hw : b.wraps
      · simp [hw]
      · simp [hw]
  · simp [consumeLine_newline hi]

-- ---------------------------------------------------------------------------
-- Guarded buffers
-- ---------------------------------------------------------------------------

def LastStops (b : CircularBuffer UInt8) : Prop :=
  IsStop (b.buffer (b.fixedSize - 1)) ∨ IsStop (b.buffer b.fixedSize)

/-- There is something to stop at, however the held characters are consumed. -/
structure Guarded (b : CircularBuffer UInt8) : Prop where
  front : b.head = 0 → b.tail = 0 → b.Stops 0
  onward : 0 < b.head → b.head < b.tail → b.LastStops

theorem Guarded.last (hg : Guarded b) (h : Ended b) (hw : b.head < b.tail) : b.LastStops := by
  rcases Nat.eq_zero_or_pos b.head with hzero | hpos
  · exact .inr (.inr (h.last hzero (by omega)))
  · exact hg.onward hpos hw

theorem LastStops.stops (h : b.LastStops) (hx : x < b.fixedSize) : b.Stops x := by
  rcases h with hstop | hstop
  · exact ⟨b.fixedSize - 1, by omega, by omega, hstop⟩
  · exact ⟨b.fixedSize, le_rfl, hx.le, hstop⟩

theorem Ended.stops_piece (h : Ended b) (hpos : 0 < b.head) (hx : x ≤ b.head) : b.Stops x :=
  ⟨b.head, h.head_lt.le, hx, .inr (h.ended hpos)⟩

theorem Guarded.scansInside (hg : Guarded b) (h : Ended b) : ScansInside b := by
  intro lineSize start hstart
  obtain ⟨-, hend, -⟩ := h.toOk.consumable_le
  have htail := h.tail_lt
  rcases Nat.lt_or_ge b.head b.tail with hw | hle
  · -- all searches begin in front of the end of the array
    refine (hg.last h hw).stops ?_
    rcases List.mem_cons.mp hstart with rfl | hsecond
    · exact htail
    · split at hsecond
      · split at hsecond
        · split at hsecond
          · rw [List.mem_singleton.mp hsecond]
            omega
          · cases hsecond
        · rw [List.mem_singleton.mp hsecond]
          omega
      · cases hsecond
  · have hnowrap : ¬ b.wraps := fun hw => absurd (wraps_iff.mp hw) hle.not_gt
    have hcons : b.consumable = b.head - b.tail := by rw [consumable, if_neg hnowrap]
    have hin : start ≤ b.head := by
      rcases List.mem_cons.mp hstart with rfl | hsecond
      · exact hle
      · split at hsecond
        · rw [if_neg hnowrap] at hsecond
          split at hsecond
          · cases hsecond
          · rw [List.mem_singleton.mp hsecond]
            omega
        · cases hsecond
    rcases Nat.eq_zero_or_pos b.head with hzero | hpos
    · obtain ⟨i, hi, -, hstop⟩ := hg.front hzero (by omega)
      exact ⟨i, hi, by omega, hstop⟩
    · exact h.stops_piece hpos hin

/-- Whatever is consumed, the searches stay inside the array: then it is guarded. -/
theorem Ended.guarded_of_scans (h : Ended b)
    (hscans : ∀ ds, (∀ d ∈ ds, d.writes = false) → ∀ r ∈ b.calls ds, ScansInside r.1) :
    Guarded b := by
  have hn : b.fixedSize < 2 ^ 16 := h.small
  have ht := h.tail_lt
  constructor
  · intro _ htail
    have hnow := hscans [] (List.forall_mem_nil _) _ rfl 0 b.tail List.mem_cons_self
    rwa [htail] at hnow
  · intro _ hw
    -- consume up to the last cell
    let count := UInt16.ofNat (b.fixedSize - 1 - b.tail)
    have hsmall : b.fixedSize - 1 - b.tail < 2 ^ 16 := by omega
    have hcount : count.toNat = b.fixedSize - 1 - b.tail := UInt16.toNat_ofNat_of_lt' hsmall
    have hcons : b.consumable = b.fixedSize - b.tail := by
      rw [consumable, if_pos (wraps_iff.mpr hw)]
    have hmin : min count.toNat b.consumable = b.fixedSize - 1 - b.tail := by omega
    have hpos : (b.tail + (b.fixedSize - 1 - b.tail)) % b.fixedSize = b.fixedSize - 1 := by
      rw [Nat.add_sub_cancel' (by omega), Nat.mod_eq_of_lt (by omega)]
    have hblock := h.toOk.consumeBlockInto_eq count
    rw [hmin, hpos] at hblock
    have hcalls : b.calls [.consumeBlockInto count] =
        some (b.movedTo (b.fixedSize - 1), [b.copy b.tail (b.fixedSize - 1 - b.tail)]) := by
      rw [calls, CircularBuffer.call, hblock]
      rfl
    have hlast := hscans _ (by simp [Call.writes]) _ hcalls 0 _ List.mem_cons_self
    obtain ⟨i, hi, hle, hstop⟩ := hlast
    simp only [CircularBuffer.movedTo] at hi hle hstop
    rcases Nat.lt_or_eq_of_le hi with hlt | rfl
    · have heq : i = b.fixedSize - 1 := by omega
      exact .inl (heq ▸ hstop)
    · exact .inr hstop

-- ---------------------------------------------------------------------------
-- Calls that write nothing
-- ---------------------------------------------------------------------------

theorem Guarded.moves (hg : Guarded b) (h : Ended b) (hm : Moves b b') : Guarded b' := by
  cases hm with
  | tail hpos hbetween =>
    constructor
    · intro hhead _
      rcases Nat.eq_zero_or_pos b.tail with hzero | htail
      · exact hg.front hhead hzero
      · exact ⟨b.fixedSize, le_rfl, Nat.zero_le _, .inr (h.last hhead htail.ne')⟩
    · intro hhead hlt
      refine hg.onward hhead ?_
      by_contra hle
      have hin := hbetween (Nat.le_of_not_lt hle)
      simp only [CircularBuffer.movedTo] at hlt
      omega
  | reset hfixed hhead htail hmaxed hcells =>
    refine ⟨fun _ _ => ?_, fun hpos => absurd hhead hpos.ne'⟩
    rcases hcells with hzero | ⟨he, hbuffer⟩
    · exact ⟨0, Nat.zero_le _, le_rfl, .inr hzero⟩
    · have heq := empty_iff_head_eq.mp he
      rw [Stops, hfixed, hbuffer]
      rcases Nat.eq_zero_or_pos b.head with hz | hpos
      · exact hg.front hz (heq ▸ hz)
      · exact h.stops_piece hpos (Nat.zero_le _)
  | request => exact ⟨hg.front, hg.onward⟩

-- ---------------------------------------------------------------------------
-- Writes
-- ---------------------------------------------------------------------------

theorem guarded_of_last (hstop : IsStop (b.buffer b.fixedSize)) : Guarded b :=
  ⟨fun _ _ => ⟨b.fixedSize, le_rfl, Nat.zero_le _, hstop⟩, fun _ _ => .inr hstop⟩

theorem Guarded.writeItem (hg : Guarded b) (h : Ended b) (item : UInt8) :
    Guarded (b.writeItem item) := by
  have hh := h.head_lt
  have ht := h.tail_lt
  rcases Nat.lt_or_ge (b.head + 1) b.fixedSize with hlt | hge
  · have hhead : (b.writeItem item).head = b.head + 1 := Nat.mod_eq_of_lt hlt
    have hcell : ∀ i, b.head < i → IsStop (b.buffer i) → IsStop ((b.writeItem item).buffer i) := by
      intro i hi hstop
      simp only [CircularBuffer.writeItem, setCell]
      by_cases hnext : i = b.head + 1
      · rw [hnext, Function.update_self]
        exact .inr rfl
      · rwa [Function.update_of_ne hnext, Function.update_of_ne hi.ne']
    refine ⟨fun hzero => absurd (hhead.symm.trans hzero) (Nat.succ_ne_zero _), fun _ hw => ?_⟩
    have hwas : b.head < b.tail := by
      by_cases hm : b.maxed
      · have hnext := h.maxed hm
        omega
      · have htail : (b.writeItem item).tail = b.tail := if_neg hm
        omega
    exact (hg.last h hwas).imp (hcell (b.fixedSize - 1) (by omega)) (hcell b.fixedSize hh)
  · have hend : b.fixedSize = b.head + 1 := Nat.le_antisymm hge hh
    refine guarded_of_last (.inr ?_)
    have hself := Function.update_self (b.head + 1) 0 (Function.update b.buffer b.head item)
    have hcell : (b.writeItem item).buffer (b.head + 1) = 0 := hself
    rwa [← hend] at hcell

-- ---------------------------------------------------------------------------
-- Texts
-- ---------------------------------------------------------------------------

/-- When a text leaves something to stop at: it does not run on over the end of the
array, the extra cell has a stop already, the end item comes to one of the two last
cells, or the character in the last cell is a newline. -/
def EndReady (b : CircularBuffer UInt8) (s : Bytes) : Prop :=
  let head := (b.head + s.length) % b.fixedSize
  b.head + s.length ≤ b.fixedSize ∨ IsStop (b.buffer b.fixedSize) ∨ head = 0 ∨
  head + 1 = b.fixedSize ∨
    s.getD (s.length - 1 - head) 0 = newline

instance decidableEndReady (b : CircularBuffer UInt8) (s : Bytes) : Decidable (EndReady b s) :=
  inferInstanceAs (Decidable (_ ∨ _ ∨ _ ∨ _ ∨ _))

section Text
variable {s : Bytes} {flag : Bool}

theorem wrote_stop (hcell : ∀ i < s.length, (b.head + i) % b.fixedSize ≠ c)
    (hstop : IsStop (b.buffer c)) :
    IsStop ((b.wrote s flag).buffer c) := by
  simp only [wrote]
  by_cases he : c = (if s = [] then 0 else (b.head + (s.length - 1)) % b.fixedSize) + 1
  · rw [he, Function.update_self]
    exact .inr rfl
  · rwa [Function.update_of_ne he, store_outside hcell]

theorem wrote_end (hs : s ≠ []) :
    (b.wrote s flag).buffer ((b.head + (s.length - 1)) % b.fixedSize + 1) = 0 := by
  simp only [wrote, if_neg hs]
  exact Function.update_self _ _ _

theorem mod_ne_size (hn : 0 < b.fixedSize) : ∀ i < s.length, (b.head + i) % b.fixedSize ≠
    b.fixedSize :=
  fun _ _ => (Nat.mod_lt _ hn).ne

theorem end_pos (hn : 0 < b.fixedSize) (hs : s ≠ []) :
    (b.head + (s.length - 1)) % b.fixedSize + 1 =
      if (b.head + s.length) % b.fixedSize = 0 then b.fixedSize
      else (b.head + s.length) % b.fixedSize := by
  have hpos := List.length_pos_iff.mpr hs
  have hlt := Nat.mod_lt (b.head + (s.length - 1)) hn
  have hnext : (b.head + s.length) % b.fixedSize =
      ((b.head + (s.length - 1)) % b.fixedSize + 1) % b.fixedSize := by
    rw [Nat.mod_add_mod, Nat.add_assoc, Nat.sub_add_cancel hpos]
  rw [hnext]
  rcases Nat.lt_or_ge ((b.head + (s.length - 1)) % b.fixedSize + 1) b.fixedSize with hin | hout
  · rw [Nat.mod_eq_of_lt hin, if_neg (Nat.succ_ne_zero _)]
  · have heq : (b.head + (s.length - 1)) % b.fixedSize + 1 = b.fixedSize := Nat.le_antisymm hlt hout
    rw [heq, Nat.mod_self, if_pos rfl]

/-- Text over the end of the array has passed the last cell and those in front of the
new head. -/
theorem passes (hh : b.head < b.fixedSize) (hover : b.fixedSize < b.head + s.length)
    (hnext : next = (b.head + s.length) % b.fixedSize) :
    next < s.length ∧ (b.head + (s.length - 1 - next)) % b.fixedSize = b.fixedSize - 1 ∧
      ∀ c < next, ∃ i < s.length, (b.head + i) % b.fixedSize = c := by
  have hn := Nat.zero_lt_of_lt hh
  have hlt : next < b.fixedSize := hnext ▸ Nat.mod_lt _ hn
  have hdiv := Nat.div_add_mod (b.head + s.length) b.fixedSize
  rw [← hnext] at hdiv
  have hturn : (b.head + s.length) / b.fixedSize ≠ 0 := by
    intro hzero
    rw [hzero, Nat.mul_zero] at hdiv
    omega
  obtain ⟨turns, hturns⟩ := Nat.exists_eq_succ_of_ne_zero hturn
  rw [hturns, Nat.mul_succ] at hdiv
  refine ⟨by omega, ?_, fun c hc => ⟨s.length - next + c, by omega, ?_⟩⟩
  · rw [show b.head + (s.length - 1 - next) = b.fixedSize * turns + (b.fixedSize - 1) by omega,
      Nat.mul_add_mod, Nat.mod_eq_of_lt (by omega)]
  · rw [show b.head + (s.length - next + c) = b.fixedSize * turns + b.fixedSize + c by omega,
      Nat.add_assoc, Nat.mul_add_mod, Nat.add_mod_left, Nat.mod_eq_of_lt (by omega)]

theorem Ended.wraps_of_over (h : Ended b) (hm : LoopFlag b s flag)
    (hover : b.fixedSize < b.head + s.length)
    (hlast : (b.head + s.length) % b.fixedSize + 1 < b.fixedSize) :
    (b.wrote s flag).head < (b.wrote s flag).tail := by
  have ht := h.tail_lt
  obtain ⟨hcount, hend, hfront⟩ := passes h.head_lt hover rfl
  simp only [wrote_head, wrote_tail]
  cases hf : flag with
  | true =>
    have hnext : (b.head + s.length + 1) % b.fixedSize = (b.head + s.length) % b.fixedSize + 1 := by
      rw [← Nat.mod_add_mod, Nat.mod_eq_of_lt hlast]
    rw [if_pos rfl, hnext]
    exact Nat.lt_succ_self _
  | false =>
    rw [if_neg Bool.false_ne_true]
    by_contra hle
    -- else the loop has come to the tail
    have hseen : ¬ ∃ i < s.length, b.reaches ((b.head + i) % b.fixedSize) :=
      fun hreach => absurd (hm.mpr (.inr hreach)) (by simp [hf])
    rcases Nat.lt_or_ge b.tail 2 with hlow | hhigh
    · refine hseen ⟨s.length - 1 - (b.head + s.length) % b.fixedSize, by omega, ?_⟩
      rw [hend]
      have hround : b.fixedSize - 1 + 1 = b.fixedSize := by omega
      simp only [reaches, hround, Nat.mod_self, Bool.or_eq_true, Bool.and_eq_true,
        decide_eq_true_eq, and_true]
      omega
    · obtain ⟨i, hi, hpos⟩ := hfront (b.tail - 2) (by omega)
      refine hseen ⟨i, hi, ?_⟩
      rw [hpos]
      have hnext : (b.tail - 2 + 1) % b.fixedSize = b.tail - 1 := by
        rw [Nat.mod_eq_of_lt (by omega)]
        omega
      simp only [reaches, hnext, Bool.or_eq_true, Bool.and_eq_true, decide_eq_true_eq]
      omega

theorem Ended.wrapped_of_within (h : Ended b) (hm : LoopFlag b s flag)
    (hwithin : b.head + s.length < b.fixedSize)
    (hw : (b.wrote s flag).head < (b.wrote s flag).tail) : b.head < b.tail := by
  have ht := h.tail_lt
  simp only [wrote_head, wrote_tail, Nat.mod_eq_of_lt hwithin] at hw
  by_contra hle
  cases hf : flag with
  | false =>
    rw [hf, if_neg Bool.false_ne_true] at hw
    omega
  | true =>
    rcases hm.mp hf with hmaxed | ⟨i, hi, hreach⟩
    · have hnext := h.maxed hmaxed
      omega
    · have hpos : (b.head + i) % b.fixedSize = b.head + i := Nat.mod_eq_of_lt (by omega)
      have hnext : (b.head + i + 1) % b.fixedSize = b.head + i + 1 := Nat.mod_eq_of_lt (by omega)
      simp only [reaches, hpos, hnext, Bool.or_eq_true, Bool.and_eq_true,
        decide_eq_true_eq] at hreach
      omega

theorem Guarded.wrote_within (hg : Guarded b) (h : Ended b) (hm : LoopFlag b s flag)
    (hwithin : b.head + s.length < b.fixedSize) : Guarded (b.wrote s flag) := by
  have hhead : (b.wrote s flag).head = b.head + s.length := Nat.mod_eq_of_lt hwithin
  have hcell : ∀ i < s.length, (b.head + i) % b.fixedSize = b.head + i := fun i hi =>
    Nat.mod_eq_of_lt (by omega)
  have hkeep : ∀ c, b.head + s.length ≤ c → IsStop (b.buffer c) →
      IsStop ((b.wrote s flag).buffer c) := by
    intro c hc
    refine wrote_stop fun i hi => ?_
    rw [hcell i hi]
    omega
  constructor
  · intro hzero htail
    have hs : s = [] := by
      by_contra hs
      have hpos := List.length_pos_iff.mpr hs
      omega
    subst hs
    rw [tail_wrote_nil h.toOk hm] at htail
    obtain ⟨i, hi, -, hstop⟩ := hg.front (hhead.symm.trans hzero) htail
    exact ⟨i, hi, Nat.zero_le _, wrote_stop (fun i hi => absurd hi (Nat.not_lt_zero i)) hstop⟩
  · intro _ hw
    have hlast := hg.last h (h.wrapped_of_within hm hwithin hw)
    exact hlast.imp (hkeep (b.fixedSize - 1) (by omega)) (hkeep b.fixedSize hwithin.le)

theorem guarded_wrote_end (hh : b.head < b.fixedSize) (hs : s ≠ [])
    (hend : (b.head + s.length) % b.fixedSize = 0 ∨
      (b.head + s.length) % b.fixedSize + 1 = b.fixedSize) :
    Guarded (b.wrote s flag) := by
  have hcell : (b.wrote s flag).buffer ((b.head + (s.length - 1)) % b.fixedSize + 1) = 0 :=
    wrote_end hs
  rw [end_pos (Nat.zero_lt_of_lt hh) hs] at hcell
  by_cases hzero : (b.head + s.length) % b.fixedSize = 0
  · rw [if_pos hzero] at hcell
    exact guarded_of_last (.inr hcell)
  · have hlast := hend.resolve_left hzero
    have hpos : (b.head + s.length) % b.fixedSize = b.fixedSize - 1 := by omega
    rw [if_neg hzero, hpos] at hcell
    exact ⟨fun hhead => absurd hhead hzero, fun _ _ => .inl (.inr hcell)⟩

theorem Ended.wrote_over_iff (h : Ended b) (hz : ∀ x ∈ s, x ≠ 0) (hm : LoopFlag b s flag)
    (hover : b.fixedSize < b.head + s.length) (hfirst : (b.head + s.length) % b.fixedSize ≠ 0)
    (hlast : (b.head + s.length) % b.fixedSize + 1 ≠ b.fixedSize)
    (hextra : ¬ IsStop (b.buffer b.fixedSize)) :
    Guarded (b.wrote s flag) ↔
      s.getD (s.length - 1 - (b.head + s.length) % b.fixedSize) 0 = newline := by
  have hn := Nat.zero_lt_of_lt h.head_lt
  have hlt := Nat.mod_lt (b.head + s.length) hn
  obtain ⟨hcount, hend, -⟩ := passes h.head_lt hover rfl
  have hs : s ≠ [] := List.length_pos_iff.mp (Nat.zero_lt_of_lt hcount)
  have hcell : ∀ c, c ≠ (b.head + s.length) % b.fixedSize →
      (b.wrote s flag).buffer c = store b.fixedSize b.buffer b.head s c := by
    intro c hc
    simp only [wrote, if_neg hs]
    rw [end_pos hn hs, if_neg hfirst, Function.update_of_ne hc]
  have hold : (b.wrote s flag).buffer b.fixedSize = b.buffer b.fixedSize := by
    rw [hcell _ hlt.ne', store_outside (mod_ne_size hn)]
  have hchar : (b.wrote s flag).buffer (b.fixedSize - 1) =
      s.getD (s.length - 1 - (b.head + s.length) % b.fixedSize) 0 := by
    have hback := store_back b.buffer b.head s hlt hcount
    rw [hend] at hback
    rw [hcell _ (by omega), hback, List.getD_eq_getElem?_getD, List.getElem?_eq_getElem (by omega),
      Option.getD_some]
  have hne : s.getD (s.length - 1 - (b.head + s.length) % b.fixedSize) 0 ≠ 0 := by
    rw [List.getD_eq_getElem?_getD, List.getElem?_eq_getElem (by omega), Option.getD_some]
    exact hz _ (List.getElem_mem _)
  have hstops : (b.wrote s flag).LastStops ↔
      s.getD (s.length - 1 - (b.head + s.length) % b.fixedSize) 0 = newline := by
    rw [LastStops, wrote_fixedSize, hold, hchar, or_iff_left hextra, IsStop, or_iff_left hne]
  rw [← hstops]
  constructor
  · exact fun hg => hg.onward (Nat.pos_of_ne_zero hfirst) (h.wraps_of_over hm hover (by omega))
  · exact fun hl => ⟨fun hhead => absurd hhead hfirst, fun _ _ => hl⟩

theorem Guarded.wrote_iff (hg : Guarded b) (h : Ended b) (hz : ∀ x ∈ s, x ≠ 0)
    (hm : LoopFlag b s flag) :
    Guarded (b.wrote s flag) ↔ EndReady b s := by
  have hh := h.head_lt
  unfold EndReady
  by_cases hextra : IsStop (b.buffer b.fixedSize)
  · refine iff_of_true (guarded_of_last ?_) (.inr (.inl hextra))
    exact wrote_stop (mod_ne_size (Nat.zero_lt_of_lt hh)) hextra
  · rcases Nat.lt_trichotomy (b.head + s.length) b.fixedSize with hlt | heq | hgt
    · exact iff_of_true (hg.wrote_within h hm hlt) (.inl hlt.le)
    · have hs : s ≠ [] := List.length_pos_iff.mp (by omega)
      refine iff_of_true (guarded_wrote_end hh hs (.inl ?_)) (.inl heq.le)
      rw [heq, Nat.mod_self]
    · have hs : s ≠ [] := List.length_pos_iff.mp (by omega)
      by_cases hfirst : (b.head + s.length) % b.fixedSize = 0
      · exact iff_of_true (guarded_wrote_end hh hs (.inl hfirst)) (.inr (.inr (.inl hfirst)))
      · by_cases hlast : (b.head + s.length) % b.fixedSize + 1 = b.fixedSize
        · exact iff_of_true (guarded_wrote_end hh hs (.inr hlast)) (.inr (.inr (.inr (.inl hlast))))
        · rw [h.wrote_over_iff hz hm hgt hfirst hlast hextra]
          simp only [hgt.not_ge, hextra, hfirst, hlast, false_or]

end Text

-- ---------------------------------------------------------------------------
-- All calls
-- ---------------------------------------------------------------------------

/-- Of all calls, only strings can leave nothing to stop at. -/
def EndItemReady (b : CircularBuffer UInt8) : Call → Prop
  | .write items => EndReady b (str items)
  | _ => True

instance decidableEndItemReady (b : CircularBuffer UInt8) : DecidablePred (EndItemReady b)
  | .write items => decidableEndReady b (str items)
  | .writeItem _ | .consume | .consumeBlock | .consumeBlockInto _ | .consumeLine _ | .clear
  | .clearIfEmpty =>
    isTrue trivial

theorem Guarded.call_iff (hg : Guarded b) (h : Ended b) (hc : b.call c = some (b', out)) :
    Guarded b' ↔ EndItemReady b c := by
  obtain ⟨item, rfl, rfl⟩ | ⟨items, rfl, hw⟩ | ⟨hwrites, hm⟩ := call_cases h.toOk hc
  · exact iff_of_true (hg.writeItem h item) trivial
  · obtain ⟨flag, rfl, hm⟩ := write_eq hw
    exact hg.wrote_iff h (str_ne_zero items) hm
  · refine iff_of_true (hg.moves h hm) ?_
    cases c with
    | write items => cases hwrites
    | _ => trivial

theorem guarded_new_iff (size : UInt16) (memory : Nat → UInt8) :
    Guarded (new size memory) ↔ ∃ i ≤ size.toNat, IsStop (memory i) := by
  constructor
  · intro hg
    obtain ⟨i, hi, -, hstop⟩ := hg.front rfl rfl
    exact ⟨i, hi, hstop⟩
  · rintro ⟨i, hi, hstop⟩
    exact ⟨fun _ _ => ⟨i, hi, Nat.zero_le _, hstop⟩, fun hpos => absurd hpos (Nat.lt_irrefl 0)⟩

theorem Ended.guarded_iff (h : Ended b) :
    Guarded b ↔ ∀ ds, (∀ d ∈ ds, d.writes = false) → ∀ r ∈ b.calls ds, ScansInside r.1 := by
  refine ⟨fun hg ds hds r hr => ?_, h.guarded_of_scans⟩
  rw [calls_eq] at hr
  have hlast : Ended r.1 ∧ Guarded r.1 := by
    refine tryRun_invariant (fun b => Ended b ∧ Guarded b) ?_ ⟨h, hg⟩ hr
    rintro b₁ ⟨h₁, hg₁⟩ d hd ⟨b₂, out⟩ hcall
    have hm := call_moves h₁.toOk (hds d hd) hcall
    exact ⟨h₁.moves hm, hg₁.moves h₁ hm⟩
  exact hlast.2.scansInside hlast.1

-- ---------------------------------------------------------------------------
-- A buffer of size zero
-- ---------------------------------------------------------------------------

/-- There is only the extra cell, and no write. -/
structure Single (b : CircularBuffer UInt8) : Prop where
  fixedSize : b.fixedSize = 0
  head : b.head = 0
  tail : b.tail = 0

theorem Single.nothing (h : Single b) : b.wraps = false ∧ b.consumable = 0 := by
  have hw : b.wraps = false := by simp [wraps, empty, h.head, h.tail]
  rw [consumable, hw, h.head, h.tail]
  exact ⟨rfl, rfl⟩

theorem Single.scansInside (h : Single b) (hstop : IsStop (b.buffer 0)) : ScansInside b := by
  intro lineSize start hstart
  obtain ⟨hw, hcons⟩ := h.nothing
  have hzero : start = 0 := by
    rcases List.mem_cons.mp hstart with rfl | hsecond
    · exact h.tail
    · split at hsecond
      · rw [hw, hcons, Nat.min_zero, if_pos rfl, if_neg Bool.false_ne_true] at hsecond
        cases hsecond
      · cases hsecond
  exact ⟨0, Nat.zero_le _, hzero.le, hstop⟩

theorem Single.call (h : Single b) (hwrites : c.writes = false) (hc : b.call c = some (b', out)) :
    Single b' ∧ (b'.buffer 0 = b.buffer 0 ∨ b'.buffer 0 = 0) := by
  obtain ⟨hw, hcons⟩ := h.nothing
  have hmoved : ∀ pos, pos = 0 → Single (b.movedTo pos) ∧
      ((b.movedTo pos).buffer 0 = b.buffer 0 ∨ (b.movedTo pos).buffer 0 = 0) :=
    fun pos hpos => ⟨⟨h.fixedSize, h.head, hpos⟩, .inl rfl⟩
  cases c with
  | writeItem item => cases hwrites
  | write items => cases hwrites
  | consume =>
    cases hc
    have he : b.empty := empty_iff_head_eq.mpr (h.head.trans h.tail.symm)
    rw [consume, if_pos he]
    exact ⟨h, .inl rfl⟩
  | consumeBlock =>
    cases hc
    refine hmoved _ ?_
    rw [hw, if_neg Bool.false_ne_true, h.head]
  | consumeBlockInto blockSize =>
    cases hc
    refine hmoved _ ?_
    rw [hw, hcons, if_neg (Nat.not_lt_zero _), if_neg Bool.false_ne_true, h.head]
  | consumeLine lineSize =>
    rcases hi : b.strchr b.tail with _ | _ | i
    · simp [CircularBuffer.call, consumeLine, hi] at hc
    · have hfit : b.consumable ≤ lineSize.toNat := hcons ▸ Nat.zero_le _
      have hline := consumeLine_piece hi hfit
      rw [hw, if_neg Bool.false_ne_true] at hline
      cases hline.symm.trans hc
      exact hmoved _ h.head
    · cases (consumeLine_newline hi).symm.trans hc
      refine hmoved _ ?_
      rw [h.tail, h.fixedSize, hcons, Nat.min_zero, Nat.zero_min]
  | clear =>
    cases hc
    exact ⟨⟨h.fixedSize, rfl, rfl⟩, .inr (Function.update_self 0 0 b.buffer)⟩
  | clearIfEmpty =>
    cases hc
    unfold clearIfEmpty
    simp only
    split
    · exact ⟨⟨h.fixedSize, rfl, rfl⟩, .inl rfl⟩
    · exact ⟨⟨h.fixedSize, h.head, h.tail⟩, .inl rfl⟩

theorem Single.guarded_iff (h : Single b) :
    IsStop (b.buffer 0) ↔ ∀ ds, (∀ d ∈ ds, d.writes = false) →
    ∀ r ∈ b.calls ds, ScansInside r.1 := by
  constructor
  · intro hstop ds hds r hr
    rw [calls_eq] at hr
    have hlast : Single r.1 ∧ IsStop (r.1.buffer 0) := by
      refine tryRun_invariant (fun b => Single b ∧ IsStop (b.buffer 0)) ?_ ⟨h, hstop⟩ hr
      rintro b₁ ⟨h₁, hstop₁⟩ d hd ⟨b₂, out⟩ hcall
      obtain ⟨h₂, hsame | hzero⟩ := h₁.call (hds d hd) hcall
      · exact ⟨h₂, hsame ▸ hstop₁⟩
      · exact ⟨h₂, .inr hzero⟩
    exact hlast.1.scansInside hlast.2
  · intro hscans
    obtain ⟨i, hi, -, hstop⟩ := hscans [] (List.forall_mem_nil _) _ rfl 0 b.tail List.mem_cons_self
    have hzero : i = 0 := by
      have hsize : b.fixedSize = 0 := h.fixedSize
      simp only at hi
      omega
    exact hzero ▸ hstop

-- ---------------------------------------------------------------------------
-- All runs
-- ---------------------------------------------------------------------------

/-- In every state on the way, and in every state that calls without writes lead to
from there, all searches stay inside the array: just if the memory has something to
stop at and every string that is written leaves something. A buffer of size zero cannot
be written to, since positions are reduced modulo the size. -/
theorem scans_inside_iff (size : UInt16) (memory : Nat → UInt8) (cs : List Call)
    (hdiv : size.toNat = 0 → ∀ c ∈ cs, c.writes = false) :
    (∀ before, before <+: cs → ∀ ds, (∀ d ∈ ds, d.writes = false) →
      ∀ r ∈ (new size memory).calls (before ++ ds), ScansInside r.1) ↔
    (∃ i ≤ size.toNat, IsStop (memory i)) ∧ TryAlong call EndItemReady (new size memory) cs := by
  rcases Nat.eq_zero_or_pos size.toNat with hzero | hn
  · have hsingle : Single (new size memory) := ⟨hzero, rfl, rfl⟩
    have hstop : (∃ i ≤ size.toNat, IsStop (memory i)) ↔ IsStop (memory 0) := by simp [hzero]
    rw [hstop]
    have halong : TryAlong call EndItemReady (new size memory) cs := by
      refine tryAlong_of_forall (fun c hc b => ?_) _
      cases c with
      | write items => cases hdiv hzero _ hc
      | _ => trivial
    rw [and_iff_left halong]
    refine Iff.trans ?_ hsingle.guarded_iff.symm
    constructor
    · exact fun h ds hds r hr => h [] List.nil_prefix ds hds r hr
    · intro h before hbefore ds hds r hr
      refine h (before ++ ds) (fun d hd => ?_) r hr
      rcases List.mem_append.mp hd with hd | hd
      · exact hdiv hzero d (hbefore.subset hd)
      · exact hds d hd
  · have hnew := ended_new size memory hn
    rw [← guarded_new_iff, ← forall_prefix_iff_tryAlong Ended Guarded (fun b h c r hc => h.call hc)
      (fun b h hg c r hc => hg.call_iff h hc) hnew]
    refine forall₂_congr fun before _ => ?_
    have hmiddle (ds : List Call) : (∀ r ∈ (new size memory).calls (before ++ ds),
      ScansInside r.1) ↔
        ∀ middle ∈ tryRun call (new size memory) before, ∀ r ∈ middle.1.calls ds,
        ScansInside r.1 := by
      simp only [calls_eq]
      exact forall_tryRun_append ScansInside _
    simp only [hmiddle]
    constructor
    · intro h middle hm
      have hended := ended_calls size memory before hn ((calls_eq _ _).trans hm)
      exact hended.guarded_iff.mpr fun ds hds r hr => h ds hds middle hm r hr
    · intro h ds hds middle hm r hr
      have hended := ended_calls size memory before hn ((calls_eq _ _).trans hm)
      exact hended.guarded_iff.mp (h middle hm) ds hds r hr

/-- The text over the end has a newline in the last cell. -/
theorem scans_inside_over_the_end :
    let memory : Nat → UInt8 := fun i => if i = 0 then 0 else 0x78
    let cs : List Call := [.write [0x61, 0x62, 0x63], .consumeBlock, .write [0x0A, 0x64],
      .consumeLine 159]
    ∀ before, before <+: cs → ∀ ds, (∀ d ∈ ds, d.writes = false) →
      ∀ r ∈ (new 4 memory).calls (before ++ ds), ScansInside r.1 := by
  intro memory cs
  have hsize : UInt16.toNat 4 = 0 → ∀ c ∈ cs, c.writes = false :=
    fun hzero => absurd hzero (by decide)
  refine (scans_inside_iff 4 memory cs hsize).mpr ⟨⟨0, by decide, .inr rfl⟩, ?_⟩
  decide +kernel

/-- Three characters are held, the last of them at the start of the array. The search
from the tail finds neither a newline nor a zero. -/
theorem scan_leaves_array :
    ∃ b, (new 4 fun _ => 0x78).calls [.write [0x61, 0x62], .consumeBlock,
      .write [0x63, 0x64, 0x65]] =
        some (b, [[], [0x61, 0x62], []]) ∧
      b.held = [0x63, 0x64, 0x65] ∧ b.tail ∈ b.scans 159 ∧ ¬ b.Stops b.tail ∧ ¬ ScansInside b := by
  have hstops : ∀ b : CircularBuffer UInt8, b.strchr b.tail = none → ¬ b.Stops b.tail := by
    intro b hb hstop
    have hsome := strchr_isSome_iff.mpr hstop
    rw [hb] at hsome
    cases hsome
  refine ⟨_, rfl, ?_, List.mem_cons_self, hstops _ ?_, fun hin => ?_⟩
  · decide +kernel
  · decide +kernel
  · exact hstops _ (by decide +kernel) (hin 159 _ List.mem_cons_self)

end BitchatRepeater.CircularBuffer
