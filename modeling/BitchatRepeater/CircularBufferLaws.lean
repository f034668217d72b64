import BitchatRepeater.CircularBuffer
import BitchatRepeater.Lib.PartialRun

/-!
# What the log buffer holds

The held characters are a window on the ring of cells, from the tail to the head.
A write that finds the buffer full has to know it from `maxed`; `Ready` says when
it does. Then it appends and drops the oldest characters, which both overloads
have in common (`held_stored`).
-/

namespace BitchatRepeater.CircularBuffer

open Lib

variable {α : Type} {b b' : CircularBuffer α}

-- ---------------------------------------------------------------------------
-- The held window
-- ---------------------------------------------------------------------------

def size (b : CircularBuffer α) : Nat := (b.head + b.fixedSize - b.tail) % b.fixedSize

def held (b : CircularBuffer α) : List α := window b.buffer b.fixedSize b.tail b.size

/-- What all calls keep: the buffer is never `maxed` without being full. -/
structure Ok (b : CircularBuffer α) : Prop where
  head_lt : b.head < b.fixedSize
  tail_lt : b.tail < b.fixedSize
  maxed : b.maxed → b.head + 1 = b.tail

theorem Ok.size_lt (h : Ok b) : b.size < b.fixedSize :=
  Nat.mod_lt _ (Nat.zero_lt_of_lt h.head_lt)

theorem Ok.size_of_le (h : Ok b) (hle : b.tail ≤ b.head) : b.size = b.head - b.tail := by
  have hlt := h.head_lt
  rw [size, show b.head + b.fixedSize - b.tail = b.head - b.tail + b.fixedSize by omega,
    Nat.add_mod_right, Nat.mod_eq_of_lt (by omega)]

theorem Ok.size_of_lt (h : Ok b) (hlt : b.head < b.tail) :
    b.size = b.head + b.fixedSize - b.tail := by
  have := h.tail_lt
  rw [size, Nat.mod_eq_of_lt (by omega)]

theorem Ok.head_eq (h : Ok b) : b.head = (b.tail + b.size) % b.fixedSize := by
  have hh := h.head_lt
  rcases Nat.lt_or_ge b.head b.tail with hlt | hle
  · have ht := h.tail_lt
    rw [h.size_of_lt hlt, show b.tail + (b.head + b.fixedSize - b.tail) =
      b.head + b.fixedSize by omega,
      Nat.add_mod_right, Nat.mod_eq_of_lt hh]
  · rw [h.size_of_le hle, Nat.add_sub_cancel' hle, Nat.mod_eq_of_lt hh]

theorem Ok.head_add (h : Ok b) (x : Nat) :
    (b.head + x) % b.fixedSize = (b.tail + b.size + x) % b.fixedSize := by
  rw [h.head_eq, Nat.mod_add_mod]

theorem size_eq (hk : k < b.fixedSize) (ht : b.tail = start % b.fixedSize)
    (hh : b.head = (start + k) % b.fixedSize) : b.size = k := by
  have hn : 0 < b.fixedSize := Nat.zero_lt_of_lt hk
  have hs := Nat.mod_lt start hn
  rw [size, hh, ht, ← Nat.mod_add_mod]
  generalize start % b.fixedSize = a at hs
  rcases Nat.lt_or_ge (a + k) b.fixedSize with hlt | hge
  · rw [Nat.mod_eq_of_lt hlt, show a + k + b.fixedSize - a = k + b.fixedSize by omega,
      Nat.add_mod_right, Nat.mod_eq_of_lt hk]
  · rw [Nat.mod_eq_sub_mod hge, Nat.mod_eq_of_lt (a := a + k - b.fixedSize) (by omega),
      show a + k - b.fixedSize + b.fixedSize - a = k by omega, Nat.mod_eq_of_lt hk]

theorem held_eq (hk : k < b.fixedSize) (ht : b.tail = start % b.fixedSize)
    (hh : b.head = (start + k) % b.fixedSize) : b.held = window b.buffer b.fixedSize start k := by
  rw [held, size_eq hk ht hh, ht, window_mod]

theorem length_held (b : CircularBuffer α) : b.held.length = b.size := length_window

theorem Ok.empty_iff (h : Ok b) : b.empty ↔ b.held = [] := by
  rw [empty, decide_eq_true_iff, held, window_eq_nil]
  constructor
  · intro he
    rw [h.size_of_le (by omega), he, Nat.sub_self]
  · intro hz
    have hh := h.head_eq
    rwa [hz, Nat.add_zero, Nat.mod_eq_of_lt h.tail_lt] at hh

-- ---------------------------------------------------------------------------
-- Writing
-- ---------------------------------------------------------------------------

/-- A write that puts the items in front of the new head, with the tail such that
all of them or the last `fixedSize - 1` are held. -/
theorem held_stored (h : Ok b) (hsize : b'.fixedSize = b.fixedSize) (s : List α) (e : Nat) (x : α)
    (hbuf : b'.buffer = Function.update (store b.fixedSize b.buffer b.head s) e x)
    (hhead : b'.head = (b.head + s.length) % b.fixedSize) (he : e = b'.head ∨ b.fixedSize ≤ e)
    (htail : b.size + s.length + 1 ≤ b.fixedSize ∧ b'.tail = b.tail ∨
      b.fixedSize ≤ b.size + s.length + 1 ∧ b'.tail = (b.head + s.length + 1) % b.fixedSize) :
    b'.held = (b.held ++ s).rtake (b.fixedSize - 1) := by
  have hn := Nat.zero_lt_of_lt h.head_lt
  have hk := h.size_lt
  have hrtake : (b.held ++ s).rtake (min (b.fixedSize - 1) (b.size + s.length)) =
      (b.held ++ s).rtake (b.fixedSize - 1) := by
    rcases Nat.le_total (b.fixedSize - 1) (b.size + s.length) with hle | hle
    · rw [Nat.min_eq_left hle]
    · rw [Nat.min_eq_right hle, rtake_of_length_le, rtake_of_length_le]
      · rw [List.length_append, length_held]
        exact hle
      · rw [List.length_append, length_held]
  generalize hm : min (b.fixedSize - 1) (b.size + s.length) = m at hrtake
  have hstart : b'.tail = (b.tail + b.size + s.length - m) % b.fixedSize := by
    rcases htail with ⟨hle, ht⟩ | ⟨hle, ht⟩
    · rw [ht, show b.tail + b.size + s.length - m = b.tail by omega, Nat.mod_eq_of_lt h.tail_lt]
    · rw [ht, Nat.add_assoc, h.head_add, ← Nat.add_mod_right (b.tail + b.size + s.length - m)]
      congr 1
      omega
  have hend : b'.head = (b.tail + b.size + s.length - m + m) % b.fixedSize := by
    rw [hhead, h.head_add, Nat.sub_add_cancel (by omega)]
  have hlt : m < b.fixedSize := by omega
  rw [← hsize] at hstart hend hlt
  have hcells : store b.fixedSize b.buffer b.head s =
    store b.fixedSize b.buffer (b.tail + b.size) s :=
    store_congr (by rw [h.head_eq, Nat.mod_mod]) _ s
  rw [hend, ← hsize] at he
  rw [held_eq hlt hstart hend, hbuf, window_update_end hlt he, hsize, hcells, ← hrtake]
  exact window_store b.buffer b.tail b.size s hk.le (by omega) (by omega)

-- ---------------------------------------------------------------------------
-- Coming to the tail
-- ---------------------------------------------------------------------------

theorem Ok.size_of_maxed (h : Ok b) (hm : b.maxed) : b.size + 1 = b.fixedSize := by
  have he := h.maxed hm
  have ht := h.tail_lt
  rw [h.size_of_lt (by omega)]
  omega

/-- The loop notices that the buffer is full, unless the tail is at the start of
the array: then it notices that one character too many was written. -/
theorem Ok.reaches_iff (h : Ok b) (i : Nat) : b.reaches ((b.head + i) % b.fixedSize) ↔
    b.fixedSize ∣ b.size + i + if b.tail = 0 then 1 else 2 := by
  have hn := Nat.zero_lt_of_lt h.head_lt
  have ht := h.tail_lt
  simp only [reaches, Bool.or_eq_true, Bool.and_eq_true, decide_eq_true_eq]
  rw [Nat.mod_add_mod, Nat.add_assoc b.head, h.head_add, h.head_add]
  by_cases hz : b.tail = 0
  · rw [if_pos hz, ← add_mod_eq_self_iff (a := b.fixedSize - 1) (by omega),
      show b.fixedSize - 1 + (b.size + i + 1) = b.tail + b.size + i + b.fixedSize by omega,
      Nat.add_mod_right]
    omega
  · rw [if_neg hz, ← add_mod_eq_self_iff (a := b.tail - 1) (by omega),
      show b.tail - 1 + (b.size + i + 2) = b.tail + b.size + (i + 1) by omega]
    omega

def ItemReady (b : CircularBuffer α) : Prop := b.size + 1 = b.fixedSize → b.maxed

/-- A full buffer is known to be or has its tail at the start of the array, or the
text goes all the way round. The empty text, whose end item goes to the second
cell, finds nothing there. -/
def Ready (b : CircularBuffer α) (s : List α) : Prop :=
  (s = [] → ∀ i < b.size, (b.tail + i) % b.fixedSize ≠ 1) ∧
    (s ≠ [] → b.size + 1 = b.fixedSize → b.maxed ∨ b.tail = 0 ∨ b.fixedSize ≤ s.length)

theorem Ok.flagged_iff {flag : Bool} (h : Ok b) (hr : Ready b s) (hs : s ≠ [])
    (hm : flag ↔ b.maxed ∨ ∃ i < s.length, b.reaches ((b.head + i) % b.fixedSize)) :
    (flag → b.fixedSize ≤ b.size + s.length + 1) ∧
    (¬ flag → b.size + s.length + 1 ≤ b.fixedSize) := by
  have hsize := h.size_lt
  simp only [h.reaches_iff] at hm
  constructor
  · intro hmax
    rcases hm.mp hmax with hb | ⟨i, hi, hd⟩
    · have := h.size_of_maxed hb
      omega
    · have hle := Nat.le_of_dvd (by split <;> omega) hd
      split at hle <;> omega
  · intro hmax
    by_contra hgt
    refine hmax (hm.mpr ?_)
    by_cases hb : b.maxed
    · exact .inl hb
    · right
      -- where the loop comes to the tail
      by_cases ht : b.tail = 0
      · refine ⟨b.fixedSize - 1 - b.size, by omega, ?_⟩
        rw [if_pos ht, show b.size + (b.fixedSize - 1 - b.size) + 1 = b.fixedSize by omega]
      · rw [if_neg ht]
        by_cases hf : b.size + 1 = b.fixedSize
        · have hround := ((hr.2 hs hf).resolve_left hb).resolve_left ht
          refine ⟨b.fixedSize - 1, by omega, ?_⟩
          rw [show b.size + (b.fixedSize - 1) + 2 = 2 * b.fixedSize by omega]
          exact Nat.dvd_mul_left _ 2
        · refine ⟨b.fixedSize - 2 - b.size, by omega, ?_⟩
          rw [show b.size + (b.fixedSize - 2 - b.size) + 2 = b.fixedSize by omega]

-- ---------------------------------------------------------------------------
-- What a write leaves
-- ---------------------------------------------------------------------------

section Zero
variable [Zero α]

theorem writeLoop_eq [DecidableEq α] (done rest : List α) (hz : ∀ x ∈ rest, x ≠ 0)
    (hstr : ∀ i ≤ (done ++ rest).length, items.getD i 0 = (done ++ rest).getD i 0)
    (hlen : (done ++ rest).length < 2 ^ 16) (hf : rest.length < fuel) (pos : Nat) :
    ∃ maxed, writeLoop items fuel b pos done.length =
        some ({ b with buffer := store b.fixedSize b.buffer (b.head + done.length) rest,
                       maxed := maxed },
          if rest = [] then pos else (b.head + done.length + (rest.length - 1)) % b.fixedSize,
          (done ++ rest).length) ∧
      (maxed ↔ b.maxed ∨ ∃ i < rest.length,
        b.reaches ((b.head + done.length + i) % b.fixedSize)) := by
  induction rest generalizing b done pos fuel with
  | nil =>
    obtain ⟨fuel, rfl⟩ := Nat.exists_eq_succ_of_ne_zero (Nat.ne_zero_of_lt hf)
    refine ⟨b.maxed, ?_, by simp⟩
    have hget : items.getD done.length 0 = 0 := by
      rw [hstr _ (by simp)]
      simp
    rw [writeLoop, hget, if_pos rfl]
    simp [store]
  | cons x rest ih =>
    obtain ⟨fuel, rfl⟩ := Nat.exists_eq_succ_of_ne_zero (Nat.ne_zero_of_lt hf)
    obtain ⟨hx, hrest⟩ := List.forall_mem_cons.mp hz
    rw [List.length_append, List.length_cons] at hlen
    rw [List.length_cons] at hf
    have hcount : (done.length + 1) % 2 ^ 16 = (done ++ [x]).length := by
      rw [List.length_append, List.length_singleton, Nat.mod_eq_of_lt (by omega)]
    have hitems : done ++ x :: rest = done ++ [x] ++ rest := by simp
    let next : CircularBuffer α :=
      { b.setCell ((b.head + done.length) % b.fixedSize) x with
        maxed := b.maxed || b.reaches ((b.head + done.length) % b.fixedSize) }
    have hnext : (done ++ [x] ++ rest).length < 2 ^ 16 := by
      rw [← hitems, List.length_append, List.length_cons]
      exact hlen
    have hget : items.getD done.length 0 = x := by
      rw [hstr _ (by simp)]
      simp
    rw [hitems] at hstr
    obtain ⟨maxed, hloop, hm⟩ := ih (b := next) (done ++ [x]) hrest hstr hnext
      (Nat.lt_of_succ_lt_succ hf) ((b.head + done.length) % b.fixedSize)
    have hlength : (done ++ [x]).length = done.length + 1 := by simp
    have hpos : (if rest = [] then (b.head + done.length) % b.fixedSize
        else (b.head + (done.length + 1) + (rest.length - 1)) % b.fixedSize) =
        (b.head + done.length + rest.length) % b.fixedSize := by
      cases rest with
      | nil => simp
      | cons y rest =>
        rw [if_neg (List.cons_ne_nil y rest), List.length_cons]
        congr 1
        omega
    rw [hlength] at hloop hm
    refine ⟨maxed, ?_, hm.trans ?_⟩
    · rw [writeLoop, hget, if_neg hx, hcount, hlength, hitems]
      refine hloop.trans ?_
      simp only [next, setCell, hpos, if_neg (List.cons_ne_nil x rest), List.length_cons,
        Nat.add_sub_cancel, store]
      rfl
    · -- the character just written is the first of the rest
      simp only [next, Bool.or_eq_true, or_assoc]
      rw [List.length_cons, Nat.exists_lt_succ_left]
      refine or_congr_right (or_congr Iff.rfl (exists_congr fun i => and_congr_right fun _ => ?_))
      rw [show b.head + done.length + (i + 1) = b.head + (done.length + 1) + i by omega]
      rfl

theorem tail_writeItem (h : Ok b) (hr : ItemReady b) (item : α) :
    b.size + 1 + 1 ≤ b.fixedSize ∧ (b.writeItem item).tail = b.tail ∨
      b.fixedSize ≤ b.size + 1 + 1 ∧ (b.writeItem item).tail = (b.head + 1 + 1) % b.fixedSize := by
  have hsize := h.size_lt
  simp only [writeItem, setCell]
  by_cases hm : b.maxed
  · exact .inr ⟨(h.size_of_maxed hm).symm.le.trans (Nat.le_succ _), if_pos hm⟩
  · refine .inl ⟨?_, if_neg hm⟩
    have hne : b.size + 1 ≠ b.fixedSize := fun he => hm (hr he)
    omega

theorem held_writeItem (h : Ok b) (hr : ItemReady b) (item : α) :
    (b.writeItem item).held = (b.held ++ [item]).rtake (b.fixedSize - 1) := by
  refine held_stored h ?_ [item] (b.head + 1) 0 ?_ ?_ ?_ (tail_writeItem h hr item)
  · rfl
  · simp only [writeItem, setCell, store, Nat.mod_eq_of_lt h.head_lt]
  · rfl
  · have hlt := h.head_lt
    simp only [writeItem, setCell]
    rcases Nat.lt_or_ge (b.head + 1) b.fixedSize with hlt | hge
    · exact .inl (Nat.mod_eq_of_lt hlt).symm
    · exact .inr hge

def wrote (b : CircularBuffer α) (s : List α) (flag : Bool) : CircularBuffer α :=
  { b with
    buffer := Function.update (store b.fixedSize b.buffer b.head s)
      ((if s = [] then 0 else (b.head + (s.length - 1)) % b.fixedSize) + 1) 0
    head := (b.head + s.length) % b.fixedSize
    tail := if flag then (b.head + s.length + 1) % b.fixedSize else b.tail
    maxed := (b.head + s.length) % b.fixedSize + 1 =
      if flag then (b.head + s.length + 1) % b.fixedSize else b.tail
    willClearIfEmpty := false }

@[simp] theorem wrote_head : (b.wrote s flag).head = (b.head + s.length) % b.fixedSize := rfl

@[simp] theorem wrote_tail : (b.wrote s flag).tail =
    if flag then (b.head + s.length + 1) % b.fixedSize else b.tail := rfl

@[simp] theorem wrote_fixedSize : (b.wrote s flag).fixedSize = b.fixedSize := rfl

def LoopFlag (b : CircularBuffer α) (s : List α) (flag : Bool) : Prop :=
  flag ↔ b.maxed ∨ ∃ i < s.length, b.reaches ((b.head + i) % b.fixedSize)

theorem write_str [DecidableEq α] (b : CircularBuffer α) (items s : List α) (hz : ∀ x ∈ s, x ≠ 0)
    (hstr : ∀ i ≤ s.length, items.getD i 0 = s.getD i 0) (hle : s.length ≤ items.length)
    (hlen : s.length < 2 ^ 16) :
    ∃ flag, b.write items = some (b.wrote s flag) ∧ LoopFlag b s flag := by
  obtain ⟨flag, hloop, hm⟩ := writeLoop_eq (b := { b with willClearIfEmpty := false })
    [] s hz hstr hlen (Nat.lt_succ_of_le hle) 0
  refine ⟨flag, ?_, hm⟩
  rw [List.nil_append, List.length_nil] at hloop
  rw [write, hloop]
  rfl

theorem writeLoop_none [DecidableEq α] (hitems : ∀ i < 2 ^ 16, items.getD i 0 ≠ 0)
    (hc : count < 2 ^ 16) :
    writeLoop items fuel b pos count = none := by
  induction fuel generalizing b pos count with
  | zero => rfl
  | succ fuel ih =>
    rw [writeLoop, if_neg (hitems count hc)]
    exact ih (Nat.mod_lt _ (Nat.two_pow_pos 16))

def str [DecidableEq α] (items : List α) : List α := items.takeWhile (· ≠ 0)

theorem str_ne_zero [DecidableEq α] (items : List α) : ∀ x ∈ str items, x ≠ 0 :=
  fun x hx => by simpa using List.mem_takeWhile_imp hx

theorem getD_str [DecidableEq α] (items : List α) (hi : i ≤ (str items).length) :
    items.getD i 0 = (str items).getD i 0 := by
  unfold str at hi ⊢
  induction items generalizing i with
  | nil => rfl
  | cons x items ih =>
    by_cases hx : x = 0
    · rw [List.takeWhile_cons_of_neg (by simpa using hx)] at hi ⊢
      cases Nat.le_zero.mp hi
      exact hx
    · rw [List.takeWhile_cons_of_pos (by simpa using hx)] at hi ⊢
      cases i with
      | zero => rfl
      | succ i => exact ih (Nat.le_of_succ_le_succ hi)

theorem length_str_of_write [DecidableEq α] (hw : b.write items = some b') :
    (str items).length < 2 ^ 16 := by
  by_contra hlong
  have hforever : ∀ i < 2 ^ 16, items.getD i 0 ≠ 0 := by
    intro i hi
    have hlt : i < (str items).length := by omega
    rw [getD_str items hlt.le, List.getD_eq_getElem?_getD, List.getElem?_eq_getElem hlt]
    exact str_ne_zero items _ (List.getElem_mem _)
  rw [write, writeLoop_none hforever (Nat.two_pow_pos 16)] at hw
  cases hw

theorem write_eq [DecidableEq α] (hw : b.write items = some b') :
    ∃ flag, b' = b.wrote (str items) flag ∧ LoopFlag b (str items) flag := by
  obtain ⟨flag, he, hm⟩ := write_str b items (str items) (str_ne_zero items) (fun _ =>
    getD_str items)
    (List.takeWhile_prefix _).length_le (length_str_of_write hw)
  exact ⟨flag, Option.some.inj (hw.symm.trans he), hm⟩

theorem ite_lt {x y n : Nat} {c : Prop} [Decidable c] (hx : x < n) (hy : y < n) :
    (if c then x else y) < n := by
  split
  · exact hx
  · exact hy

theorem ok_write [DecidableEq α] (h : Ok b) (hw : b.write s = some b') :
    Ok b' ∧ b'.fixedSize = b.fixedSize ∧ (b'.maxed ↔ b'.head + 1 = b'.tail) := by
  have hn := Nat.zero_lt_of_lt h.head_lt
  obtain ⟨flag, rfl, -⟩ := write_eq hw
  refine ⟨⟨Nat.mod_lt _ hn, ?_, of_decide_eq_true⟩, rfl, decide_eq_true_iff⟩
  exact ite_lt (Nat.mod_lt _ hn) h.tail_lt

theorem ok_writeItem (h : Ok b) (item : α) : Ok (b.writeItem item) := by
  have hn := Nat.zero_lt_of_lt h.head_lt
  refine ⟨Nat.mod_lt _ hn, ?_, of_decide_eq_true⟩
  exact ite_lt (Nat.mod_lt _ hn) h.tail_lt

theorem tail_wrote_nil (h : Ok b) (hm : LoopFlag b [] flag) : (b.wrote [] flag).tail = b.tail := by
  cases flag with
  | false => rfl
  | true =>
    have hb : b.maxed := by simpa [LoopFlag] using hm
    simp [h.maxed hb, Nat.mod_eq_of_lt h.tail_lt]

theorem tail_wrote (h : Ok b) (hr : Ready b s) (hs : s ≠ []) (hm : LoopFlag b s flag) :
    b.size + s.length + 1 ≤ b.fixedSize ∧ (b.wrote s flag).tail = b.tail ∨
      b.fixedSize ≤ b.size + s.length + 1 ∧
        (b.wrote s flag).tail = (b.head + s.length + 1) % b.fixedSize := by
  obtain ⟨hflag, hplain⟩ := h.flagged_iff hr hs hm
  cases flag with
  | true => exact .inr ⟨hflag rfl, rfl⟩
  | false => exact .inl ⟨hplain Bool.false_ne_true, rfl⟩

/-- The empty text moves nothing, but its end item goes to the second cell. -/
theorem held_write_nil [DecidableEq α] (h : Ok b)
    (hr : ∀ i < b.size, (b.tail + i) % b.fixedSize ≠ 1) :
    ∃ b', b.write [] = some b' ∧ b'.held = b.held := by
  obtain ⟨flag, he, hm⟩ := write_str b [] [] (List.forall_mem_nil _) (fun _ _ =>
    rfl) le_rfl (Nat.two_pow_pos 16)
  refine ⟨_, he, ?_⟩
  have hcells : window (Function.update b.buffer 1 0) b.fixedSize b.tail b.size = b.held :=
    window_congr fun i hi => Function.update_of_ne (hr i hi) 0 b.buffer
  rw [← hcells]
  simp only [held, size, tail_wrote_nil h hm, wrote_head, wrote_fixedSize,
    List.length_nil, Nat.add_zero, Nat.mod_eq_of_lt h.head_lt]
  rfl

theorem held_write [DecidableEq α] (h : Ok b) (hz : ∀ x ∈ s, x ≠ 0) (hlen : s.length < 2 ^ 16)
    (hr : Ready b s) :
    ∃ b', b.write s = some b' ∧ b'.held = (b.held ++ s).rtake (b.fixedSize - 1) := by
  by_cases hs : s = []
  · subst hs
    have hsize := h.size_lt
    rw [List.append_nil, rtake_of_length_le (by rw [length_held]; omega)]
    exact held_write_nil h (hr.1 rfl)
  · obtain ⟨flag, he, hm⟩ := write_str b s s hz (fun _ _ => rfl) le_rfl hlen
    have hpos := List.length_pos_iff.mpr hs
    have hn := Nat.zero_lt_of_lt h.head_lt
    refine ⟨_, he, held_stored h wrote_fixedSize s _ 0 rfl rfl ?_ (tail_wrote h hr hs hm)⟩
    rw [if_neg hs, wrote_head]
    rcases Nat.lt_or_ge ((b.head + (s.length - 1)) % b.fixedSize + 1) b.fixedSize with hin | hout
    · left
      rw [← Nat.mod_eq_of_lt hin, Nat.mod_add_mod]
      congr 1
      omega
    · exact .inr hout

end Zero

-- ---------------------------------------------------------------------------
-- Consuming
-- ---------------------------------------------------------------------------

theorem copy_eq_window (h : start + len ≤ b.fixedSize) :
    b.copy start len = window b.buffer b.fixedSize start len := by
  refine List.map_congr_left fun i hi => ?_
  have := List.mem_range.mp hi
  rw [Nat.mod_eq_of_lt (by omega)]

def movedTo (b : CircularBuffer α) (tail : Nat) : CircularBuffer α :=
  { b with tail, maxed := false }

theorem Ok.movedTo (h : Ok b) (ht : pos < b.fixedSize) : Ok (b.movedTo pos) :=
  ⟨h.head_lt, ht, fun hm => absurd hm Bool.false_ne_true⟩

theorem Ok.consumable_le (h : Ok b) : b.consumable ≤ b.size ∧ b.tail + b.consumable ≤ b.fixedSize ∧
    (b.held ≠ [] → 0 < b.consumable) := by
  have hh := h.head_lt
  have ht := h.tail_lt
  have he : b.empty ↔ b.head = b.tail := decide_eq_true_iff
  rw [ne_eq, ← h.empty_iff]
  unfold consumable wraps
  rcases Nat.lt_trichotomy b.head b.tail with hlt | heq | hgt
  · have hw : (b.head ≤ b.tail && !b.empty) = true := by simp [empty, hlt.le, hlt.ne]
    rw [hw, h.size_of_lt hlt, if_pos rfl]
    omega
  · have hw : (b.head ≤ b.tail && !b.empty) = false := by simp [empty, heq]
    rw [hw, if_neg Bool.false_ne_true]
    exact ⟨by omega, by omega, fun hne => absurd (he.mpr heq) hne⟩
  · have hw : (b.head ≤ b.tail && !b.empty) = false := by simp [hgt]
    rw [hw, h.size_of_le hgt.le, if_neg Bool.false_ne_true]
    omega

theorem wraps_iff : b.wraps ↔ b.head < b.tail := by
  simp only [wraps, empty, Bool.and_eq_true, decide_eq_true_eq, Bool.not_eq_true',
    decide_eq_false_iff_not]
  omega

theorem Ok.tail_consumable (h : Ok b) :
    (b.tail + b.consumable) % b.fixedSize = if b.wraps then 0 else b.head := by
  have hh := h.head_lt
  have ht := h.tail_lt
  unfold consumable
  split
  · rw [Nat.add_sub_cancel' ht.le, Nat.mod_self]
  next hw =>
    have hle : b.tail ≤ b.head := Nat.le_of_not_lt fun hlt => hw (wraps_iff.mpr hlt)
    rw [Nat.add_sub_cancel' hle, Nat.mod_eq_of_lt hh]

theorem Ok.between (h : Ok b) (hle : b.tail ≤ b.head) (hj : j ≤ b.consumable) :
    b.tail ≤ (b.tail + j) % b.fixedSize ∧ (b.tail + j) % b.fixedSize ≤ b.head := by
  have hh := h.head_lt
  rw [consumable, if_neg fun hw => absurd (wraps_iff.mp hw) hle.not_gt] at hj
  rw [Nat.mod_eq_of_lt (by omega)]
  omega

theorem Ok.consumeBlock_eq (h : Ok b) : b.consumeBlock =
    (b.movedTo ((b.tail + b.consumable) % b.fixedSize), b.copy b.tail b.consumable) := by
  rw [h.tail_consumable]
  rfl

theorem Ok.consumeBlockInto_eq (h : Ok b) (blockSize : UInt16) : b.consumeBlockInto blockSize =
    (b.movedTo ((b.tail + min blockSize.toNat b.consumable) % b.fixedSize),
      b.copy b.tail (min blockSize.toNat b.consumable)) := by
  unfold consumeBlockInto
  simp only
  split
  · rfl
  · rw [Nat.min_eq_right (by omega), h.tail_consumable]
    rfl

theorem Ok.held_movedTo (h : Ok b) (hj : j ≤ b.consumable) (ht : pos = (b.tail + j) % b.fixedSize) :
    b.held = b.copy b.tail j ++ (b.movedTo pos).held := by
  obtain ⟨hsize, hend, -⟩ := h.consumable_le
  have hlt := h.size_lt
  have hhead : b.head = (b.tail + j + (b.size - j)) % b.fixedSize := by
    rw [Nat.add_assoc, Nat.add_sub_cancel' (by omega)]
    exact h.head_eq
  have hrest : (b.movedTo pos).held = window b.buffer b.fixedSize (b.tail + j) (b.size - j) :=
    held_eq (b := b.movedTo pos) (show b.size - j < b.fixedSize by omega) ht hhead
  rw [hrest, copy_eq_window (by omega), ← window_add, Nat.add_sub_cancel' (by omega), held]

theorem Ok.consumed (h : Ok b) (hj : j ≤ b.consumable) (hpos : b.held ≠ [] → 0 < j)
    (ht : pos = (b.tail + j) % b.fixedSize) :
    QueueStep (b.fixedSize - 1) b.held .take (b.copy b.tail j) (b.movedTo pos).held := by
  have hsplit := h.held_movedTo hj ht
  rw [hsplit]
  refine .take _ _ fun hne hnil => ?_
  have hlen : (b.copy b.tail j).length = j := by simp [copy]
  rw [hnil, List.length_nil] at hlen
  exact absurd (hpos (hsplit ▸ hne)) (by omega)

-- ---------------------------------------------------------------------------
-- A queue that drops its oldest characters
-- ---------------------------------------------------------------------------

def Call.queueCall : Call → QueueCall UInt8
  | .writeItem item => .put [item]
  | .write items => .put items
  | .consume | .consumeBlock | .consumeBlockInto _ | .consumeLine _ => .take
  | .clear => .clear
  | .clearIfEmpty => .look

def Call.plain : Call → Prop
  | .writeItem _ | .consumeLine _ => False
  | .write items => items ≠ [] ∧ (∀ x ∈ items, x ≠ 0) ∧ items.length < 2 ^ 16
  | .consumeBlockInto blockSize => 1 ≤ blockSize
  | .consume | .consumeBlock | .clear | .clearIfEmpty => True

instance decidablePlain : DecidablePred Call.plain
  | .writeItem _ | .consumeLine _ => isFalse id
  | .write items =>
    inferInstanceAs (Decidable (items ≠ [] ∧ (∀ x ∈ items, x ≠ 0) ∧ items.length < 2 ^ 16))
  | .consumeBlockInto blockSize => inferInstanceAs (Decidable (1 ≤ blockSize))
  | .consume | .consumeBlock | .clear | .clearIfEmpty => isTrue trivial

/-- `maxed` tells a full buffer, unless its tail is at the start of the array. -/
structure Flagged (b : CircularBuffer α) : Prop extends Ok b where
  flagged : b.head + 1 = b.tail → b.maxed

theorem Flagged.ready (h : Flagged b) (hs : s ≠ []) : Ready b s := by
  refine ⟨fun he => absurd he hs, fun _ hfull => ?_⟩
  by_cases ht : b.tail = 0
  · exact .inr (.inl ht)
  · refine .inl (h.flagged ?_)
    have hlt := h.tail_lt
    rcases Nat.lt_or_ge b.head b.tail with hgt | hle
    · have hsize := h.size_of_lt hgt
      omega
    · have hsize := h.size_of_le hle
      have hh := h.head_lt
      omega

theorem Flagged.write [Zero α] [DecidableEq α] (h : Flagged b) (hw : b.write s = some b') :
    Flagged b' ∧ b'.fixedSize = b.fixedSize := by
  obtain ⟨hok, hfixed, hmaxed⟩ := ok_write h.toOk hw
  exact ⟨⟨hok, hmaxed.mpr⟩, hfixed⟩

theorem Flagged.movedTo (h : Flagged b) (hj : j ≤ b.consumable) (hpos : b.held ≠ [] → 0 < j)
    (ht : pos = (b.tail + j) % b.fixedSize) : Flagged (b.movedTo pos) := by
  have hn := Nat.zero_lt_of_lt h.head_lt
  have hok := h.toOk.movedTo (ht ▸ Nat.mod_lt _ hn)
  refine ⟨hok, fun hfull => ?_⟩
  have hsplit := congrArg List.length (h.toOk.held_movedTo hj ht)
  have hsize : (b.movedTo pos).size + 1 = b.fixedSize := by
    have htail : pos < b.fixedSize := hok.tail_lt
    rw [hok.size_of_lt (by omega)]
    simp only [CircularBuffer.movedTo] at hfull ⊢
    omega
  rw [List.length_append, length_held, length_held, copy, List.length_map,
    List.length_range] at hsplit
  have hlt := h.size_lt
  have hnil : b.held = [] := by
    by_contra hne
    have := hpos hne
    omega
  have hzero := length_held b
  have htail : pos < b.fixedSize := hok.tail_lt
  rw [hnil, List.length_nil] at hzero
  simp only [CircularBuffer.movedTo] at hfull
  omega

theorem Flagged.step (h : Flagged b) (hj : j ≤ b.consumable) (hpos : b.held ≠ [] → 0 < j)
    (ht : pos = (b.tail + j) % b.fixedSize) :
    Flagged (b.movedTo pos) ∧ (b.movedTo pos).fixedSize = b.fixedSize ∧
      QueueStep (b.fixedSize - 1) b.held .take (b.copy b.tail j) (b.movedTo pos).held :=
  ⟨h.movedTo hj hpos ht, rfl, h.toOk.consumed hj hpos ht⟩

theorem flagged_reset (hn : 0 < b.fixedSize) (hh : b.head = 0) (ht : b.tail = 0)
    (hm : b.maxed = false) :
    Flagged b := by
  refine ⟨⟨hh ▸ hn, ht ▸ hn, fun h => absurd (hm.symm.trans h) Bool.false_ne_true⟩, fun h => ?_⟩
  rw [ht] at h
  exact absurd h (Nat.succ_ne_zero _)

theorem held_reset (hh : b.head = 0) (ht : b.tail = 0) : b.held = [] := by
  simp [held, size, hh, ht]

theorem Flagged.call {b : CircularBuffer UInt8} (h : Flagged b) (hc : c.plain) :
    ∃ b' out, b.call c = some (b', out) ∧ Flagged b' ∧ b'.fixedSize = b.fixedSize ∧
      QueueStep (b.fixedSize - 1) b.held c.queueCall out b'.held := by
  obtain ⟨hsize, hend, hne⟩ := h.toOk.consumable_le
  have hn := Nat.zero_lt_of_lt h.head_lt
  cases c with
  | writeItem item => cases hc
  | consumeLine lineSize => cases hc
  | write items =>
    obtain ⟨hs, hz, hlen⟩ := hc
    obtain ⟨b', hw, hheld⟩ := held_write h.toOk hz hlen (h.ready hs)
    obtain ⟨hf, hfixed⟩ := h.write hw
    refine ⟨b', [], by rw [CircularBuffer.call, hw]; rfl, hf, hfixed, ?_⟩
    rw [hheld]
    exact .put _ _
  | consume =>
    by_cases he : b.empty
    · have hnil := h.toOk.empty_iff.mp he
      refine ⟨b, [], by simp [CircularBuffer.call, consume, he], h, rfl, ?_⟩
      rw [hnil]
      exact .take [] [] id
    · have hpos := hne fun hnil => he (h.toOk.empty_iff.mpr hnil)
      refine ⟨b.movedTo ((b.tail + 1) % b.fixedSize), b.copy b.tail 1, ?_,
        h.step hpos (fun _ => Nat.one_pos) rfl⟩
      simp [CircularBuffer.call, consume, he, copy, CircularBuffer.movedTo]
  | consumeBlock =>
    exact ⟨_, _, congrArg some h.toOk.consumeBlock_eq, h.step le_rfl hne rfl⟩
  | consumeBlockInto blockSize =>
    have hblock : 0 < blockSize.toNat := hc
    refine ⟨_, _, congrArg some (h.toOk.consumeBlockInto_eq blockSize),
      h.step (Nat.min_le_right _ _) (fun hq => ?_) rfl⟩
    have := hne hq
    omega
  | clear =>
    have hnil : b.clear.held = [] := held_reset rfl rfl
    refine ⟨b.clear, [], rfl, flagged_reset hn rfl rfl rfl, rfl, ?_⟩
    rw [hnil]
    exact .clear _
  | clearIfEmpty =>
    by_cases he : b.empty
    · have hreset : b.clearIfEmpty =
          { b with head := 0, tail := 0, maxed := false, willClearIfEmpty := true } :=
        if_pos (Bool.and_eq_true_iff.mpr ⟨he, rfl⟩)
      refine ⟨b.clearIfEmpty, [], rfl, ?_⟩
      rw [hreset, h.toOk.empty_iff.mp he]
      refine ⟨flagged_reset hn rfl rfl rfl, rfl, ?_⟩
      rw [held_reset rfl rfl]
      exact .look []
    · have hkeep : b.clearIfEmpty = { b with willClearIfEmpty := true } :=
        if_neg fun hb => he (Bool.and_eq_true_iff.mp hb).1
      refine ⟨b.clearIfEmpty, [], rfl, ?_⟩
      rw [hkeep]
      exact ⟨⟨⟨h.head_lt, h.tail_lt, h.maxed⟩, h.flagged⟩, rfl, .look _⟩

theorem refines_from {b : CircularBuffer UInt8} (h : Flagged b) (cs : List Call)
    (hc : ∀ c ∈ cs, c.plain) :
    ∃ b' outs, b.calls cs = some (b', outs) ∧
      QueueRun (b.fixedSize - 1) b.held (cs.map Call.queueCall) outs b'.held := by
  induction cs generalizing b with
  | nil => exact ⟨b, [], rfl, .nil _⟩
  | cons c cs ih =>
    obtain ⟨hhead, hrest⟩ := List.forall_mem_cons.mp hc
    obtain ⟨b₁, out, hcall, h₁, hsize, hstep⟩ := h.call hhead
    obtain ⟨b₂, outs, hcalls, hrun⟩ := ih h₁ hrest
    refine ⟨b₂, out :: outs, by simp [calls, hcall, hcalls], .cons hstep ?_⟩
    rw [← hsize]
    exact hrun

/-- A buffer of size `n` is a queue of at most `n - 1` characters that drops its
oldest ones. -/
theorem refines_queue (size : UInt16) (memory : Nat → UInt8) (cs : List Call) (hn : 2 ≤ size.toNat)
    (hc : ∀ c ∈ cs, c.plain) :
    ∃ b outs, (new size memory).calls cs = some (b, outs) ∧
      QueueRun (size.toNat - 1) [] (cs.map Call.queueCall) outs b.held := by
  have hnew : Flagged (new size memory) := flagged_reset (Nat.zero_lt_of_lt hn) rfl rfl rfl
  have hnil : (new size memory).held = [] := held_reset rfl rfl
  have hrun := refines_from hnew cs hc
  rwa [hnil] at hrun

theorem queue_of_three :
    let cs : List Call := [.write [0x61, 0x62], .write [0x63, 0x64], .consume, .consumeBlock]
    ∃ b, (new 4 fun _ => 0).calls cs = some (b, [[], [], [0x62], [0x63, 0x64]]) ∧
      QueueRun 3 [] (cs.map Call.queueCall) [[], [], [0x62], [0x63, 0x64]] b.held := by
  intro cs
  obtain ⟨b, outs, hcalls, hrun⟩ := refines_queue 4 (fun _ => 0) cs (by decide) (by decide +kernel)
  have houts : ((new 4 fun _ => 0).calls cs).map Prod.snd =
      some [[], [], [0x62], [0x63, 0x64]] := by
    decide +kernel
  rw [hcalls] at houts
  cases houts
  exact ⟨b, hcalls, hrun⟩

-- ---------------------------------------------------------------------------
-- All calls
-- ---------------------------------------------------------------------------

section Char
variable {b b' : CircularBuffer UInt8}

theorem consumeLine_newline (hi : b.strchr b.tail = some (some i)) :
    b.consumeLine lineSize =
      let len := min (min lineSize.toNat b.consumable) ((i - b.tail + 1) % 2 ^ 16)
      some (b.movedTo ((b.tail + len) % b.fixedSize), b.copy b.tail len) := by
  simp [consumeLine, hi, finishLine, movedTo]

/-- The string ends before a newline and the whole piece fits: the line goes on
behind the start of the array, if there is a newline to be found from there. -/
theorem consumeLine_piece (hi : b.strchr b.tail = some none)
    (hfit : b.consumable ≤ lineSize.toNat) :
    b.consumeLine lineSize =
      if b.wraps then (b.strchr 0).map fun lineEnd =>
        let extra := match lineEnd with
          | some i => min (lineSize.toNat - b.consumable) ((i + 1) % 2 ^ 16)
          | none => 0
        (b.movedTo (extra % b.fixedSize), b.copy b.tail b.consumable ++ b.copy 0 extra)
      else some (b.movedTo b.head, b.copy b.tail b.consumable) := by
  have hall : min lineSize.toNat b.consumable = b.consumable := Nat.min_eq_right hfit
  rw [consumeLine, hi, hall]
  simp only [Option.bind_eq_bind, Option.bind_some, if_true]
  split
  · rcases b.strchr 0 with _ | _ | i
    · rfl
    · simp [movedTo, copy]
    · rfl
  · rfl

theorem consumeLine_part (hi : b.strchr b.tail = some none)
    (hlong : lineSize.toNat < b.consumable) :
    b.consumeLine lineSize = (b.strchr (b.tail + lineSize.toNat)).map fun _ =>
      (b.movedTo (if lineSize.toNat ≤ b.head then (b.tail + lineSize.toNat) % b.fixedSize
        else if b.head ≤ b.tail + lineSize.toNat && !b.empty then lineSize.toNat else b.head),
        b.copy b.tail lineSize.toNat) := by
  have hall : min lineSize.toNat b.consumable = lineSize.toNat := Nat.min_eq_left hlong.le
  rw [consumeLine, hi, hall]
  simp only [Option.bind_eq_bind, Option.bind_some, if_neg hlong.ne']
  rcases b.strchr (b.tail + lineSize.toNat) with _ | _ | i
  · rfl
  · simp [finishLine, movedTo, copy]
  · simp [finishLine, movedTo, copy]

theorem consumeLine_moves (h : Ok b) (hc : b.consumeLine lineSize = some (b', line)) :
    ∃ pos < b.fixedSize, (b.tail ≤ b.head → b.tail ≤ pos ∧ pos ≤ b.head) ∧ b' = b.movedTo pos := by
  have hn := Nat.zero_lt_of_lt h.head_lt
  obtain ⟨-, hend, -⟩ := h.consumable_le
  rcases hi : b.strchr b.tail with _ | _ | i
  · simp [consumeLine, hi] at hc
  · rcases Nat.lt_or_ge lineSize.toNat b.consumable with hlong | hfit
    · rw [consumeLine_part hi hlong] at hc
      obtain ⟨-, -, he⟩ := Option.map_eq_some_iff.mp hc
      cases he
      refine ⟨_, ite_lt (Nat.mod_lt _ hn) (ite_lt (by omega) h.head_lt), fun hle => ?_, rfl⟩
      have hcons : b.consumable = b.head - b.tail := by
        rw [consumable, if_neg fun hw => absurd (wraps_iff.mp hw) hle.not_gt]
      rw [if_pos (by omega)]
      exact h.between hle hlong.le
    · rw [consumeLine_piece hi hfit] at hc
      by_cases hw : b.wraps
      · rw [if_pos hw] at hc
        obtain ⟨lineEnd, -, he⟩ := Option.map_eq_some_iff.mp hc
        cases he
        exact ⟨_, Nat.mod_lt _ hn, fun hle => absurd (wraps_iff.mp hw) hle.not_gt, rfl⟩
      · rw [if_neg hw] at hc
        cases hc
        exact ⟨_, h.head_lt, fun hle => ⟨hle, le_rfl⟩, rfl⟩
  · rw [consumeLine_newline hi] at hc
    cases hc
    exact ⟨_, Nat.mod_lt _ hn, fun hle => h.between hle (by omega), rfl⟩

theorem empty_iff_head_eq : b.empty ↔ b.head = b.tail := decide_eq_true_iff

def Call.writes : Call → Bool
  | .writeItem _ | .write _ => true
  | .consume | .consumeBlock | .consumeBlockInto _ | .consumeLine _ | .clear
  | .clearIfEmpty => false

inductive Moves (b : CircularBuffer UInt8) : CircularBuffer UInt8 → Prop
  | tail (hpos : pos < b.fixedSize) (hbetween : b.tail ≤ b.head → b.tail ≤ pos ∧ pos ≤ b.head) :
    Moves b (b.movedTo pos)
  | reset {next : CircularBuffer UInt8} (hfixed : next.fixedSize = b.fixedSize)
      (hhead : next.head = 0)
    (htail : next.tail = 0) (hmaxed : next.maxed = false)
    (hcells : next.buffer 0 = 0 ∨ b.empty ∧ next.buffer = b.buffer) : Moves b next
  | request : Moves b { b with willClearIfEmpty := true }

theorem call_moves (h : Ok b) (hw : c.writes = false) (hc : b.call c = some (b', out)) :
    Moves b b' := by
  have hn := Nat.zero_lt_of_lt h.head_lt
  obtain ⟨-, -, hpos⟩ := h.consumable_le
  cases c with
  | writeItem item => cases hw
  | write items => cases hw
  | consume =>
    cases hc
    unfold consume
    split
    next he =>
      have heq := empty_iff_head_eq.mp he
      have hmaxed : b.maxed = false := by
        by_contra hm
        have hnext := h.maxed (Bool.eq_true_of_not_eq_false hm)
        omega
      have hstay : b = b.movedTo b.head := by
        rw [movedTo, ← hmaxed]
        exact congrArg (fun pos => { b with tail := pos }) heq.symm
      have hmoved : Moves b (b.movedTo b.head) := .tail h.head_lt fun hle => ⟨hle, le_rfl⟩
      rw [← hstay] at hmoved
      exact hmoved
    next he =>
      have hone : 1 ≤ b.consumable := hpos fun hnil => he (h.empty_iff.mpr hnil)
      exact .tail (Nat.mod_lt _ hn) fun hle => h.between hle hone
  | consumeBlock =>
    cases (congrArg some h.consumeBlock_eq).symm.trans hc
    exact .tail (Nat.mod_lt _ hn) fun hle => h.between hle le_rfl
  | consumeBlockInto blockSize =>
    cases (congrArg some (h.consumeBlockInto_eq blockSize)).symm.trans hc
    exact .tail (Nat.mod_lt _ hn) fun hle => h.between hle (Nat.min_le_right _ _)
  | consumeLine lineSize =>
    obtain ⟨pos, hpos, hbetween, rfl⟩ := consumeLine_moves h hc
    exact .tail hpos hbetween
  | clear =>
    cases hc
    exact .reset rfl rfl rfl rfl (.inl (Function.update_self 0 0 b.buffer))
  | clearIfEmpty =>
    cases hc
    unfold clearIfEmpty
    simp only
    split
    next he => exact .reset rfl rfl rfl rfl (.inr ⟨(Bool.and_eq_true_iff.mp he).1, rfl⟩)
    · exact .request

theorem call_cases (h : Ok b) (hc : b.call c = some (b', out)) :
    (∃ item, c = .writeItem item ∧ b' = b.writeItem item) ∨
      (∃ items, c = .write items ∧ b.write items = some b') ∨ c.writes = false ∧ Moves b b' := by
  cases hw : c.writes with
  | false => exact .inr (.inr ⟨rfl, call_moves h hw hc⟩)
  | true =>
    cases c with
    | writeItem item =>
      cases hc
      exact .inl ⟨item, rfl, rfl⟩
    | write items =>
      obtain ⟨b₁, hwrite, he⟩ := Option.map_eq_some_iff.mp hc
      cases he
      exact .inr (.inl ⟨items, rfl, hwrite⟩)
    | _ => cases hw

theorem Moves.ok (hm : Moves b b') (h : Ok b) : Ok b' ∧ b'.fixedSize = b.fixedSize := by
  cases hm with
  | tail hpos hbetween => exact ⟨h.movedTo hpos, rfl⟩
  | reset hfixed hhead htail hmaxed hcells =>
    have hn := Nat.zero_lt_of_lt h.head_lt
    refine ⟨⟨?_, ?_, fun hm => absurd (hmaxed.symm.trans hm) Bool.false_ne_true⟩, hfixed⟩
    · rw [hhead, hfixed]
      exact hn
    · rw [htail, hfixed]
      exact hn
  | request => exact ⟨⟨h.head_lt, h.tail_lt, h.maxed⟩, rfl⟩

theorem ok_call (h : Ok b) (hc : b.call c = some (b', out)) :
    Ok b' ∧ b'.fixedSize = b.fixedSize := by
  obtain ⟨item, rfl, rfl⟩ | ⟨items, rfl, hw⟩ | ⟨-, hm⟩ := call_cases h hc
  · exact ⟨ok_writeItem h item, rfl⟩
  · obtain ⟨hok, hfixed, -⟩ := ok_write h hw
    exact ⟨hok, hfixed⟩
  · exact hm.ok h

theorem calls_eq (b : CircularBuffer UInt8) (cs : List Call) : b.calls cs = tryRun call b cs := by
  induction cs generalizing b with
  | nil => rfl
  | cons c cs ih => simp only [calls, tryRun, ih]

theorem calls_invariant (inv : CircularBuffer UInt8 → Prop)
    (hstep : ∀ b c b' out, inv b → b.call c = some (b', out) → inv b') (h : inv b)
    (hc : b.calls cs = some (b', outs)) : inv b' := by
  rw [calls_eq] at hc
  exact tryRun_invariant inv (fun b hb c _ next hnext => hstep b c next.1 next.2 hb hnext) h hc

theorem ok_calls (size : UInt16) (memory : Nat → UInt8) (hn : 0 < size.toNat)
    (hc : (new size memory).calls cs = some (b, outs)) : Ok b ∧ b.fixedSize = size.toNat := by
  refine calls_invariant (fun b => Ok b ∧ b.fixedSize = size.toNat) ?_ ?_ hc
  · rintro b c b' out ⟨hok, hfixed⟩ hcall
    obtain ⟨hok', hsame⟩ := ok_call hok hcall
    exact ⟨hok', hsame.trans hfixed⟩
  · exact ⟨⟨hn, hn, fun hm => absurd hm Bool.false_ne_true⟩, rfl⟩

end Char

end BitchatRepeater.CircularBuffer
