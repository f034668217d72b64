import Mathlib.Data.List.DropRight
import Mathlib.Data.List.Basic

/-!
# Windows on a ring of cells

A ring of `n` cells is a function from positions, of which only those below `n`
matter. A window is a run of consecutive cells that may pass from the last cell
to the first. Storing items one after the other at the end of a window leaves the
last items in front of the end, however often it goes round. The abstract
counterpart is a queue of bounded length that drops its oldest items.
-/

namespace Lib

variable {α : Type}

-- ---------------------------------------------------------------------------
-- The last items of a list
-- ---------------------------------------------------------------------------

theorem length_rtake (l : List α) (m : Nat) : (l.rtake m).length = min m l.length := by
  simp only [List.rtake, List.length_drop]
  omega

theorem rtake_of_length_le {l : List α} (h : l.length ≤ m) : l.rtake m = l := by
  rw [List.rtake, Nat.sub_eq_zero_of_le h, List.drop_zero]

theorem rtake_append_of_le {l r : List α} (h : m ≤ r.length) : (l ++ r).rtake m = r.rtake m := by
  have hlen : (l ++ r).length - m = l.length + (r.length - m) := by
    rw [List.length_append]
    omega
  rw [List.rtake, List.rtake, hlen, List.drop_append, List.drop_of_length_le (by omega)]
  simp

theorem rtake_rtake_append (l r : List α) (m : Nat) :
    (l.rtake m ++ r).rtake m = (l ++ r).rtake m := by
  by_cases hm : m ≤ l.length
  · have hl : l.take (l.length - m) ++ l.rtake m = l := List.take_append_drop _ _
    have hlen : m ≤ (l.rtake m ++ r).length := by
      rw [List.length_append, length_rtake]
      omega
    rw [← rtake_append_of_le (l := l.take (l.length - m)) hlen, ← List.append_assoc, hl]
  · have hl : l.rtake m = l := rtake_of_length_le (by omega)
    rw [hl]

theorem rtake_ne_nil {l : List α} (hm : 0 < m) (hl : l ≠ []) : l.rtake m ≠ [] := by
  have hpos := List.length_pos_iff.mpr hl
  refine List.length_pos_iff.mp ?_
  rw [length_rtake]
  omega

-- ---------------------------------------------------------------------------
-- Windows
-- ---------------------------------------------------------------------------

section Window
variable {cells cells' : Nat → α} {n : Nat}

def window (cells : Nat → α) (n start len : Nat) : List α :=
  (List.range len).map fun i => cells ((start + i) % n)

@[simp] theorem length_window : (window cells n start len).length = len := by
  simp [window]

@[simp] theorem window_zero : window cells n start 0 = [] := rfl

theorem window_add (a b : Nat) :
    window cells n start (a + b) = window cells n start a ++ window cells n (start + a) b := by
  simp only [window, List.range_add, List.map_append, List.map_map]
  congr 1
  refine List.map_congr_left fun i _ => ?_
  simp [Nat.add_assoc]

theorem window_succ (k : Nat) :
    window cells n start (k + 1) = cells (start % n) :: window cells n (start + 1) k := by
  rw [Nat.add_comm k 1, window_add]
  rfl

theorem window_mod (cells : Nat → α) (n start len : Nat) :
    window cells n (start % n) len = window cells n start len := by
  simp [window]

theorem window_congr (h : ∀ i < len, cells ((start + i) % n) = cells' ((start + i) % n)) :
    window cells n start len = window cells' n start len :=
  List.map_congr_left fun i hi => h i (List.mem_range.mp hi)

theorem window_eq_nil : window cells n start len = [] ↔ len = 0 := by
  rw [← List.length_eq_zero_iff, length_window]

theorem mod_add_ne {i k : Nat} (hi : i < k) (hk : k < n) (start : Nat) :
    (start + i) % n ≠ (start + k) % n := by
  intro he
  have hd : n ∣ start + k - (start + i) :=
    Nat.dvd_of_mod_eq_zero (Nat.sub_mod_eq_zero_of_mod_eq he.symm)
  rw [Nat.add_sub_add_left] at hd
  exact absurd (Nat.le_of_dvd (by omega) hd) (by omega)

theorem add_mod_eq_self_iff {a x : Nat} (ha : a < n) : (a + x) % n = a ↔ n ∣ x := by
  constructor
  · intro h
    have hd := Nat.sub_mod_eq_zero_of_mod_eq (h.trans (Nat.mod_eq_of_lt ha).symm)
    rw [Nat.add_sub_cancel_left] at hd
    exact Nat.dvd_of_mod_eq_zero hd
  · rintro ⟨c, rfl⟩
    rw [Nat.add_mul_mod_self_left, Nat.mod_eq_of_lt ha]

theorem window_update (hk : k < n) (x : α) :
    window (Function.update cells ((start + k) % n) x) n start k = window cells n start k :=
  window_congr fun _ hi => Function.update_of_ne (mod_add_ne hi hk start) x cells

theorem window_update_end (hk : k < n) (he : e = (start + k) % n ∨ n ≤ e) (x : α) :
    window (Function.update cells e x) n start k = window cells n start k := by
  rcases he with rfl | he
  · exact window_update hk x
  · refine window_congr fun i _ => Function.update_of_ne ?_ x cells
    have := Nat.mod_lt (start + i) (Nat.zero_lt_of_lt hk)
    omega

theorem window_push (hk : k < n) (x : α) :
    window (Function.update cells ((start + k) % n) x) n start (k + 1) =
      window cells n start k ++ [x] := by
  rw [window_add, window_update hk]
  simp [window]

-- ---------------------------------------------------------------------------
-- Storing
-- ---------------------------------------------------------------------------

def store (n : Nat) : (Nat → α) → Nat → List α → Nat → α
  | cells, _, [] => cells
  | cells, pos, x :: xs => store n (Function.update cells (pos % n) x) (pos + 1) xs

theorem store_congr (h : pos % n = pos' % n) (cells : Nat → α) (xs : List α) :
    store n cells pos xs = store n cells pos' xs := by
  induction xs generalizing cells pos pos' with
  | nil => rfl
  | cons x xs ih =>
    rw [store, store, h]
    apply ih
    rw [Nat.add_mod, h, ← Nat.add_mod]

theorem store_outside (h : ∀ i < xs.length, (pos + i) % n ≠ c) (cells : Nat → α) :
    store n cells pos xs c = cells c := by
  induction xs generalizing cells pos with
  | nil => rfl
  | cons x xs ih =>
    have hrest : ∀ i < xs.length, (pos + 1 + i) % n ≠ c := by
      intro i hi
      rw [Nat.add_assoc, Nat.add_comm 1 i]
      exact h (i + 1) (Nat.succ_lt_succ hi)
    rw [store, ih hrest]
    exact Function.update_of_ne (h 0 (Nat.succ_pos _)).symm x cells

/-- The `m` cells in front of the end hold the last of the items. -/
theorem window_store (cells : Nat → α) (start k : Nat) (xs : List α) (hk : k ≤ n) (hm : m ≤ n)
    (hmk : m ≤ k + xs.length) :
    window (store n cells (start + k) xs) n (start + k + xs.length - m) m =
      (window cells n start k ++ xs).rtake m := by
  induction xs generalizing cells start k with
  | nil =>
    rw [List.length_nil, Nat.add_zero] at hmk
    have hsplit : window cells n start (k - m + m) =
        window cells n start (k - m) ++ window cells n (start + (k - m)) m := window_add _ _
    rw [Nat.sub_add_cancel hmk] at hsplit
    rw [List.append_nil, List.rtake, length_window, hsplit, List.drop_left' length_window, store,
      List.length_nil, Nat.add_zero, Nat.add_sub_assoc hmk]
  | cons x xs ih =>
    rw [List.length_cons] at hmk ⊢
    have hend : start + k + (xs.length + 1) = start + k + 1 + xs.length := by omega
    rw [store, hend]
    rcases Nat.lt_or_eq_of_le hk with hlt | rfl
    · -- the window still grows
      have hrest := ih (Function.update cells ((start + k) % n) x) start (k + 1) hlt (by omega)
      rwa [window_push hlt, List.append_assoc] at hrest
    · -- the window is the whole ring and moves on by one cell
      cases k with
      | zero =>
        cases Nat.le_zero.mp hm
        simp
      | succ k =>
        have hrest := ih (Function.update cells ((start + (k + 1)) % (k + 1)) x) (start + 1) (k + 1)
          le_rfl (by omega)
        have hnext : start + (k + 1) = start + 1 + k := by omega
        have hmove : start + (k + 1) + 1 = start + 1 + (k + 1) := by omega
        rw [hmove, hrest, hnext, window_push (Nat.lt_succ_self k), window_succ, List.append_assoc,
          List.cons_append]
        refine (rtake_append_of_le (l := [cells (start % (k + 1))]) ?_).symm
        simp only [List.length_append, length_window, List.length_cons, List.length_nil]
        omega

theorem store_back (cells : Nat → α) (pos : Nat) (xs : List α) (hk : k < n) (hx : k < xs.length) :
    store n cells pos xs ((pos + (xs.length - 1 - k)) % n) = xs[xs.length - 1 - k] := by
  have hlast := window_store cells pos 0 xs (Nat.zero_le n) (show k + 1 ≤ n from hk) (by omega)
  have hstart : pos + 0 + xs.length - (k + 1) = pos + (xs.length - 1 - k) := by omega
  have hcount : xs.length - (k + 1) = xs.length - 1 - k := by omega
  rw [Nat.add_zero, window_zero, List.nil_append, List.rtake, ← Nat.add_zero pos, hstart, hcount,
    window_succ, List.drop_eq_getElem_cons (by omega)] at hlast
  exact (List.cons.inj hlast).1

end Window

-- ---------------------------------------------------------------------------
-- Queues that drop their oldest items
-- ---------------------------------------------------------------------------

inductive QueueCall (α : Type)
  | put (items : List α)
  | take
  | clear
  /-- A call that leaves the queue as it is. -/
  | look
  deriving Repr

/-- One call on a queue of at most `cap` items: the items before it, those it
hands out and those after it. How much is taken at a time is left open, but
something is unless the queue is empty. -/
inductive QueueStep (cap : Nat) : List α → QueueCall α → List α → List α → Prop
  | put (q items : List α) : QueueStep cap q (.put items) [] ((q ++ items).rtake cap)
  | take (out rest : List α) (h : out ++ rest ≠ [] → out ≠ []) :
      QueueStep cap (out ++ rest) .take out rest
  | clear (q : List α) : QueueStep cap q .clear [] []
  | look (q : List α) : QueueStep cap q .look [] q

inductive QueueRun (cap : Nat) : List α → List (QueueCall α) → List (List α) → List α → Prop
  | nil (q : List α) : QueueRun cap q [] [] q
  | cons {q q' q'' : List α} (h : QueueStep cap q call out q')
      (hr : QueueRun cap q' calls outs q'') :
      QueueRun cap q (call :: calls) (out :: outs) q''

end Lib
