import Mathlib.Control.Monad.Basic
import Mathlib.Data.List.Basic

/-!
# Checked accesses

A pointer is a position in an object, and an access that is not to an element of
the object is a fault. A program that makes its accesses through pointers
agrees with one that has the data at hand if it faults nowhere and comes to the
same results; the rules put such agreements together along `do` blocks.
-/

namespace Lib

inductive Fault
  | nullPointer
  | outOfRange
  deriving DecidableEq, Repr

inductive Pointer (α : Type)
  | null
  | into (object : List α) (start : Nat)
  deriving DecidableEq, Repr

namespace Pointer

variable {α : Type} {p : Pointer α} {xs ys : List α}

def isNull : Pointer α → Bool
  | null => true
  | into _ _ => false

def add : Pointer α → Nat → Pointer α
  | null, _ => null
  | into object start, n => into object (start + n)

def load : Pointer α → Nat → Except Fault α
  | null, _ => .error .nullPointer
  | into object start, i =>
    match object[start + i]? with
    | some x => .ok x
    | none => .error .outOfRange

/-- The first `n` elements. A null pointer must not be copied from even if `n` is zero. -/
def copy : Pointer α → Nat → Except Fault (List α)
  | null, _ => .error .nullPointer
  | into object start, n =>
    if start + n ≤ object.length then .ok ((object.drop start).take n) else .error .outOfRange

def Holds (p : Pointer α) (xs : List α) : Prop :=
  ∃ front behind, p = into (front ++ xs ++ behind) front.length

theorem holds_into (xs : List α) : (into xs 0).Holds xs := ⟨[], [], by simp⟩

theorem Holds.isNull (h : p.Holds xs) : p.isNull = false := by
  obtain ⟨front, behind, rfl⟩ := h
  rfl

theorem Holds.take (h : p.Holds xs) (n : Nat) : p.Holds (xs.take n) := by
  obtain ⟨front, behind, rfl⟩ := h
  refine ⟨front, xs.drop n ++ behind, ?_⟩
  rw [List.append_assoc front (xs.take n), ← List.append_assoc (xs.take n), List.take_append_drop,
    List.append_assoc]

theorem Holds.add (h : p.Holds xs) (hn : n ≤ xs.length) : (p.add n).Holds (xs.drop n) := by
  obtain ⟨front, behind, rfl⟩ := h
  refine ⟨front ++ xs.take n, behind, ?_⟩
  rw [List.append_assoc front (xs.take n), List.take_append_drop, Pointer.add, List.length_append,
    List.length_take_of_le hn]

theorem Holds.load (h : p.Holds xs) (hi : i < xs.length) : p.load i = .ok xs[i] := by
  obtain ⟨front, behind, rfl⟩ := h
  have hget : (front ++ xs ++ behind)[front.length + i]? = some xs[i] := by
    rw [List.append_assoc, List.getElem?_append_right (Nat.le_add_right _ _),
      Nat.add_sub_cancel_left, List.getElem?_append_left hi, List.getElem?_eq_getElem hi]
  rw [Pointer.load, hget]

theorem Holds.copy (h : p.Holds xs) (hn : xs.length = n) : p.copy n = .ok xs := by
  obtain ⟨front, behind, rfl⟩ := h
  have hle : front.length + n ≤ (front ++ xs ++ behind).length := by
    simp only [List.length_append, hn]
    omega
  rw [Pointer.copy, if_pos hle, List.append_assoc, List.drop_left, ← hn, List.take_left]

end Pointer

-- ---------------------------------------------------------------------------
-- Agreement
-- ---------------------------------------------------------------------------

section Agreement
variable {ε α α' β β' : Type} {R : α → β → Prop} {S : α' → β' → Prop} {y : β} {z : Option β}
    {z' : Option β'}

theorem ok_bind (a : α) (f : α → Except ε α') : (.ok a : Except ε α) >>= f = f a := rfl

theorem error_bind (e : ε) (f : α → Except ε α') : (.error e : Except ε α) >>= f = .error e := rfl

theorem lift_ok_bind (a : α) (f : α → OptionT (Except ε) α') :
    liftM (.ok a : Except ε α) >>= f = f a := rfl

def Yields (R : α → β → Prop) (x : Except ε α) (y : β) : Prop := ∃ a, x = .ok a ∧ R a y

def Agrees (R : α → β → Prop) (x : OptionT (Except ε) α) (z : Option β) : Prop :=
  match z with
  | none => x.run = .ok none
  | some y => ∃ a, x.run = .ok (some a) ∧ R a y

theorem Yields.bind {x : Except ε α} {f : α → Except ε α'} {y' : β'} (hx : Yields R x y)
    (hf : ∀ a, R a y → Yields S (f a) y') : Yields S (x >>= f) y' := by
  obtain ⟨a, rfl, ha⟩ := hx
  exact hf a ha

theorem Yields.agrees {x : Except ε α} {f : α → OptionT (Except ε) α'} (hx : Yields R x y)
    (hf : ∀ a, R a y → Agrees S (f a) z') : Agrees S (liftM x >>= f) z' := by
  obtain ⟨a, rfl, ha⟩ := hx
  exact hf a ha

theorem Agrees.bind {x : OptionT (Except ε) α} {f : α → OptionT (Except ε) α'} {g : β → Option β'}
    (hx : Agrees R x z) (hf : ∀ a y, R a y → Agrees S (f a) (g y)) :
    Agrees S (x >>= f) (z >>= g) := by
  cases z with
  | none =>
    have hrun : x.run = .ok none := hx
    have hbind : (x >>= f).run = .ok none := by
      rw [OptionT.run_bind, hrun]
      rfl
    exact hbind
  | some y =>
    obtain ⟨a, hrun, ha⟩ := hx
    have hbind : x >>= f = f a := by
      apply OptionT.ext
      rw [OptionT.run_bind, hrun]
      rfl
    rw [hbind]
    exact hf a y ha

theorem Agrees.map {x : OptionT (Except ε) α} {f : α → OptionT (Except ε) α'} {g : β → β'}
    (hx : Agrees R x z) (hf : ∀ a y, R a y → Agrees S (f a) (some (g y))) :
    Agrees S (x >>= f) (z.map g) := by
  rw [Option.map_eq_bind]
  exact hx.bind hf

theorem Agrees.convert {x : OptionT (Except ε) α} {f : α → OptionT (Except ε) α'}
    {S : α' → β → Prop}
    (hx : Agrees R x z) (hf : ∀ a y, R a y → Agrees S (f a) (some y)) : Agrees S (x >>= f) z := by
  have hmap := hx.map (g := id) hf
  rwa [Option.map_id] at hmap

theorem Agrees.run_bind {x : OptionT (Except ε) α} {f : Option α → Except ε α'} {w : Except ε α'}
    (hx : Agrees R x z) (hnone : z = none → f none = w)
    (hsome : ∀ a y, z = some y → R a y → f (some a) = w) : x.run >>= f = w := by
  cases z with
  | none =>
    have hrun : x.run = .ok none := hx
    rw [hrun]
    exact hnone rfl
  | some y =>
    obtain ⟨a, hrun, ha⟩ := hx
    rw [hrun]
    exact hsome a y rfl ha

end Agreement

end Lib
