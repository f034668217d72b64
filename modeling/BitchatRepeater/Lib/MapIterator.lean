import BitchatRepeater.Lib.OrdMap

/-!
# Iterators into a map

An iterator of `std::map` stays where it is when entries are inserted or changed,
and is lost when its entry is erased, even if the key is entered again. The
position behind the last entry is never lost.
-/

namespace Lib

inductive MapIterator (κ : Type)
  | entry (key : κ)
  | past
  /-- The entry it designated is gone. -/
  | lost
  deriving DecidableEq, Repr

namespace MapIterator

variable {κ α β : Type}

def first (m : OrdMap κ α) : MapIterator κ :=
  match m.entries with
  | [] => .past
  | e :: _ => .entry e.1

def next [LT κ] [DecidableLT κ] (m : OrdMap κ α) : MapIterator κ → MapIterator κ
  | .entry k =>
    match m.entries.find? (k < ·.1) with
    | none => .past
    | some e => .entry e.1
  | it => it

section Lookup
variable [DecidableEq κ] {m : OrdMap κ α} {m' : OrdMap κ β}

/-- The iterator after a change that leaves the map `m`. -/
def follow (m : OrdMap κ α) : MapIterator κ → MapIterator κ
  | .entry k => if m.contains k then .entry k else .lost
  | it => it

def Designates (m : OrdMap κ α) (it : MapIterator κ) : Prop := ∃ k, it = .entry k ∧ m.contains k

instance decidableDesignates (m : OrdMap κ α) : (it : MapIterator κ) → Decidable (Designates m it)
  | .entry k =>
    decidable_of_iff (m.contains k) ⟨fun h => ⟨k, rfl, h⟩, fun ⟨_, he, h⟩ => by cases he; exact h⟩
  | .past => isFalse fun ⟨_, he, _⟩ => by cases he
  | .lost => isFalse fun ⟨_, he, _⟩ => by cases he

theorem contains_of_mem (h : e ∈ m.entries) : m.contains e.1 := by
  rw [OrdMap.contains, OrdMap.get?_eq_some.mpr h]
  rfl

theorem first_designates_iff : Designates m (first m) ↔ m.entries ≠ [] := by
  unfold first
  cases hm : m.entries with
  | nil =>
    refine iff_of_false ?_ (fun hne => hne rfl)
    rintro ⟨k, hk, -⟩
    cases hk
  | cons e es =>
    refine iff_of_true ⟨e.1, rfl, contains_of_mem ?_⟩ (List.cons_ne_nil e es)
    rw [hm]
    exact List.mem_cons_self

theorem next_designates [LT κ] [DecidableLT κ] (h : Designates m it) (hp : next m it ≠ .past) :
    Designates m (next m it) := by
  obtain ⟨k, rfl, -⟩ := h
  cases hf : m.entries.find? (k < ·.1) with
  | none => exact absurd (by simp only [next, hf]) hp
  | some e =>
    refine ⟨e.1, ?_, contains_of_mem (List.mem_of_find?_eq_some hf)⟩
    simp only [next, hf]

theorem follow_designates_iff : Designates m' (follow m' it) ↔ Designates m' it := by
  cases it with
  | entry k =>
    by_cases hk : m'.contains k
    · rw [follow, if_pos hk]
    · rw [follow, if_neg hk]
      refine iff_of_false ?_ ?_
      · rintro ⟨j, hj, -⟩
        cases hj
      · rintro ⟨j, hj, hm⟩
        cases hj
        exact hk hm
  | past => exact Iff.rfl
  | lost => exact Iff.rfl

end Lookup

section Order
variable [LinearOrder κ] {m : OrdMap κ α} {k j f : κ}

theorem mem_of_contains (h : m.contains k) : ∃ v, (k, v) ∈ m.entries := by
  obtain ⟨v, hv⟩ := Option.isSome_iff_exists.mp h
  exact ⟨v, OrdMap.get?_eq_some.mp hv⟩

theorem first_le (hm : m.Sorted) (hf : first m = .entry f) (hk : m.contains k) : f ≤ k := by
  obtain ⟨v, hv⟩ := mem_of_contains hk
  unfold first at hf
  unfold OrdMap.Sorted at hm
  cases he : m.entries with
  | nil =>
    rw [he] at hv
    cases hv
  | cons e es =>
    rw [he] at hf hm hv
    cases hf
    rcases List.mem_cons.mp hv with rfl | hv
    · exact le_refl _
    · exact le_of_lt ((List.pairwise_cons.mp hm).1 _ hv)

theorem lt_next (hn : next m (.entry j) = .entry f) : j < f := by
  simp only [next] at hn
  split at hn
  · cases hn
  next e he =>
    cases hn
    have hlt := List.find?_some he
    exact of_decide_eq_true hlt

theorem next_le (hm : m.Sorted) (hn : next m (.entry j) = .entry f) (hk : m.contains k)
    (hlt : j < k) :
    f ≤ k := by
  obtain ⟨v, hv⟩ := mem_of_contains hk
  simp only [next] at hn
  split at hn
  · cases hn
  next e he =>
    cases hn
    obtain ⟨-, before, after, hsplit, hbefore⟩ := List.find?_eq_some_iff_append.mp he
    unfold OrdMap.Sorted at hm
    rw [hsplit] at hm hv
    rcases List.mem_append.mp hv with hv | hv
    · have hno := hbefore _ hv
      simp [hlt] at hno
    · rcases List.mem_cons.mp hv with rfl | hv
      · exact le_refl _
      · exact le_of_lt ((List.pairwise_cons.mp (List.pairwise_append.mp hm).2.1).1 _ hv)

theorem le_of_next_past (hn : next m (.entry j) = .past) (hk : m.contains k) : k ≤ j := by
  obtain ⟨v, hv⟩ := mem_of_contains hk
  simp only [next] at hn
  split at hn
  next he => exact not_lt.mp (by simpa using List.find?_eq_none.mp he (k, v) hv)
  · cases hn

end Order

end MapIterator

end Lib
