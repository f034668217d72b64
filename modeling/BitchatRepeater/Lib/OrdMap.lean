import Mathlib.Data.List.Nodup
import Mathlib.Data.List.Sort
import Mathlib.Order.Defs.LinearOrder

/-!
# Maps with one entry per key

The part of `std::map` the repeater relies on: entries with pairwise distinct
keys, kept in key order by insertion. A map is determined by what it holds
under each key; `get?_eq_some` turns every lookup into a membership, and the
remaining laws follow from the membership laws of the operations.
-/

namespace Lib

structure OrdMap (κ : Type) (α : Type) where
  entries : List (κ × α)
  nodup : (entries.map Prod.fst).Nodup

namespace OrdMap

variable {κ α : Type}

def empty : OrdMap κ α := ⟨[], List.nodup_nil⟩

instance : Inhabited (OrdMap κ α) := ⟨empty⟩

def keys (m : OrdMap κ α) : List κ := m.entries.map Prod.fst

def eraseIf (m : OrdMap κ α) (stale : κ × α → Bool) : OrdMap κ α :=
  ⟨m.entries.filter (!stale ·), m.nodup.sublist (List.filter_sublist.map _)⟩

section Lookup
variable [DecidableEq κ]

def get? (m : OrdMap κ α) (k : κ) : Option α :=
  (m.entries.find? (·.1 = k)).map Prod.snd

def contains (m : OrdMap κ α) (k : κ) : Bool := (m.get? k).isSome

def erase (m : OrdMap κ α) (k : κ) : OrdMap κ α := m.eraseIf (·.1 = k)

def modify (m : OrdMap κ α) (k : κ) (f : α → α) : OrdMap κ α where
  entries := m.entries.map fun e => if e.1 = k then (e.1, f e.2) else e
  nodup := by
    have h : (m.entries.map fun e => if e.1 = k then (e.1, f e.2) else e).map Prod.fst =
        m.entries.map Prod.fst := by
      rw [List.map_map]
      exact List.map_congr_left fun e _ => by by_cases he : e.1 = k <;> simp [he]
    rw [h]
    exact m.nodup

/-- `m[k] = v`: overwrite in place, or put the new key before the first greater one. -/
def insert [LT κ] [DecidableLT κ] (m : OrdMap κ α) (k : κ) (v : α) : OrdMap κ α :=
  if h : k ∈ m.entries.map Prod.fst then m.modify k fun _ => v
  else
    { entries := m.entries.orderedInsert (fun a b => a.1 < b.1) (k, v)
      nodup := by
        have hp := (List.perm_orderedInsert (fun a b : κ × α => a.1 < b.1) (k, v)
          m.entries).map Prod.fst
        exact hp.nodup_iff.mpr (List.nodup_cons.mpr ⟨h, m.nodup⟩) }

end Lookup

-- ---------------------------------------------------------------------------
-- Membership
-- ---------------------------------------------------------------------------

@[simp] theorem mem_eraseIf {m : OrdMap κ α} {stale : κ × α → Bool} {e : κ × α} :
    e ∈ (m.eraseIf stale).entries ↔ e ∈ m.entries ∧ stale e = false := by
  simp [eraseIf]

theorem eq_of_entries {m m' : OrdMap κ α} (h : m.entries = m'.entries) : m = m' := by
  cases m
  cases h
  rfl

theorem value_unique {m : OrdMap κ α} (h : (k, v) ∈ m.entries) (h' : (k, w) ∈ m.entries) :
    v = w := by
  have hp := List.inj_on_of_nodup_map m.nodup h h' rfl
  exact (Prod.mk.inj hp).2

section Lookup
variable [DecidableEq κ] {m : OrdMap κ α}

theorem get?_eq_some : m.get? k = some v ↔ (k, v) ∈ m.entries := by
  unfold get?
  constructor
  · intro h
    obtain ⟨⟨k', v'⟩, hf, rfl⟩ := Option.map_eq_some_iff.mp h
    have hk : k' = k := by simpa using List.find?_some hf
    exact hk ▸ List.mem_of_find?_eq_some hf
  · intro h
    cases hf : m.entries.find? (·.1 = k) with
    | none => simpa using List.find?_eq_none.mp hf _ h
    | some e =>
      obtain ⟨k', v'⟩ := e
      have hk : k' = k := by simpa using List.find?_some hf
      subst hk
      simpa using value_unique (List.mem_of_find?_eq_some hf) h

theorem get?_eq_none : m.get? k = none ↔ ∀ v, (k, v) ∉ m.entries := by
  constructor
  · intro h v hv
    rw [← get?_eq_some, h] at hv
    cases hv
  · intro h
    cases hg : m.get? k with
    | none => rfl
    | some v => exact absurd (get?_eq_some.mp hg) (h v)

theorem mem_modify {f : α → α} {e : κ × α} :
    e ∈ (m.modify k f).entries ↔ ∃ a ∈ m.entries, e = if a.1 = k then (a.1, f a.2) else a := by
  simp [modify, eq_comm]

theorem get?_modify {f : α → α} : (m.modify k f).get? k' =
    if k' = k then (m.get? k').map f else m.get? k' := by
  by_cases hk : k' = k
  · subst hk
    cases hg : m.get? k' with
    | none =>
      simp only [if_pos, Option.map_none]
      rw [get?_eq_none] at hg ⊢
      intro v hv
      obtain ⟨⟨a, w⟩, ha, he⟩ := mem_modify.mp hv
      by_cases hak : a = k'
      · exact hg w (hak ▸ ha)
      · simp only [hak, if_false] at he
        exact hak (Prod.mk.inj he).1.symm
    | some v =>
      simp only [if_pos, Option.map_some]
      rw [get?_eq_some] at hg ⊢
      exact mem_modify.mpr ⟨(k', v), hg, by simp⟩
  · rw [if_neg hk]
    refine Option.ext fun v => ?_
    rw [get?_eq_some, get?_eq_some, mem_modify]
    constructor
    · rintro ⟨⟨a, w⟩, ha, he⟩
      by_cases hak : a = k
      · simp only [hak, if_pos] at he
        exact absurd (Prod.mk.inj he).1 hk
      · simp only [hak, if_false] at he
        exact he ▸ ha
    · intro h
      exact ⟨(k', v), h, by simp [hk]⟩

theorem contains_modify {f : α → α} : (m.modify k f).contains k' = m.contains k' := by
  rw [contains, get?_modify, contains]
  split
  · exact Option.isSome_map
  · rfl

@[simp] theorem keys_modify {f : α → α} : (m.modify k f).keys = m.keys := by
  simp only [keys, modify, List.map_map]
  exact List.map_congr_left fun e _ => by by_cases he : e.1 = k <;> simp [he]

theorem mem_keys : k ∈ m.keys ↔ ∃ v, m.get? k = some v := by
  simp [keys, get?_eq_some]

section Insert
variable [LT κ] [DecidableLT κ]

theorem mem_insert {e : κ × α} :
    e ∈ (m.insert k v).entries ↔ e = (k, v) ∨ (e ∈ m.entries ∧ e.1 ≠ k) := by
  unfold insert
  split
  next h =>
    obtain ⟨⟨a, w⟩, ha, rfl⟩ := List.mem_map.mp h
    rw [mem_modify]
    constructor
    · rintro ⟨⟨b, x⟩, hb, rfl⟩
      by_cases hba : b = a
      · simp [hba]
      · simp [hba, hb]
    · rintro (rfl | ⟨he, hne⟩)
      · exact ⟨(a, w), ha, by simp⟩
      · exact ⟨e, he, by simp [hne]⟩
  next h =>
    simp only [List.mem_orderedInsert]
    constructor
    · rintro (rfl | he)
      · exact .inl rfl
      · exact .inr ⟨he, fun hk => h (hk ▸ List.mem_map_of_mem he)⟩
    · rintro (rfl | ⟨he, -⟩)
      · exact .inl rfl
      · exact .inr he

theorem get?_insert : (m.insert k v).get? k' = if k' = k then some v else m.get? k' := by
  by_cases hk : k' = k
  · subst hk
    rw [if_pos rfl, get?_eq_some, mem_insert]
    exact .inl rfl
  · rw [if_neg hk]
    refine Option.ext fun w => ?_
    rw [get?_eq_some, get?_eq_some, mem_insert]
    simp [hk]

@[simp] theorem get?_insert_self : (m.insert k v).get? k = some v := by
  simp [get?_insert]

theorem insert_apply (h : m.get? k = some v) (f : α → α) : m.insert k (f v) = m.modify k f := by
  have hk : k ∈ m.entries.map Prod.fst := List.mem_map_of_mem (get?_eq_some.mp h)
  rw [insert, dif_pos hk]
  refine eq_of_entries (List.map_congr_left fun e he => ?_)
  split
  next hek => rw [value_unique (hek ▸ he : (k, e.2) ∈ m.entries) (get?_eq_some.mp h)]
  next => rfl

end Insert

theorem get?_eraseIf {stale : κ × α → Bool} :
    (m.eraseIf stale).get? k = (m.get? k).filter fun v => !stale (k, v) := by
  refine Option.ext fun v => ?_
  simp [get?_eq_some, Option.filter_eq_some_iff]

end Lookup

-- ---------------------------------------------------------------------------
-- Order
-- ---------------------------------------------------------------------------

section Order
variable [LinearOrder κ]

def Sorted (m : OrdMap κ α) : Prop := m.entries.Pairwise (·.1 < ·.1)

variable {m m' : OrdMap κ α}

theorem sorted_orderedInsert {es : List (κ × α)} (h : es.Pairwise (·.1 < ·.1))
    (hk : k ∉ es.map Prod.fst) :
    (es.orderedInsert (fun a b => a.1 < b.1) (k, v)).Pairwise (·.1 < ·.1) := by
  induction es with
  | nil => exact List.pairwise_singleton _ _
  | cons a es ih =>
    obtain ⟨ha, hs⟩ := List.pairwise_cons.mp h
    simp only [List.map_cons, List.mem_cons, not_or] at hk
    rw [List.orderedInsert_cons]
    split
    next hlt =>
      refine List.pairwise_cons.mpr ⟨?_, h⟩
      intro e he
      rcases List.mem_cons.mp he with rfl | he
      · exact hlt
      · exact hlt.trans (ha e he)
    next hlt =>
      refine List.pairwise_cons.mpr ⟨?_, ih hs hk.2⟩
      intro e he
      rcases (List.mem_orderedInsert _).mp he with rfl | he
      · exact lt_of_le_of_ne (not_lt.mp hlt) (Ne.symm hk.1)
      · exact ha e he

theorem sorted_iff_keys : m.Sorted ↔ m.keys.Pairwise (· < ·) := List.pairwise_map.symm

theorem Sorted.of_keys (h : m.Sorted) (hk : m'.keys = m.keys) : m'.Sorted := by
  rw [sorted_iff_keys] at h ⊢
  rwa [hk]

theorem Sorted.modify (h : m.Sorted) {f : α → α} : (m.modify k f).Sorted :=
  h.of_keys keys_modify

theorem Sorted.eraseIf (h : m.Sorted) {stale : κ × α → Bool} : (m.eraseIf stale).Sorted :=
  h.sublist List.filter_sublist

theorem Sorted.insert (h : m.Sorted) : (m.insert k v).Sorted := by
  unfold OrdMap.insert
  split
  · exact h.modify
  next hk => exact sorted_orderedInsert h hk

theorem Sorted.ext (h : m.Sorted) (h' : m'.Sorted) (hg : ∀ k, m.get? k = m'.get? k) : m = m' := by
  have hmem (e : κ × α) : e ∈ m.entries ↔ e ∈ m'.entries := by
    rw [← get?_eq_some, ← get?_eq_some, hg]
  have hperm : m.entries.Perm m'.entries :=
    (List.perm_ext_iff_of_nodup m.nodup.of_map m'.nodup.of_map).mpr hmem
  exact eq_of_entries (hperm.eq_of_pairwise (fun _ _ _ _ hl hg => absurd hl hg.asymm) h h')

end Order

end OrdMap

end Lib
