import Mathlib.Data.List.Sort
import Mathlib.Data.List.TakeWhile
import Mathlib.Order.Defs.LinearOrder

/-!
# Ordered maps with repeated keys

The part of `std::multimap` the repeater relies on. An iterator is the suffix
of entries it still has to visit, so `end()` is the empty list. `lowerBound k`
starts at the first entry whose key is not below `k`, whether or not that
entry is under `k`: it is not `end()` as soon as any greater key is present.
`emplace` adds behind the entries of the same key, as the standard requires.
-/

namespace Lib

structure Multimap (κ : Type) [LinearOrder κ] (α : Type) where
  entries : List (κ × α)
  sorted : entries.Pairwise (·.1 ≤ ·.1)

namespace Multimap

variable {κ : Type} [LinearOrder κ] {α : Type}

def empty : Multimap κ α := ⟨[], .nil⟩

instance : Inhabited (Multimap κ α) := ⟨empty⟩

def emplaceEntries (k : κ) (v : α) : List (κ × α) → List (κ × α)
  | [] => [(k, v)]
  | e :: es => if k < e.1 then (k, v) :: e :: es else e :: emplaceEntries k v es

theorem mem_emplaceEntries {es : List (κ × α)} {e : κ × α} :
    e ∈ emplaceEntries k v es ↔ e = (k, v) ∨ e ∈ es := by
  induction es with
  | nil => simp [emplaceEntries]
  | cons a es ih =>
    unfold emplaceEntries
    split
    · simp
    · simp only [List.mem_cons, ih]
      exact or_left_comm

theorem sorted_emplaceEntries {es : List (κ × α)} (h : es.Pairwise (·.1 ≤ ·.1)) :
    (emplaceEntries k v es).Pairwise (·.1 ≤ ·.1) := by
  induction es with
  | nil => simp [emplaceEntries]
  | cons a es ih =>
    obtain ⟨ha, hs⟩ := List.pairwise_cons.mp h
    unfold emplaceEntries
    split
    next hk =>
      refine List.pairwise_cons.mpr ⟨?_, h⟩
      intro e he
      rcases List.mem_cons.mp he with rfl | he
      · exact hk.le
      · exact hk.le.trans (ha e he)
    next hk =>
      refine List.pairwise_cons.mpr ⟨?_, ih hs⟩
      intro e he
      rcases mem_emplaceEntries.mp he with rfl | he
      · exact not_lt.mp hk
      · exact ha e he

def emplace (m : Multimap κ α) (k : κ) (v : α) : Multimap κ α :=
  ⟨emplaceEntries k v m.entries, sorted_emplaceEntries m.sorted⟩

def eraseIf (m : Multimap κ α) (stale : κ × α → Bool) : Multimap κ α :=
  ⟨m.entries.filter (!stale ·), m.sorted.filter _⟩

/-- `lower_bound(k)`, which is also `equal_range(k).first`. -/
def lowerBound (m : Multimap κ α) (k : κ) : List (κ × α) :=
  m.entries.dropWhile (·.1 < k)

/-- The entries from `equal_range(k).first` up to `equal_range(k).second`. -/
def equalRange (m : Multimap κ α) (k : κ) : List (κ × α) :=
  (m.lowerBound k).takeWhile (·.1 ≤ k)

/-- `find(k)`: the first entry under `k` and everything behind it, or `end()`. -/
def find (m : Multimap κ α) (k : κ) : List (κ × α) :=
  if (m.equalRange k).isEmpty then [] else m.lowerBound k

/-- `erase(lower_bound(k))`: the entry that iterator points at is dropped. -/
def eraseLowerBound (m : Multimap κ α) (k : κ) : Multimap κ α where
  entries := m.entries.takeWhile (·.1 < k) ++ (m.lowerBound k).tail
  sorted := m.sorted.sublist <| by
    conv => rhs; rw [← List.takeWhile_append_dropWhile (p := (·.1 < k)) (l := m.entries)]
    exact (List.Sublist.refl _).append (List.tail_sublist _)

def valuesAt (m : Multimap κ α) (k : κ) : List α :=
  (m.entries.filter (·.1 = k)).map Prod.snd

-- ---------------------------------------------------------------------------
-- Membership
-- ---------------------------------------------------------------------------

variable {m : Multimap κ α}

@[simp] theorem mem_emplace {e : κ × α} :
    e ∈ (m.emplace k v).entries ↔ e = (k, v) ∨ e ∈ m.entries :=
  mem_emplaceEntries

@[simp] theorem mem_eraseIf {stale : κ × α → Bool} {e : κ × α} :
    e ∈ (m.eraseIf stale).entries ↔ e ∈ m.entries ∧ stale e = false := by
  simp [eraseIf]

theorem eraseIf_eq_self {stale : κ × α → Bool} (h : ∀ e ∈ m.entries, stale e = false) :
    m.eraseIf stale = m := by
  cases m
  simp only [eraseIf, Multimap.mk.injEq, List.filter_eq_self]
  intro e he
  rw [h e he]
  rfl

theorem mem_of_mem_eraseLowerBound {e : κ × α} (h : e ∈ (m.eraseLowerBound k).entries) :
    e ∈ m.entries := by
  rcases List.mem_append.mp h with h | h
  · exact (List.takeWhile_sublist _).subset h
  · exact (List.dropWhile_sublist _).subset (List.mem_of_mem_tail h)

theorem dropWhile_eq_filter {es : List (κ × α)} (h : es.Pairwise (·.1 ≤ ·.1)) (k : κ) :
    es.dropWhile (·.1 < k) = es.filter (k ≤ ·.1) := by
  induction es with
  | nil => rfl
  | cons a es ih =>
    obtain ⟨ha, hs⟩ := List.pairwise_cons.mp h
    by_cases hk : a.1 < k
    · simp [hk, ih hs, not_le.mpr hk]
    · have hall : ∀ e ∈ a :: es, decide (k ≤ e.1) = true := by
        intro e he
        have hka := not_lt.mp hk
        rcases List.mem_cons.mp he with rfl | he
        · simpa using hka
        · simpa using hka.trans (ha e he)
      rw [List.filter_eq_self.mpr hall]
      simp [hk]

theorem mem_lowerBound {e : κ × α} : e ∈ m.lowerBound k ↔ e ∈ m.entries ∧ k ≤ e.1 := by
  rw [lowerBound, dropWhile_eq_filter m.sorted]
  simp

theorem takeWhile_eq_filter {es : List (κ × α)} (h : es.Pairwise (·.1 ≤ ·.1)) (k : κ) :
    es.takeWhile (·.1 ≤ k) = es.filter (·.1 ≤ k) := by
  induction es with
  | nil => rfl
  | cons a es ih =>
    obtain ⟨ha, hs⟩ := List.pairwise_cons.mp h
    by_cases hk : a.1 ≤ k
    · simp [hk, ih hs]
    · have hnone : ∀ e ∈ a :: es, ¬ decide (e.1 ≤ k) = true := by
        intro e he
        rcases List.mem_cons.mp he with rfl | he
        · simpa using hk
        · simpa using lt_of_lt_of_le (not_le.mp hk) (ha e he)
      rw [List.filter_eq_nil_iff.mpr hnone]
      simp [hk]

theorem equalRange_eq_filter : m.equalRange k = m.entries.filter (·.1 = k) := by
  have hs : (m.lowerBound k).Pairwise (·.1 ≤ ·.1) := m.sorted.sublist (List.dropWhile_sublist _)
  rw [equalRange, takeWhile_eq_filter hs, lowerBound, dropWhile_eq_filter m.sorted,
    List.filter_filter]
  refine List.filter_congr fun e _ => ?_
  simp [le_antisymm_iff]

theorem mem_equalRange {e : κ × α} : e ∈ m.equalRange k ↔ e ∈ m.entries ∧ e.1 = k := by
  simp [equalRange_eq_filter]

/-- The walk from `find(k)` to `end()` visits the entries of every key from
`k` on, not only those of `k`. -/
theorem mem_find {e : κ × α} :
    e ∈ m.find k ↔ (∃ v, (k, v) ∈ m.entries) ∧ e ∈ m.entries ∧ k ≤ e.1 := by
  unfold find
  split
  next h =>
    have hn : m.equalRange k = [] := List.isEmpty_iff.mp h
    simp only [List.not_mem_nil, false_iff, not_and]
    rintro ⟨v, hv⟩
    have hm : (k, v) ∈ m.equalRange k := mem_equalRange.mpr ⟨hv, rfl⟩
    rw [hn] at hm
    cases hm
  next h =>
    have hk : ∃ v, (k, v) ∈ m.entries := by
      obtain ⟨⟨a, v⟩, ha⟩ := List.exists_mem_of_ne_nil _ (mt List.isEmpty_iff.mpr h)
      obtain ⟨hm, rfl⟩ := mem_equalRange.mp ha
      exact ⟨v, hm⟩
    rw [mem_lowerBound]
    exact ⟨fun h => ⟨hk, h⟩, fun h => h.2⟩

-- ---------------------------------------------------------------------------
-- The values of one key
-- ---------------------------------------------------------------------------

theorem mem_valuesAt : v ∈ m.valuesAt k ↔ (k, v) ∈ m.entries := by
  simp [valuesAt]

theorem valuesAt_eq_equalRange : m.valuesAt k = (m.equalRange k).map Prod.snd := by
  rw [valuesAt, equalRange_eq_filter]

theorem filter_emplaceEntries {es : List (κ × α)} (h : es.Pairwise (·.1 ≤ ·.1)) (k' : κ) :
    (emplaceEntries k v es).filter (·.1 = k') =
      es.filter (·.1 = k') ++ if k' = k then [(k, v)] else [] := by
  induction es with
  | nil =>
    by_cases hk : k' = k
    · simp [emplaceEntries, hk]
    · simp [emplaceEntries, hk, Ne.symm hk]
  | cons a es ih =>
    obtain ⟨ha, hs⟩ := List.pairwise_cons.mp h
    unfold emplaceEntries
    split
    next hk =>
      by_cases hk' : k' = k
      · subst hk'
        -- every entry behind the insertion point has a greater key
        have hnone : ∀ e ∈ a :: es, ¬ decide (e.1 = k') = true := by
          intro e he
          rcases List.mem_cons.mp he with rfl | he
          · simpa using hk.ne'
          · simpa using (lt_of_lt_of_le hk (ha e he)).ne'
        have hnil : (a :: es).filter (·.1 = k') = [] := List.filter_eq_nil_iff.mpr hnone
        rw [List.filter_cons_of_pos (by simp), hnil]
        simp
      · rw [List.filter_cons_of_neg (by simpa using Ne.symm hk')]
        simp [hk']
    next =>
      by_cases hak : a.1 = k' <;> simp [hak, ih hs]

theorem valuesAt_emplace : (m.emplace k v).valuesAt k' =
    if k' = k then m.valuesAt k' ++ [v] else m.valuesAt k' := by
  simp only [valuesAt, emplace, filter_emplaceEntries m.sorted]
  by_cases hk : k' = k <;> simp [hk]

theorem lowerBound_eq_nil : m.lowerBound k = [] ↔ ∀ e ∈ m.entries, e.1 < k := by
  simp [lowerBound, List.dropWhile_eq_nil_iff]

theorem lowerBound_of_valuesAt (h : m.valuesAt k = v :: vs) :
    ∃ rest, m.lowerBound k = (k, v) :: rest := by
  rw [valuesAt_eq_equalRange] at h
  cases hr : m.equalRange k with
  | nil => simp [hr] at h
  | cons e es =>
    have hk : e.1 = k := (mem_equalRange.mp (hr ▸ List.mem_cons_self)).2
    have hv : e.2 = v := by
      rw [hr] at h
      exact (List.cons.inj h).1
    unfold equalRange at hr
    cases hl : m.lowerBound k with
    | nil => simp [hl] at hr
    | cons a l =>
      rw [hl, List.takeWhile_cons] at hr
      split at hr
      · obtain ⟨rfl, -⟩ := List.cons.inj hr
        exact ⟨l, by rw [← hk, ← hv]⟩
      · cases hr

theorem valuesAt_eraseLowerBound (h : m.valuesAt k = v :: vs) :
    (m.eraseLowerBound k).valuesAt k' = if k' = k then vs else m.valuesAt k' := by
  obtain ⟨rest, hl⟩ := lowerBound_of_valuesAt h
  have hsplit : m.entries = m.entries.takeWhile (·.1 < k) ++ (k, v) :: rest := by
    rw [← hl]
    exact (List.takeWhile_append_dropWhile).symm
  have hbelow : (m.entries.takeWhile (·.1 < k)).filter (·.1 = k) = [] := by
    refine List.filter_eq_nil_iff.mpr fun e he => ?_
    have hlt : e.1 < k := by simpa using List.mem_takeWhile_imp he
    simpa using hlt.ne
  have herase : (m.eraseLowerBound k).entries = m.entries.takeWhile (·.1 < k) ++ rest := by
    simp [eraseLowerBound, hl]
  by_cases hk : k' = k
  · subst hk
    have hm : m.valuesAt k' = v :: (rest.filter (·.1 = k')).map Prod.snd := by
      rw [valuesAt, hsplit, List.filter_append, hbelow]
      simp
    rw [h] at hm
    rw [if_pos rfl, valuesAt, herase, List.filter_append, hbelow, (List.cons.inj hm).2]
    rfl
  · rw [if_neg hk]
    have hm : m.valuesAt k' = (((m.entries.takeWhile (·.1 < k)).filter (·.1 = k')) ++
        rest.filter (·.1 = k')).map Prod.snd := by
      conv => lhs; rw [valuesAt, hsplit]
      simp [Ne.symm hk]
    rw [hm, valuesAt, herase, List.filter_append]

theorem valuesAt_eraseLowerBound_of_lt (h : k' < k) :
    (m.eraseLowerBound k).valuesAt k' = m.valuesAt k' := by
  have hnone {es : List (κ × α)} (hes : ∀ e ∈ es, k ≤ e.1) : es.filter (·.1 = k') = [] :=
    List.filter_eq_nil_iff.mpr fun e he => by simpa using (lt_of_lt_of_le h (hes e he)).ne'
  have habove (e : κ × α) (he : e ∈ m.lowerBound k) : k ≤ e.1 := (mem_lowerBound.mp he).2
  have hsplit : m.entries = m.entries.takeWhile (·.1 < k) ++ m.lowerBound k :=
    (List.takeWhile_append_dropWhile).symm
  conv => rhs; rw [valuesAt, hsplit]
  simp only [valuesAt, eraseLowerBound, List.filter_append, hnone habove,
    hnone fun e he => habove e (List.mem_of_mem_tail he)]

theorem lowerBound_head (h : m.lowerBound k = (j, v) :: rest) :
    m.lowerBound j = (j, v) :: rest ∧ m.eraseLowerBound k = m.eraseLowerBound j := by
  have hsplit : m.entries = m.entries.takeWhile (·.1 < k) ++ (j, v) :: rest := by
    rw [← h]
    exact (List.takeWhile_append_dropWhile).symm
  have hkj : k ≤ j := (mem_lowerBound.mp (h ▸ List.mem_cons_self)).2
  have hbelow : ∀ e ∈ m.entries.takeWhile (·.1 < k), decide (e.1 < j) = true := by
    intro e he
    have hlt : e.1 < k := by simpa using List.mem_takeWhile_imp he
    exact decide_eq_true (lt_of_lt_of_le hlt hkj)
  have htake : m.entries.takeWhile (·.1 < j) = m.entries.takeWhile (·.1 < k) := by
    conv => lhs; rw [hsplit, List.takeWhile_append_of_pos hbelow]
    simp
  have hdrop : m.lowerBound j = (j, v) :: rest := by
    conv => lhs; rw [lowerBound, hsplit, List.dropWhile_append_of_pos hbelow]
    simp
  refine ⟨hdrop, ?_⟩
  simp only [eraseLowerBound, htake, hdrop, h]

theorem length_eraseLowerBound (h : m.lowerBound k = e :: rest) :
    (m.eraseLowerBound k).entries.length + 1 = m.entries.length := by
  have hsplit : m.entries = m.entries.takeWhile (·.1 < k) ++ e :: rest := by
    rw [← h]
    exact (List.takeWhile_append_dropWhile).symm
  conv => rhs; rw [hsplit]
  simp only [eraseLowerBound, h, List.tail_cons, List.length_append, List.length_cons]
  omega

theorem valuesAt_of_lowerBound (h : m.lowerBound k = (j, v) :: rest) :
    ∃ vs, m.valuesAt j = v :: vs := by
  rw [valuesAt_eq_equalRange, equalRange, (lowerBound_head h).1,
    List.takeWhile_cons_of_pos (by simp)]
  exact ⟨_, rfl⟩

end Multimap

end Lib
