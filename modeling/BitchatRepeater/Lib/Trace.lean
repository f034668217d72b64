import Mathlib.Data.List.Basic
import Mathlib.Data.List.Induction

/-!
# Runs of a machine that emits effects

A machine is a step function from a state and an input to the next state and
the effects of the step. `run` feeds it a list of inputs and collects all
effects in order. `Along` states a condition on every step of a run, in terms
of the state before it; `run_invariant` carries a property of the state and
the effects so far through all runs whose steps meet such a condition.
-/

namespace Lib

variable {σ ι ω : Type}

def run (step : σ → ι → σ × List ω) : σ → List ι → σ × List ω
  | s, [] => (s, [])
  | s, i :: is =>
    let next := step s i
    let rest := run step next.1 is
    (rest.1, next.2 ++ rest.2)

/-- The condition holds at each step of the run, judged before the step. -/
def Along (step : σ → ι → σ × List ω) (ok : σ → ι → Prop) : σ → List ι → Prop
  | _, [] => True
  | s, i :: is => ok s i ∧ Along step ok (step s i).1 is

variable {step : σ → ι → σ × List ω} {ok : σ → ι → Prop} {s : σ}

instance [∀ s i, Decidable (ok s i)] : ∀ s is, Decidable (Along step ok s is)
  | _, [] => isTrue trivial
  | s, i :: is =>
    have := instDecidableAlong (step s i).1 is
    inferInstanceAs (Decidable (ok s i ∧ Along step ok (step s i).1 is))

@[simp] theorem run_nil : run step s [] = (s, []) := rfl

theorem run_append : run step s (is ++ js) =
    ((run step (run step s is).1 js).1,
      (run step s is).2 ++ (run step (run step s is).1 js).2) := by
  induction is generalizing s with
  | nil => simp
  | cons i is ih => simp [run, ih]

theorem run_map (f : κ → ι) (is : List κ) :
    run step s (is.map f) = run (fun s i => step s (f i)) s is := by
  induction is generalizing s with
  | nil => rfl
  | cons i is ih => simp [run, ih]

theorem run_snoc : run step s (is ++ [i]) =
    ((step (run step s is).1 i).1, (run step s is).2 ++ (step (run step s is).1 i).2) := by
  simp [run_append, run]

theorem along_append : Along step ok s (is ++ js) ↔
    Along step ok s is ∧ Along step ok (run step s is).1 js := by
  induction is generalizing s with
  | nil => simp [Along]
  | cons i is ih => simp [Along, run, ih, and_assoc]

theorem along_true (s : σ) (is : List ι) : Along step (fun _ _ => True) s is := by
  induction is generalizing s with
  | nil => trivial
  | cons i is ih => exact ⟨trivial, ih _⟩

theorem along_of_forall {allowed : ι → Prop} (h : ∀ i ∈ is, allowed i) (s : σ) :
    Along step (fun _ i => allowed i) s is := by
  induction is generalizing s with
  | nil => trivial
  | cons i is ih =>
    exact ⟨h i List.mem_cons_self, ih (fun j hj => h j (List.mem_cons_of_mem i hj)) _⟩

theorem Along.mono {ok' : σ → ι → Prop} (h : Along step ok s is) (hok : ∀ s i, ok s i → ok' s i) :
    Along step ok' s is := by
  induction is generalizing s with
  | nil => trivial
  | cons i is ih => exact ⟨hok s i h.1, ih h.2⟩

theorem along_and {ok' : σ → ι → Prop} : Along step (fun s i => ok s i ∧ ok' s i) s is ↔
    Along step ok s is ∧ Along step ok' s is := by
  induction is generalizing s with
  | nil => simp [Along]
  | cons i is ih =>
    simp only [Along, ih]
    exact and_and_and_comm

theorem Along.imp_invariant {ok' : σ → ι → Prop} (inv : σ → Prop)
    (hstep : ∀ s i, inv s → ok s i → ok' s i ∧ inv (step s i).1) (hs : inv s)
    (h : Along step ok s is) :
    Along step ok' s is := by
  induction is generalizing s with
  | nil => trivial
  | cons i is ih =>
    obtain ⟨hi, hnext⟩ := hstep s i hs h.1
    exact ⟨hi, ih hnext h.2⟩

theorem along_of_prefixes (h : ∀ before i after, is = before ++ i :: after →
    Along step ok s before → ok (run step s before).1 i) : Along step ok s is := by
  induction is generalizing s with
  | nil => trivial
  | cons i is ih =>
    have hi : ok s i := h [] i is rfl trivial
    refine ⟨hi, ih fun before j after he hb => ?_⟩
    exact h (i :: before) j after (by rw [he]; rfl) ⟨hi, hb⟩

theorem Along.at_prefix (h : Along step ok s (before ++ i :: after)) :
    Along step ok s before ∧ ok (run step s before).1 i :=
  ⟨(along_append.mp h).1, (along_append.mp h).2.1⟩

theorem run_invariant {inv : σ → List ω → Prop}
    (hstep : ∀ s log i, ok s i → inv s log → inv (step s i).1 (log ++ (step s i).2))
    (hinit : inv s log) (h : Along step ok s is) :
    inv (run step s is).1 (log ++ (run step s is).2) := by
  induction is generalizing s log with
  | nil => simpa using hinit
  | cons i is ih =>
    have hn := ih (hstep s log i h.1 hinit) h.2
    simpa [run, List.append_assoc] using hn

theorem run_state_invariant (inv : σ → Prop)
    (hstep : ∀ s i, ok s i → inv s → inv (step s i).1)
    (hinit : inv s) (h : Along step ok s is) : inv (run step s is).1 := by
  induction is generalizing s with
  | nil => exact hinit
  | cons i is ih => exact ih (hstep s i h.1 hinit) h.2

/-- Where a condition on single steps decides whether they keep a property,
that property holds of every state on the way just if all steps meet it. -/
theorem forall_prefix_iff_along (inv : σ → Prop)
    (hstep : ∀ s i, inv s → (inv (step s i).1 ↔ ok s i)) (hs : inv s) :
    (∀ before, before <+: is → inv (run step s before).1) ↔ Along step ok s is := by
  constructor
  · intro h
    refine along_of_prefixes fun before i after he _ => ?_
    subst he
    have hlast := h (before ++ [i]) (by simp)
    rw [run_snoc] at hlast
    exact (hstep _ i (h before (List.prefix_append ..))).mp hlast
  · rintro h before ⟨after, rfl⟩
    exact run_state_invariant inv (fun s i hi hs => (hstep s i hs).mpr hi) hs (along_append.mp h).1

theorem run_history (inv : List ι → σ → List ω → Prop) (hinit : inv [] s [])
    (hstep : ∀ before s log i, inv before s log →
      inv (before ++ [i]) (step s i).1 (log ++ (step s i).2))
    (is : List ι) : inv is (run step s is).1 (run step s is).2 := by
  induction is using List.reverseRecOn with
  | nil => exact hinit
  | append_singleton is i ih =>
    rw [run_snoc]
    exact hstep is _ _ i ih

theorem mem_run : e ∈ (run step s is).2 ↔
    ∃ before i after, is = before ++ i :: after ∧ e ∈ (step (run step s before).1 i).2 := by
  constructor
  · induction is generalizing s with
    | nil => simp
    | cons i is ih =>
      intro h
      rcases List.mem_append.mp h with h | h
      · exact ⟨[], i, is, rfl, h⟩
      · obtain ⟨before, j, after, rfl, hj⟩ := ih h
        exact ⟨i :: before, j, after, rfl, hj⟩
  · rintro ⟨before, i, after, rfl, h⟩
    rw [run_append]
    exact List.mem_append_right _ (List.mem_append_left _ h)

/-- Something each step either leaves as it is or, for certain inputs, brings
about holds at the end if it held at the start or such an input was there. -/
theorem run_accumulates (inv : σ → Prop) {has : σ → Prop} {brings : ι → Prop}
    (hinv : ∀ s i, inv s → inv (step s i).1)
    (hstep : ∀ s, inv s → ∀ i ∈ is, (has (step s i).1 ↔ has s ∨ brings i)) (hs : inv s) :
    has (run step s is).1 ↔ has s ∨ ∃ i ∈ is, brings i := by
  induction is generalizing s with
  | nil => simp
  | cons i is ih =>
    have hrest := ih (fun s hs j hj => hstep s hs j (List.mem_cons_of_mem i hj)) (hinv s i hs)
    rw [run, hrest, hstep s hs i List.mem_cons_self]
    simp [or_assoc]

theorem run_relation (rel : σ → σ → List ω → Prop) (hrefl : ∀ s, rel s s [])
    (htrans : ∀ s s' s'' l l', rel s s' l → rel s' s'' l' → rel s s'' (l ++ l'))
    (hstep : ∀ s, ∀ i ∈ is, rel s (step s i).1 (step s i).2) (s : σ) :
    rel s (run step s is).1 (run step s is).2 := by
  induction is generalizing s with
  | nil => exact hrefl s
  | cons i is ih =>
    have hrest := ih (fun s j hj => hstep s j (List.mem_cons_of_mem i hj)) (step s i).1
    exact htrans _ _ _ _ _ (hstep s i List.mem_cons_self) hrest

theorem run_countP_eq_zero (inv : σ → Prop) {p : ω → Bool} (hinv : ∀ s i, inv s → inv (step s i).1)
    (h : ∀ s, inv s → ∀ i ∈ is, (step s i).2.countP p = 0) (hs : inv s) :
    (run step s is).2.countP p = 0 := by
  induction is generalizing s with
  | nil => rfl
  | cons i is ih =>
    have hrest := ih (fun s hs j hj => h s hs j (List.mem_cons_of_mem i hj)) (hinv s i hs)
    rw [run, List.countP_append, h s hs i List.mem_cons_self, hrest]

theorem run_countP_le_one (inv : σ → Prop) {p : ω → Bool} (i₀ : ι)
    (hinv : ∀ s i, inv s → inv (step s i).1)
    (hother : ∀ s i, inv s → i ≠ i₀ → (step s i).2.countP p = 0)
    (honce : ∀ s, inv s → (step s i₀).2.countP p ≤ 1) (hn : is.Nodup) (hs : inv s) :
    (run step s is).2.countP p ≤ 1 := by
  induction is generalizing s with
  | nil => exact Nat.zero_le 1
  | cons i is ih =>
    obtain ⟨hi, hn⟩ := List.nodup_cons.mp hn
    rw [run, List.countP_append]
    by_cases he : i = i₀
    · subst he
      have hrest := run_countP_eq_zero inv hinv
        (fun s hs j hj => hother s j hs fun he => hi (he ▸ hj)) (hinv s i hs)
      rw [hrest]
      exact honce s hs
    · rw [hother s i hs he, Nat.zero_add]
      exact ih hn (hinv s i hs)

theorem run_clears {flag : σ → Bool} (hs : flag s = true) (he : flag (run step s is).1 = false) :
    ∃ before i after, is = before ++ i :: after ∧ flag (run step s before).1 = true ∧
      flag (step (run step s before).1 i).1 = false := by
  induction is generalizing s with
  | nil => exact absurd (hs.symm.trans he) (by decide)
  | cons i is ih =>
    cases hi : flag (step s i).1 with
    | false => exact ⟨[], i, is, rfl, hs, hi⟩
    | true =>
      obtain ⟨before, j, after, rfl, hb, hj⟩ := ih hi he
      exact ⟨i :: before, j, after, rfl, hb, hj⟩

theorem length_run_le (way : σ → Nat) (hstep : ∀ s i, ok s i → way (step s i).1 < way s)
    (h : Along step ok s is) : is.length + way (run step s is).1 ≤ way s := by
  induction is generalizing s with
  | nil => exact Nat.le_of_eq (Nat.zero_add _)
  | cons i is ih =>
    have hrest := ih h.2
    have hnear := hstep s i h.1
    simp only [run, List.length_cons]
    omega

end Lib
