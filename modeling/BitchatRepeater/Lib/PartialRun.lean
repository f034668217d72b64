import Mathlib.Data.List.Basic
import Mathlib.Data.Option.Basic

/-!
# Runs whose steps can fail

A machine whose step has no next state where it fails, so that a run ends at the
first failure. `TryAlong` states a condition on every step that does not fail, in
terms of the state before it. Where such a condition decides whether a step keeps
a property, it decides whether the property holds throughout a run.
-/

namespace Lib

variable {σ ι ω : Type}

def tryRun (step : σ → ι → Option (σ × ω)) : σ → List ι → Option (σ × List ω)
  | s, [] => some (s, [])
  | s, i :: is => do
    let (s, out) ← step s i
    let (s, outs) ← tryRun step s is
    return (s, out :: outs)

def TryAlong (step : σ → ι → Option (σ × ω)) (ok : σ → ι → Prop) : σ → List ι → Prop
  | _, [] => True
  | s, i :: is => ∀ next ∈ step s i, ok s i ∧ TryAlong step ok next.1 is

variable {step : σ → ι → Option (σ × ω)} {ok : σ → ι → Prop} {s : σ}

instance [∀ s i, Decidable (ok s i)] : ∀ s is, Decidable (TryAlong step ok s is)
  | _, [] => isTrue trivial
  | s, i :: is =>
    match h : step s i with
    | none => isTrue fun next hnext => by cases h.symm.trans hnext
    | some next =>
      have := instDecidableTryAlong next.1 is
      decidable_of_iff (ok s i ∧ TryAlong step ok next.1 is) (by simp [TryAlong, h])

theorem tryRun_cons_eq_some : tryRun step s (i :: is) = some r ↔
    ∃ next rest, step s i = some next ∧ tryRun step next.1 is = some rest ∧
      r = (rest.1, next.2 :: rest.2) := by
  simp only [tryRun, Option.bind_eq_bind, Option.bind_eq_some_iff]
  constructor
  · rintro ⟨next, hstep, rest, hrest, he⟩
    exact ⟨next, rest, hstep, hrest, (Option.some.inj he).symm⟩
  · rintro ⟨next, rest, hstep, hrest, rfl⟩
    exact ⟨next, hstep, rest, hrest, rfl⟩

theorem forall_tryRun_append (p : σ → Prop) (s : σ) :
    (∀ r ∈ tryRun step s (is ++ js), p r.1) ↔
      ∀ middle ∈ tryRun step s is, ∀ r ∈ tryRun step middle.1 js, p r.1 := by
  induction is generalizing s with
  | nil =>
    constructor
    · rintro h middle hmiddle r hr
      cases hmiddle
      exact h r hr
    · exact fun h r hr => h (s, []) rfl r hr
  | cons i is ih =>
    constructor
    · rintro h middle hmiddle r hr
      obtain ⟨next, rest, hnext, hrest, rfl⟩ := tryRun_cons_eq_some.mp hmiddle
      refine (ih next.1).mp (fun r' hr' => ?_) rest hrest r hr
      have hlast := h _ (tryRun_cons_eq_some.mpr ⟨next, r', hnext, hr', rfl⟩)
      exact hlast
    · rintro h r hr
      obtain ⟨next, rest, hnext, hrest, rfl⟩ := tryRun_cons_eq_some.mp hr
      refine (ih next.1).mpr (fun middle hmiddle r' hr' => ?_) rest hrest
      exact h _ (tryRun_cons_eq_some.mpr ⟨next, middle, hnext, hmiddle, rfl⟩) r' hr'

theorem tryRun_invariant (inv : σ → Prop)
    (hstep : ∀ s, inv s → ∀ i ∈ is, ∀ next ∈ step s i, inv next.1) (hs : inv s)
    (h : tryRun step s is = some r) : inv r.1 := by
  induction is generalizing s r with
  | nil =>
    cases h
    exact hs
  | cons i is ih =>
    obtain ⟨next, rest, hnext, hrest, rfl⟩ := tryRun_cons_eq_some.mp h
    have hnext' := hstep s hs i List.mem_cons_self next hnext
    have hlast := ih (fun s hs j hj => hstep s hs j (List.mem_cons_of_mem i hj)) hnext' hrest
    exact hlast

theorem tryAlong_of_forall (h : ∀ i ∈ is, ∀ s, ok s i) (s : σ) : TryAlong step ok s is := by
  induction is generalizing s with
  | nil => trivial
  | cons i is ih =>
    exact fun next _ => ⟨h i List.mem_cons_self s,
      ih (fun j hj => h j (List.mem_cons_of_mem i hj)) _⟩

/-- Where a condition on single steps decides whether they keep a property, given
what all steps keep, the property holds of every state on the way just if it
holds at the start and all steps meet the condition. -/
theorem forall_prefix_iff_tryAlong (base inv : σ → Prop)
    (hbase : ∀ s, base s → ∀ i, ∀ next ∈ step s i, base next.1)
    (hstep : ∀ s, base s → inv s → ∀ i, ∀ next ∈ step s i, (inv next.1 ↔ ok s i)) (hs : base s) :
    (∀ before, before <+: is → ∀ r ∈ tryRun step s before, inv r.1) ↔
      inv s ∧ TryAlong step ok s is := by
  induction is generalizing s with
  | nil =>
    constructor
    · intro h
      exact ⟨h [] (List.prefix_refl []) _ rfl, trivial⟩
    · rintro ⟨hinv, -⟩ before hbefore r hr
      cases List.prefix_nil.mp hbefore
      cases hr
      exact hinv
  | cons i is ih =>
    constructor
    · intro h
      have hinv : inv s := h [] List.nil_prefix _ rfl
      refine ⟨hinv, fun next hnext => ?_⟩
      have hrest : ∀ before, before <+: is → ∀ r ∈ tryRun step next.1 before, inv r.1 := by
        intro before hbefore r hr
        have hwhole := tryRun_cons_eq_some.mpr ⟨next, r, hnext, hr, rfl⟩
        have hlast := h (i :: before) (List.cons_prefix_cons.mpr ⟨rfl, hbefore⟩) _ hwhole
        exact hlast
      obtain ⟨hinv', halong⟩ := (ih (hbase s hs i next hnext)).mp hrest
      exact ⟨(hstep s hs hinv i next hnext).mp hinv', halong⟩
    · rintro ⟨hinv, halong⟩ before hbefore r hr
      cases before with
      | nil =>
        cases hr
        exact hinv
      | cons j before =>
        obtain ⟨rfl, hrest⟩ := List.cons_prefix_cons.mp hbefore
        obtain ⟨next, rest, hnext, hr', rfl⟩ := tryRun_cons_eq_some.mp hr
        obtain ⟨hok, halong'⟩ := halong next hnext
        exact (ih (hbase s hs j next hnext)).mpr ⟨(hstep s hs hinv j next hnext).mpr hok, halong'⟩
          before hrest rest hr'

end Lib
