import Mathlib.Logic.Function.Iterate
import Mathlib.Order.Basic

/-!
# Rounds that come to rest

A step repeated until it changes nothing more: if each round either finds the
state settled or makes it smaller, as many rounds as the state is large are enough.
-/

namespace Lib

variable {σ : Type} {round : σ → σ} {s : σ}

theorem iterate_invariant (inv : σ → Prop) (hinv : ∀ s, inv s → inv (round s))
    (hs : inv s) (n : Nat) :
    inv (round^[n] s) := by
  induction n with
  | zero => exact hs
  | succ n ih =>
    rw [Function.iterate_succ_apply']
    exact hinv _ ih

theorem iterate_settles (inv settled : σ → Prop) (size : σ → Nat)
    (hinv : ∀ s, inv s → inv (round s)) (hstep : ∀ s, inv s → settled s ∨ size (round s) < size s)
    (hstay : ∀ s, inv s → settled s → settled (round s)) (hs : inv s) (hn : size s ≤ n) :
    settled (round^[n] s) := by
  induction n generalizing s with
  | zero => exact (hstep s hs).resolve_right (by omega)
  | succ n ih =>
    rw [Function.iterate_succ_apply]
    rcases hstep s hs with h | h
    · -- settled states stay so, whatever is left of the rounds
      exact (iterate_invariant (fun s => inv s ∧ settled s)
        (fun s h => ⟨hinv s h.1, hstay s h.1 h.2⟩) ⟨hinv s hs, hstay s hs h⟩ n).2
    · exact ih (hinv s hs) (by omega)

end Lib
