import Mathlib.Data.List.Forall2

/-!
# Input made of items

A format that is a sequence of items, each of which says at its beginning how
long it is. `skip` goes over one item; it can fail in two ways, that the item
says it is longer than what is left, or that the input ends before the item has
said its length. `walk` goes over a sequence of items and stops at the first
that fails; it is complete exactly on the inputs that begin with an encoding of
the items. A lenient reader, `readAll`, takes an item that does not say its
length for an empty one and stays where it is.
-/

namespace Lib

variable {ι β : Type}

inductive Skip (β : Type)
  | on (rest : List β)
  | overrun
  | cut (left : List β)
  deriving DecidableEq, Repr

/-- How a walk ends; at a cut, the items behind the one that is cut are given. -/
inductive Walk (ι β : Type)
  | complete (rest : List β)
  | overrun
  | cut (items : List ι) (left : List β)
  deriving DecidableEq, Repr

def walk (skip : ι → List β → Skip β) : List ι → List β → Walk ι β
  | [], input => .complete input
  | i :: is, input =>
    match skip i input with
    | .on rest => walk skip is rest
    | .overrun => .overrun
    | .cut left => .cut is left

def Skip.lenient : Skip β → Option (List β)
  | on rest => some rest
  | overrun => none
  | cut left => some left

def readAll (skip : ι → List β → Skip β) : List ι → List β → Option (List β)
  | [], input => some input
  | i :: is, input => (skip i input).lenient.bind (readAll skip is)

variable {skip : ι → List β → Skip β}

theorem readAll_append (is js : List ι) (input : List β) :
    readAll skip (is ++ js) input = (readAll skip is input).bind (readAll skip js) := by
  induction is generalizing input with
  | nil => rfl
  | cons i is ih =>
    rw [List.cons_append, readAll, readAll, Option.bind_assoc]
    exact congrArg _ (funext ih)

theorem readAll_eq (is : List ι) (input : List β) :
    readAll skip is input =
      match walk skip is input with
      | .complete rest => some rest
      | .overrun => none
      | .cut items left => readAll skip items left := by
  induction is generalizing input with
  | nil => rfl
  | cons i is ih =>
    cases h : skip i input with
    | on rest => simp [readAll, walk, h, Skip.lenient, ih]
    | overrun => simp [readAll, walk, h, Skip.lenient]
    | cut left => simp [readAll, walk, h, Skip.lenient]

/-- If `skip` is exact for each item, then a walk is for a sequence of them. -/
theorem walk_complete {encodes : ι → List β → Prop}
    (h : ∀ i input rest, skip i input = .on rest ↔
      ∃ piece, encodes i piece ∧ input = piece ++ rest) :
    walk skip is input = .complete rest ↔
      ∃ pieces, List.Forall₂ encodes is pieces ∧ input = pieces.flatten ++ rest := by
  induction is generalizing input with
  | nil =>
    simp only [walk, Walk.complete.injEq, List.forall₂_nil_left_iff, exists_eq_left,
      List.flatten_nil, List.nil_append]
  | cons i is ih =>
    constructor
    · intro hw
      cases hs : skip i input with
      | on next =>
        simp only [walk, hs] at hw
        obtain ⟨piece, hp, rfl⟩ := (h i input next).mp hs
        obtain ⟨pieces, hps, rfl⟩ := ih.mp hw
        exact ⟨piece :: pieces, .cons hp hps, by simp⟩
      | overrun => simp [walk, hs] at hw
      | cut left => simp [walk, hs] at hw
    · rintro ⟨_, hall, rfl⟩
      obtain ⟨piece, pieces, hp, hps, rfl⟩ := List.forall₂_cons_left_iff.mp hall
      have hs := (h i (piece ++ (pieces.flatten ++ rest)) (pieces.flatten ++ rest)).mpr
        ⟨piece, hp, rfl⟩
      rw [List.flatten_cons, List.append_assoc, walk, hs]
      exact ih.mpr ⟨pieces, hps, rfl⟩

end Lib
