import Mathlib.Tactic.IntervalCases

/-!
# Big-endian words

Joining bytes into a 16 or 64 bit word by shifts and splitting a word into its
bytes, most significant byte first, are inverse to each other. Words are
compared bit by bit.
-/

namespace Lib

def join16 (b₀ b₁ : UInt8) : UInt16 := b₀.toUInt16 <<< 8 ||| b₁.toUInt16

def split16 (n : UInt16) : List UInt8 := [(n >>> 8).toUInt8, n.toUInt8]

def join64 (b₀ b₁ b₂ b₃ b₄ b₅ b₆ b₇ : UInt8) : UInt64 :=
  b₀.toUInt64 <<< 56 ||| b₁.toUInt64 <<< 48 ||| b₂.toUInt64 <<< 40 ||| b₃.toUInt64 <<< 32 |||
    b₄.toUInt64 <<< 24 ||| b₅.toUInt64 <<< 16 ||| b₆.toUInt64 <<< 8 ||| b₇.toUInt64

def split64 (n : UInt64) : List UInt8 :=
  [(n >>> 56).toUInt8, (n >>> 48).toUInt8, (n >>> 40).toUInt8, (n >>> 32).toUInt8,
    (n >>> 24).toUInt8, (n >>> 16).toUInt8, (n >>> 8).toUInt8, n.toUInt8]

@[simp] theorem length_split16 (n : UInt16) : (split16 n).length = 2 := rfl
@[simp] theorem length_split64 (n : UInt64) : (split64 n).length = 8 := rfl

theorem join16_split (n : UInt16) : join16 (n >>> 8).toUInt8 n.toUInt8 = n := by
  apply UInt16.toBitVec_inj.mp
  apply BitVec.eq_of_getLsbD_eq
  intro i hi
  simp only [join16, UInt16.toBitVec_or, UInt16.toBitVec_shiftLeft, UInt8.toBitVec_toUInt16,
    UInt16.toBitVec_toUInt8, UInt16.toBitVec_shiftRight, UInt16.toBitVec_ofNat,
    BitVec.ofNat_eq_ofNat,
    BitVec.reduceMod, BitVec.ushiftRight_eq', BitVec.shiftLeft_eq', BitVec.toNat_ofNat,
    Nat.reducePow,
    Nat.reduceMod, BitVec.getLsbD_or, BitVec.getLsbD_shiftLeft, BitVec.getLsbD_setWidth,
    BitVec.getLsbD_ushiftRight]
  interval_cases i <;>
    simp only [Nat.reduceLT, Nat.reduceSub, Nat.reduceAdd, decide_true, decide_false, Bool.not_true,
      Bool.not_false, Bool.true_and, Bool.and_true, Bool.false_and, Bool.and_false, Bool.or_false,
      Bool.false_or]

theorem split16_join (b₀ b₁ : UInt8) : split16 (join16 b₀ b₁) = [b₀, b₁] := by
  simp only [split16, List.cons.injEq, and_true]
  refine ⟨?_, ?_⟩
  all_goals
    apply UInt8.toBitVec_inj.mp
    apply BitVec.eq_of_getLsbD_eq
    intro i hi
    simp only [join16, UInt16.toBitVec_or, UInt16.toBitVec_shiftLeft, UInt8.toBitVec_toUInt16,
      UInt16.toBitVec_toUInt8, UInt16.toBitVec_shiftRight, UInt16.toBitVec_ofNat,
      BitVec.ofNat_eq_ofNat,
      BitVec.reduceMod, BitVec.ushiftRight_eq', BitVec.shiftLeft_eq', BitVec.toNat_ofNat,
      Nat.reducePow,
      Nat.reduceMod, BitVec.getLsbD_or, BitVec.getLsbD_shiftLeft, BitVec.getLsbD_setWidth,
      BitVec.getLsbD_ushiftRight]
    interval_cases i <;> simp

theorem join64_split (n : UInt64) :
    join64 (n >>> 56).toUInt8 (n >>> 48).toUInt8 (n >>> 40).toUInt8 (n >>> 32).toUInt8
      (n >>> 24).toUInt8 (n >>> 16).toUInt8 (n >>> 8).toUInt8 n.toUInt8 = n := by
  apply UInt64.toBitVec_inj.mp
  apply BitVec.eq_of_getLsbD_eq
  intro i hi
  simp only [join64, UInt64.toBitVec_or, UInt64.toBitVec_shiftLeft, UInt8.toBitVec_toUInt64,
    UInt64.toBitVec_toUInt8, UInt64.toBitVec_shiftRight, UInt64.toBitVec_ofNat,
    BitVec.ofNat_eq_ofNat,
    BitVec.reduceMod, BitVec.ushiftRight_eq', BitVec.shiftLeft_eq', BitVec.toNat_ofNat,
    Nat.reducePow,
    Nat.reduceMod, BitVec.getLsbD_or, BitVec.getLsbD_shiftLeft, BitVec.getLsbD_setWidth,
    BitVec.getLsbD_ushiftRight]
  interval_cases i <;>
    simp only [Nat.reduceLT, Nat.reduceSub, Nat.reduceAdd, decide_true, decide_false, Bool.not_true,
      Bool.not_false, Bool.true_and, Bool.and_true, Bool.false_and, Bool.and_false, Bool.or_false,
      Bool.false_or]

theorem split64_join (b₀ b₁ b₂ b₃ b₄ b₅ b₆ b₇ : UInt8) :
    split64 (join64 b₀ b₁ b₂ b₃ b₄ b₅ b₆ b₇) = [b₀, b₁, b₂, b₃, b₄, b₅, b₆, b₇] := by
  simp only [split64, List.cons.injEq, and_true]
  refine ⟨?_, ?_, ?_, ?_, ?_, ?_, ?_, ?_⟩
  all_goals
    apply UInt8.toBitVec_inj.mp
    apply BitVec.eq_of_getLsbD_eq
    intro i hi
    simp only [join64, UInt64.toBitVec_or, UInt64.toBitVec_shiftLeft, UInt8.toBitVec_toUInt64,
      UInt64.toBitVec_toUInt8, UInt64.toBitVec_shiftRight, UInt64.toBitVec_ofNat,
      BitVec.ofNat_eq_ofNat,
      BitVec.reduceMod, BitVec.ushiftRight_eq', BitVec.shiftLeft_eq', BitVec.toNat_ofNat,
      Nat.reducePow,
      Nat.reduceMod, BitVec.getLsbD_or, BitVec.getLsbD_shiftLeft, BitVec.getLsbD_setWidth,
      BitVec.getLsbD_ushiftRight]
    interval_cases i <;> simp

end Lib
