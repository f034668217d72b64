import BitchatRepeater.CircularBufferLaws

/-!
# Writing a text in pieces

A text reaches the log in single characters and in strings. Each write appends
and drops the oldest characters, if it finds the buffer ready; so do all of them
together, and the split shows nowhere. A single character is not ready for a full
buffer whose tail is at the start of the array: it makes the head meet the tail.
-/

namespace BitchatRepeater.CircularBuffer

open Lib

variable {b b' : CircularBuffer UInt8}

-- ---------------------------------------------------------------------------
-- Pieces
-- ---------------------------------------------------------------------------

inductive Piece
  | item (char : UInt8)
  | text (chars : Bytes)
  deriving DecidableEq, Repr

def Piece.chars : Piece → Bytes
  | .item char => [char]
  | .text chars => chars

def Piece.call : Piece → Call
  | .item char => .writeItem char
  | .text chars => .write chars

def Piece.Ready (b : CircularBuffer UInt8) : Piece → Prop
  | .item _ => ItemReady b
  | .text chars => chars.length < 2 ^ 16 ∧ CircularBuffer.Ready b chars

instance decidableItemReady (b : CircularBuffer UInt8) : Decidable (ItemReady b) :=
  inferInstanceAs (Decidable (b.size + 1 = b.fixedSize → b.maxed))

instance decidableReady (b : CircularBuffer UInt8) (s : Bytes) : Decidable (Ready b s) :=
  inferInstanceAs (Decidable ((s = [] → ∀ i < b.size, (b.tail + i) % b.fixedSize ≠ 1) ∧
    (s ≠ [] → b.size + 1 = b.fixedSize → b.maxed ∨ b.tail = 0 ∨ b.fixedSize ≤ s.length)))

instance decidablePieceReady (b : CircularBuffer UInt8) : DecidablePred (Piece.Ready b)
  | .item _ => decidableItemReady b
  | .text chars =>
    inferInstanceAs (Decidable (chars.length < 2 ^ 16 ∧ CircularBuffer.Ready b chars))

/-- Every write of the split finds the buffer ready. -/
def PiecesReady (b : CircularBuffer UInt8) : List Piece → Prop
  | [] => True
  | p :: ps => p.Ready b ∧ ∀ r ∈ b.call p.call, PiecesReady r.1 ps

/-- Where the buffer is not ready for a character, the character empties it. -/
theorem writeItem_empty_iff (h : Ok b) (hn : 2 ≤ b.fixedSize) (char : UInt8) :
    (b.writeItem char).empty ↔ ¬ ItemReady b := by
  constructor
  · intro he hr
    have hheld := held_writeItem h hr char
    rw [(ok_writeItem h char).empty_iff.mp he] at hheld
    exact rtake_ne_nil (by omega) (by simp) hheld.symm
  · intro hr
    obtain ⟨hfull, hm⟩ := Classical.not_imp.mp hr
    have hround : (b.head + 1) % b.fixedSize = b.tail := by
      rw [h.head_add, Nat.add_assoc, hfull, Nat.add_mod_right, Nat.mod_eq_of_lt h.tail_lt]
    simp [empty, writeItem, setCell, hm, hround]

-- ---------------------------------------------------------------------------
-- All pieces together
-- ---------------------------------------------------------------------------

/-- What a write that appends leaves behind. -/
structure Appended (b b' : CircularBuffer UInt8) (chars : Bytes) : Prop extends Ok b' where
  fixedSize : b'.fixedSize = b.fixedSize
  held : b'.held = (b.held ++ chars).rtake (b.fixedSize - 1)

theorem Appended.not_empty (h : Appended b b' chars) (hok : Ok b) (hn : 2 ≤ b.fixedSize)
    (hb : ¬ b.empty) :
    ¬ b'.empty := by
  rw [hok.empty_iff] at hb
  rw [h.toOk.empty_iff, h.held]
  exact rtake_ne_nil (by omega) (List.append_ne_nil_of_left_ne_nil hb chars)

theorem Appended.trans {b₁ : CircularBuffer UInt8} (h : Appended b b₁ s) (h' : Appended b₁ b' t) :
    Appended b b' (s ++ t) := by
  refine ⟨h'.toOk, h'.fixedSize.trans h.fixedSize, ?_⟩
  rw [h'.held, h.held, h.fixedSize, rtake_rtake_append, List.append_assoc]

theorem appended_write (h : Ok b) (hz : ∀ x ∈ s, x ≠ 0) (hr : s.length < 2 ^ 16 ∧ Ready b s) :
    ∃ b', b.write s = some b' ∧ Appended b b' s := by
  obtain ⟨b', hw, hheld⟩ := held_write h hz hr.1 hr.2
  obtain ⟨hok, hfixed, -⟩ := ok_write h hw
  exact ⟨b', hw, hok, hfixed, hheld⟩

theorem appended_piece (h : Ok b) (p : Piece) (hz : ∀ x ∈ p.chars, x ≠ 0) (hr : p.Ready b) :
    ∃ b', b.call p.call = some (b', []) ∧ Appended b b' p.chars := by
  cases p with
  | item char => exact ⟨b.writeItem char, rfl, ok_writeItem h char, rfl, held_writeItem h hr char⟩
  | text chars =>
    obtain ⟨b', hw, ha⟩ := appended_write h hz hr
    refine ⟨b', ?_, ha⟩
    rw [Piece.chars] at hw
    simp [Piece.call, call, hw]

theorem appended_pieces (h : Ok b) (ps : List Piece) (hz : ∀ x ∈ ps.flatMap Piece.chars, x ≠ 0)
    (hr : PiecesReady b ps) :
    ∃ b' outs, b.calls (ps.map Piece.call) = some (b', outs) ∧
    Appended b b' (ps.flatMap Piece.chars) := by
  induction ps generalizing b with
  | nil =>
    have hlt := h.size_lt
    refine ⟨b, [], rfl, h, rfl, ?_⟩
    rw [List.flatMap_nil, List.append_nil, rtake_of_length_le (by rw [length_held]; omega)]
  | cons p ps ih =>
    rw [List.flatMap_cons, List.forall_mem_append] at hz
    obtain ⟨b₁, hcall, ha⟩ := appended_piece h p hz.1 hr.1
    obtain ⟨b₂, outs, hcalls, ha'⟩ := ih ha.toOk hz.2 (hr.2 _ hcall)
    exact ⟨b₂, [] :: outs, by simp [calls, hcall, hcalls], ha.trans ha'⟩

theorem PiecesReady.rest (pre post : List Piece) (h : PiecesReady b (pre ++ post)) :
    PiecesReady b pre ∧ ∀ r ∈ b.calls (pre.map Piece.call), PiecesReady r.1 post := by
  induction pre generalizing b with
  | nil =>
    refine ⟨trivial, fun r hr => ?_⟩
    cases hr
    exact h
  | cons p pre ih =>
    obtain ⟨hp, hrest⟩ := h
    refine ⟨⟨hp, fun r hr => (ih (hrest r hr)).1⟩, fun r hr => ?_⟩
    simp only [List.map_cons, calls, Option.bind_eq_bind, Option.mem_def,
      Option.bind_eq_some_iff] at hr
    obtain ⟨r₁, hcall, r₂, hcalls, he⟩ := hr
    cases he
    exact (ih (hrest r₁ hcall)).2 r₂ hcalls

/-- Writes that find the buffer ready leave in it what the whole text leaves, and
none of them empties it. -/
theorem pieces_eq_whole (size : UInt16) (memory : Nat → UInt8) (cs : List Call) (outs : List Bytes)
    (b : CircularBuffer UInt8) (ps : List Piece) (hn : 2 ≤ size.toNat)
    (hc : (new size memory).calls cs = some (b, outs)) (hz : ∀ x ∈ ps.flatMap Piece.chars, x ≠ 0)
    (hps : PiecesReady b ps) (hwhole : (Piece.text (ps.flatMap Piece.chars)).Ready b) :
    (∃ b₁ outs₁ b₂, b.calls (ps.map Piece.call) = some (b₁, outs₁) ∧
      b.write (ps.flatMap Piece.chars) = some b₂ ∧ b₁.held = b₂.held ∧ (¬ b.empty → ¬ b₂.empty)) ∧
    ∀ pre p post, ps = pre ++ p :: post → ∀ b₁ outs₁ b₂ out,
      b.calls (pre.map Piece.call) = some (b₁, outs₁) → b₁.call p.call = some (b₂, out) →
        ¬ b₁.empty → ¬ b₂.empty := by
  obtain ⟨hok, hfixed⟩ := ok_calls size memory (Nat.zero_lt_of_lt hn) hc
  rw [← hfixed] at hn
  constructor
  · obtain ⟨b₁, outs₁, hcalls, h₁⟩ := appended_pieces hok ps hz hps
    obtain ⟨b₂, hw, h₂⟩ := appended_write hok hz hwhole
    exact ⟨b₁, outs₁, b₂, hcalls, hw, h₁.held.trans h₂.held.symm, h₂.not_empty hok hn⟩
  · rintro pre p post rfl b₁ outs₁ b₂ out hcalls hcall
    rw [List.flatMap_append, List.flatMap_cons, List.forall_mem_append,
      List.forall_mem_append] at hz
    obtain ⟨hpre, hrest⟩ := hps.rest pre (p :: post)
    obtain ⟨b₁', outs₁', hcalls', h₁⟩ := appended_pieces hok pre hz.1 hpre
    cases hcalls.symm.trans hcalls'
    obtain ⟨b₂', hcall', h₂⟩ := appended_piece h₁.toOk p hz.2.1 (hrest _ hcalls).1
    cases hcall.symm.trans hcall'
    exact h₂.not_empty h₁.toOk (h₁.fixedSize.symm ▸ hn)

theorem pieces_of_defghijk :
    let ps : List Piece := [.item 0x64, .text [], .text [0x65, 0x66, 0x67, 0x68, 0x69, 0x6A, 0x6B]]
    ∃ b, (new 8 fun _ => 0).calls [.write [0x61, 0x62, 0x63], .consumeBlock] =
        some (b, [[], [0x61, 0x62, 0x63]]) ∧
      ∃ b₁ outs₁ b₂, b.calls (ps.map Piece.call) = some (b₁, outs₁) ∧
        b.write (ps.flatMap Piece.chars) = some b₂ ∧ b₁.held = b₂.held ∧
        (¬ b.empty → ¬ b₂.empty) := by
  intro ps
  refine ⟨_, rfl, (pieces_eq_whole 8 (fun _ => 0) [.write [0x61, 0x62, 0x63], .consumeBlock] _ _ ps
    (by decide) rfl (by decide +kernel) ?_ (by decide +kernel)).1⟩
  refine ⟨by decide +kernel, fun r hr => ?_⟩
  cases hr
  refine ⟨by decide +kernel, fun r hr => ?_⟩
  cases hr
  exact ⟨by decide +kernel, fun _ _ => trivial⟩

/-- Three characters fill the buffer of four cells. The next one empties it, the
string of that one character does not. -/
theorem item_empties_full :
    ∃ b b₂, (new 4 fun _ => 0).calls [.write [0x61, 0x62, 0x63]] = some (b, [[]]) ∧
      b.empty = false ∧ (b.writeItem 0x64).empty = true ∧ (b.writeItem 0x64).held = [] ∧
      b.write [0x64] = some b₂ ∧ b₂.held = [0x62, 0x63, 0x64] := by
  refine ⟨_, _, rfl, ?_, ?_, ?_, rfl, ?_⟩
  · decide +kernel
  · decide +kernel
  · decide +kernel
  · decide +kernel

end BitchatRepeater.CircularBuffer
