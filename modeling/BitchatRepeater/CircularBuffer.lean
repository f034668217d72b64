import Mathlib.Data.UInt
import BitchatRepeater.Wire
import BitchatRepeater.Lib.Ring

/-!
# The log buffer

`CircularBuffer`, with the memory as a function of the index. There is one cell
more than `fixedSize`, for the end item behind the last one; its contents and
those of all other cells are arbitrary at first. Head and tail are 16 bit numbers
below the size; the sums are computed in `int`, so `tail - 1` may be negative.
Reading past the extra cell is undefined, and a loop whose 16 bit counter comes
round again never ends; both show as `none`. The lock is left out.
-/

namespace BitchatRepeater

open Lib

structure CircularBuffer (α : Type) where
  buffer : Nat → α
  fixedSize : Nat
  head : Nat := 0
  tail : Nat := 0
  maxed : Bool := false
  willClearIfEmpty : Bool := false

namespace CircularBuffer

variable {α : Type}

def new (size : UInt16) (memory : Nat → α) : CircularBuffer α :=
  { buffer := memory, fixedSize := size.toNat }

def empty (b : CircularBuffer α) : Bool := b.head = b.tail

def full (b : CircularBuffer α) : Bool := b.maxed

def setCell (b : CircularBuffer α) (i : Nat) (item : α) : CircularBuffer α :=
  { b with buffer := Function.update b.buffer i item }

/-- A `memcpy` out of the buffer. -/
def copy (b : CircularBuffer α) (start len : Nat) : List α :=
  (List.range len).map fun i => b.buffer (start + i)

section Writing
variable [Zero α]

/-- The overload for a single item. -/
def writeItem (b : CircularBuffer α) (item : α) : CircularBuffer α :=
  let b := { (b.setCell b.head item).setCell (b.head + 1) 0 with willClearIfEmpty := false }
  let tail := if b.maxed then (b.head + 2) % b.fixedSize else b.tail
  let head := (b.head + 1) % b.fixedSize
  { b with head, tail, maxed := head + 1 = tail }

/-- The condition under which the loop of the string overload sets `maxed`. -/
def reaches (b : CircularBuffer α) (pos : Nat) : Bool :=
  (pos + 1) % b.fixedSize + 1 = b.tail || b.tail = 0 && pos = b.fixedSize - 1

/-- The loop of the string overload, with at most `fuel` tests of its condition. -/
def writeLoop [DecidableEq α] (items : List α) : Nat → CircularBuffer α → Nat → Nat →
    Option (CircularBuffer α × Nat × Nat)
  | 0, _, _, _ => none
  | fuel + 1, b, pos, count =>
    -- behind the list stands the end item
    let item := items.getD count 0
    if item = 0 then some (b, pos, count)
    else
      let pos := (b.head + count) % b.fixedSize
      let b := { b.setCell pos item with maxed := b.maxed || b.reaches pos }
      writeLoop items fuel b pos ((count + 1) % 2 ^ 16)

/-- The overload for a zero-terminated string. -/
def write [DecidableEq α] (b : CircularBuffer α) (items : List α) : Option (CircularBuffer α) :=
  (writeLoop items (items.length + 1) { b with willClearIfEmpty := false } 0 0).map
    fun (b, pos, count) =>
      let b := b.setCell (pos + 1) 0
      let tail := if b.maxed then (b.head + count + 1) % b.fixedSize else b.tail
      let head := (b.head + count) % b.fixedSize
      { b with head, tail, maxed := head + 1 = tail }

def clear (b : CircularBuffer α) : CircularBuffer α :=
  { b.setCell 0 0 with head := 0, tail := 0, maxed := false }

end Writing

def clearIfEmpty (b : CircularBuffer α) : CircularBuffer α :=
  let b := { b with willClearIfEmpty := true }
  if b.empty && b.willClearIfEmpty then { b with head := 0, tail := 0, maxed := false } else b

def consume [Zero α] (b : CircularBuffer α) : CircularBuffer α × α :=
  if b.empty then (b, 0)
  else ({ b with tail := (b.tail + 1) % b.fixedSize, maxed := false }, b.buffer b.tail)

def wraps (b : CircularBuffer α) : Bool := b.head ≤ b.tail && !b.empty

def consumable (b : CircularBuffer α) : Nat := (if b.wraps then b.fixedSize else b.head) - b.tail

/-- The overload that hands out a pointer into the buffer. -/
def consumeBlock (b : CircularBuffer α) : CircularBuffer α × List α :=
  ({ b with tail := if b.wraps then 0 else b.head, maxed := false }, b.copy b.tail b.consumable)

/-- The overload that copies into a block. -/
def consumeBlockInto (b : CircularBuffer α) (blockSize : UInt16) : CircularBuffer α × List α :=
  let willConsume := min blockSize.toNat b.consumable
  let tail :=
    if blockSize.toNat < b.consumable then (b.tail + willConsume) % b.fixedSize
    else if b.wraps then 0 else b.head
  ({ b with tail, maxed := false }, b.copy b.tail willConsume)

-- ---------------------------------------------------------------------------
-- Lines
-- ---------------------------------------------------------------------------

def newline : UInt8 := 0x0A

/-- `std::strchr(&buffer[start], '\n')`: the index of the newline, `some none`
where the string ends before one. -/
def strchr (b : CircularBuffer UInt8) (start : Nat) : Option (Option Nat) :=
  go (b.fixedSize + 1 - start) start
where
  go : Nat → Nat → Option (Option Nat)
    | 0, _ => none
    | cells + 1, i =>
      if b.buffer i = newline then some (some i)
      else if b.buffer i = 0 then some none
      else go cells (i + 1)

/-- The second half of `consume_line`, behind `writtenOut` characters already
copied into the line. -/
def finishLine (b : CircularBuffer UInt8) (lineSize writtenOut tail consumable willConsume : Nat)
    (lineEnd : Option Nat) (line : Bytes) : CircularBuffer UInt8 × Bytes :=
  let lineExtra := match lineEnd with
    | none => willConsume
    | some i => min willConsume ((i - tail + 1) % 2 ^ 16)
  let next :=
    if writtenOut + lineExtra ≤ consumable then (tail + lineExtra) % b.fixedSize
    else if b.head ≤ tail && !b.empty then
      match lineEnd with
      | none => writtenOut + willConsume
      | some _ => lineSize
    else b.head
  ({ b with tail := next, maxed := false }, line ++ b.copy tail lineExtra)

/-- The specialisation for `char`: the line and the buffer behind it. -/
def consumeLine (b : CircularBuffer UInt8) (lineSize : UInt16) :
    Option (CircularBuffer UInt8 × Bytes) := do
  let willConsume := min lineSize.toNat b.consumable
  match ← b.strchr b.tail with
  | some i => return b.finishLine lineSize.toNat 0 b.tail b.consumable willConsume (some i) []
  | none =>
    let line := b.copy b.tail willConsume
    if b.consumable = willConsume then
      if b.wraps then
        match ← b.strchr 0 with
        | some i =>
          let extra := min (lineSize.toNat - willConsume) ((i + 1) % 2 ^ 16)
          return ({ b with tail := extra % b.fixedSize, maxed := false }, line ++ b.copy 0 extra)
        | none => return ({ b with tail := 0, maxed := false }, line)
      else return ({ b with tail := b.head, maxed := false }, line)
    else
      let tail := b.tail + willConsume
      let lineEnd ← b.strchr tail
      return b.finishLine lineSize.toNat willConsume tail b.head
        (min (lineSize.toNat - willConsume) b.head) lineEnd line

-- ---------------------------------------------------------------------------
-- Calls
-- ---------------------------------------------------------------------------

inductive Call
  | writeItem (item : UInt8)
  | write (items : Bytes)
  | consume
  | consumeBlock
  | consumeBlockInto (blockSize : UInt16)
  | consumeLine (lineSize : UInt16)
  | clear
  | clearIfEmpty
  deriving DecidableEq, Repr

def call (b : CircularBuffer UInt8) : Call → Option (CircularBuffer UInt8 × Bytes)
  | .writeItem item => some (b.writeItem item, [])
  | .write items => (b.write items).map fun b => (b, [])
  | .consume => some (b.consume.1, if b.empty then [] else [b.consume.2])
  | .consumeBlock => some b.consumeBlock
  | .consumeBlockInto blockSize => some (b.consumeBlockInto blockSize)
  | .consumeLine lineSize => b.consumeLine lineSize
  | .clear => some (b.clear, [])
  | .clearIfEmpty => some (b.clearIfEmpty, [])

def calls (b : CircularBuffer UInt8) : List Call → Option (CircularBuffer UInt8 × List Bytes)
  | [] => some (b, [])
  | c :: cs => do
    let (b, out) ← b.call c
    let (b, outs) ← b.calls cs
    return (b, out :: outs)

end CircularBuffer

end BitchatRepeater
