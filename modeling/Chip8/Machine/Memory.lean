import Chip8.Machine.Error
import Chip8.Platform

/-!
# Memory

Memory is read and written in blocks. A block lies in memory as a whole or the
access is refused, and a refusal names the last address of the block. An empty
block is refused too when it starts beyond the end of memory.

## Main definitions

* `overlay`: A vector with a block of other values laid over it.
* `Memory`: The bytes of memory.
* `Memory.block`, `Memory.write`: Access in blocks.
* `Memory.ofProgram`: Memory as it is when a program starts.

## Theorems

* `getElem_overlay`: What a block that has been laid over a vector changes.
-/

namespace Chip8

/-- A vector with a block laid over it from a position on. What sticks out
    behind the end is dropped. -/
def overlay {α : Type} {n : Nat} (cells : Vector α n) (start : Nat) : List α → Vector α n
  | [] => cells
  | cell :: rest => overlay (cells.setIfInBounds start cell) (start + 1) rest

/-- Below the block and behind it, cells are what they were. -/
theorem getElem_overlay {α : Type} {n : Nat} (cells : Vector α n) (start : Nat) (block : List α)
    (k : Nat) (hk : k < n) :
    (overlay cells start block)[k] =
      if start ≤ k then block.getD (k - start) cells[k] else cells[k] := by
  induction block generalizing cells start with
  | nil => simp [overlay]
  | cons cell rest ih =>
      rw [overlay, ih, Vector.getElem_setIfInBounds]
      -- A cell lies below the block, or it is its first, or it lies further on.
      rcases Nat.lt_trichotomy k start with hlt | rfl | hgt
      · rw [if_neg (show ¬start + 1 ≤ k by omega), if_neg (show ¬start = k by omega),
          if_neg (show ¬start ≤ k by omega)]
      · rw [if_neg (show ¬k + 1 ≤ k by omega), if_pos rfl, if_pos (Nat.le_refl k), Nat.sub_self,
          List.getD_cons_zero]
      · rw [if_pos (show start + 1 ≤ k by omega), if_neg (show ¬start = k by omega),
          if_pos (show start ≤ k by omega), show k - start = (k - (start + 1)) + 1 by omega,
          List.getD_cons_succ]

/-- The bytes of memory. -/
abbrev Memory := Vector UInt8 memorySize

namespace Memory

/-- Memory of which every byte is zero. -/
def blank : Memory :=
  Vector.replicate memorySize 0

/-- The bytes from an address on. -/
def block (m : Memory) (address length : Nat) : Except ExecutionError (List UInt8) :=
  if h : address + length ≤ memorySize then
    .ok (List.ofFn fun k : Fin length => m[address + k.val])
  else .error (.outOfBounds (address + length - 1))

/-- Memory with other bytes from an address on. -/
def write (m : Memory) (address : Nat) (bytes : List UInt8) : Except ExecutionError Memory :=
  if address + bytes.length ≤ memorySize then .ok (overlay m address bytes)
  else .error (.outOfBounds (address + bytes.length - 1))

/-- The glyphs at the start, the program at its address, zero elsewhere. -/
def ofProgram (program : List UInt8) : Memory :=
  overlay (overlay blank 0 glyphs) programStart program

end Memory

end Chip8
