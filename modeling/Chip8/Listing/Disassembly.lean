import Chip8.Listing.Coverage
import Chip8.Listing.Item

/-!
# Disassembly

A listing shows what control reaches as instructions and the rest as data.
Items are laid from left to right: at an offset that control reaches, two
bytes are shown together; elsewhere, one byte is shown as data. Where two
reachable words overlap, the first one wins its bytes.

## Main definitions

* `tile`: Items that cover the bytes from an offset on.
* `Disassembly.items`: The items of a program with their offsets.
* `Disassembly.lines`, `disassemble`: The listing.
-/

namespace Chip8

namespace Disassembly

/-- Items that cover the bytes, which start at the given offset. Those laid
    already are collected in reverse. -/
def tile (isCode : Nat → Bool) (laid : List (Nat × Item)) :
    Nat → List UInt8 → List (Nat × Item)
  | offset, hi :: lo :: rest =>
      if isCode offset then
        match Instruction.decode? (wordOfBytes hi lo) with
        | some i => tile isCode ((offset, .code i) :: laid) (offset + 2) rest
        | none =>
            tile isCode ((offset + 1, .data lo) :: (offset, .data hi) :: laid) (offset + 2) rest
      else tile isCode ((offset, .data hi) :: laid) (offset + 1) (lo :: rest)
  | offset, [b] => ((offset, .data b) :: laid).reverse
  | _, [] => laid.reverse

/-- The items of a program, each with its offset. -/
def items (bytes : List UInt8) : List (Nat × Item) :=
  let marks := Coverage.codeMarks bytes.toArray
  tile (fun offset => marks.getD offset false) [] 0 bytes

/-- The lines of a listing. -/
def lines (bytes : List UInt8) : List Text :=
  (items bytes).map fun placed => placed.2.line placed.1

end Disassembly

/-- The listing of a program, which assembles back to the same bytes. -/
def disassemble (bytes : List UInt8) : Text :=
  Text.terminate (Disassembly.lines bytes)

end Chip8
