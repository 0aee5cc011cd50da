import Chip8.Opcode

/-!
# Instructions

An instruction is an opcode together with operands of its layout. It has three
forms that this module connects: the word of 16 bits, stored in memory with
its upper byte first, the assembly notation, and the addresses that control
may reach from it without looking at the machine.

## Main definitions

* `Instruction`: An opcode with fitting operands.
* `Instruction.word`, `Instruction.bytes`: Its encoded forms.
* `Instruction.decode?`: The instruction that a word encodes, if any.
* `Instruction.text`: Its assembly notation.
* `Instruction.successors`: The addresses that may follow it.
-/

namespace Chip8

/-- An opcode and operands of the layout that the opcode asks for. -/
structure Instruction where
  op : Opcode
  operands : Operands
  layout_eq : operands.layout = op.layout
  deriving DecidableEq, Repr

/-- The word that two bytes form, upper byte first. -/
def wordOfBytes (hi lo : UInt8) : UInt16 :=
  hi.toUInt16 <<< 8 ||| lo.toUInt16

namespace Instruction

/-- The encoded instruction: its fixed bits, and the operands in between. -/
def word (i : Instruction) : UInt16 :=
  i.op.fixedBits ||| i.operands.bits

/-- The encoded instruction as it lies in memory. -/
def bytes (i : Instruction) : List UInt8 :=
  [(i.word >>> 8).toUInt8, i.word.toUInt8]

/-- The instruction that a word encodes. -/
def decode? (word : UInt16) : Option Instruction :=
  (Opcode.ofWord? word).map fun op =>
    ⟨op, op.layout.decode word, Layout.layout_decode op.layout word⟩

/-- The instruction in assembly notation. -/
def text (i : Instruction) : Text :=
  match i.operands with
  | .bare => i.op.mnemonic
  | operands => i.op.mnemonic ++ ' ' :: operands.text

/-- The addresses that control may reach from an instruction at `ip`. There
    are none when the machine alone knows the target. -/
def successors (i : Instruction) (ip : UInt16) : List UInt16 :=
  match i.op with
  | .jmp => [i.operands.nnn]
  | .call | .callptr => [i.operands.nnn, ip + 2]
  | .skeqi | .skneqi | .skeqr | .skneqr | .skeqkey | .skneqkey => [ip + 2, ip + 4]
  | .ret | .brelv0 => []
  | _ => [ip + 2]

end Instruction

end Chip8
