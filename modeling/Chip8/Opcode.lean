import Chip8.Operand.Basic

/-!
# The Instruction Set

The instructions of the machine, one constructor for each mnemonic. An opcode
has a pattern, the bits that are fixed in all of its words, and the layout of
its operands fills the rest.

Patterns overlap: `call` leaves twelve bits open, and `clear` is one of its
words. A word therefore belongs to the opcode that fixes the most of its bits.
`decodeOrder` lists the opcodes from the most to the least specific, and the
first match in that order wins.

## Main definitions

* `Opcode`: The instructions by mnemonic.
* `Opcode.pattern`: Fixed bits and operand layout.
* `Opcode.Matches`: A word has the fixed bits of an opcode.
* `Opcode.all`, `Opcode.decodeOrder`: Every opcode, as declared and as tried.
* `Opcode.ofMnemonic?`, `Opcode.ofWord?`: Looking an opcode up.

## Theorems

* `mem_all`: The list of opcodes is complete.
* `ofMnemonic?_mnemonic`: Every opcode answers to its mnemonic.
-/

namespace Chip8

/-- The instructions of the machine. -/
inductive Opcode where
  | call | clear | ret | jmp | callptr
  | skeqi | skneqi | skeqr
  | li | addi | mov | or | and | xor | add | sub | shr1 | subr | shl1
  | skneqr | loadI | brelv0 | rand | draw
  | skeqkey | skneqkey
  | gdtc | gkey | sdtc | sstc | addI | gsprite | sbcd | regdump | regload
  deriving DecidableEq, Repr

namespace Opcode

/-- Every opcode, by ascending fixed bits as far as these order them. -/
def all : List Opcode :=
  [ .call, .clear, .ret, .jmp, .callptr, .skeqi, .skneqi, .skeqr, .li, .addi, .mov, .or,
    .and, .xor, .add, .sub, .shr1, .subr, .shl1, .skneqr, .loadI, .brelv0, .rand, .draw,
    .skeqkey, .skneqkey, .gdtc, .gkey, .sdtc, .sstc, .addI, .gsprite, .sbcd, .regdump,
    .regload ]

theorem mem_all (op : Opcode) : op ∈ all := by
  cases op <;> decide

/-- The name of an opcode in assembly notation. -/
def mnemonic : Opcode → Text
  | .call => "call".toList
  | .clear => "clear".toList
  | .ret => "ret".toList
  | .jmp => "jmp".toList
  | .callptr => "callptr".toList
  | .skeqi => "skeqi".toList
  | .skneqi => "skneqi".toList
  | .skeqr => "skeqr".toList
  | .li => "li".toList
  | .addi => "addi".toList
  | .mov => "mov".toList
  | .or => "or".toList
  | .and => "and".toList
  | .xor => "xor".toList
  | .add => "add".toList
  | .sub => "sub".toList
  | .shr1 => "shr1".toList
  | .subr => "subr".toList
  | .shl1 => "shl1".toList
  | .skneqr => "skneqr".toList
  | .loadI => "loadI".toList
  | .brelv0 => "brelv0".toList
  | .rand => "rand".toList
  | .draw => "draw".toList
  | .skeqkey => "skeqkey".toList
  | .skneqkey => "skneqkey".toList
  | .gdtc => "gdtc".toList
  | .gkey => "gkey".toList
  | .sdtc => "sdtc".toList
  | .sstc => "sstc".toList
  | .addI => "addI".toList
  | .gsprite => "gsprite".toList
  | .sbcd => "sbcd".toList
  | .regdump => "regdump".toList
  | .regload => "regload".toList

/-- The fixed bits of an opcode and the layout of its operands. -/
def pattern : Opcode → UInt16 × Layout
  | .call => (0x0000, .address)
  | .clear => (0x00E0, .bare)
  | .ret => (0x00EE, .bare)
  | .jmp => (0x1000, .address)
  | .callptr => (0x2000, .address)
  | .skeqi => (0x3000, .registerByte)
  | .skneqi => (0x4000, .registerByte)
  | .skeqr => (0x5000, .registerPair)
  | .li => (0x6000, .registerByte)
  | .addi => (0x7000, .registerByte)
  | .mov => (0x8000, .registerPair)
  | .or => (0x8001, .registerPair)
  | .and => (0x8002, .registerPair)
  | .xor => (0x8003, .registerPair)
  | .add => (0x8004, .registerPair)
  | .sub => (0x8005, .registerPair)
  | .shr1 => (0x8006, .register)
  | .subr => (0x8007, .registerPair)
  | .shl1 => (0x800E, .register)
  | .skneqr => (0x9000, .registerPair)
  | .loadI => (0xA000, .address)
  | .brelv0 => (0xB000, .address)
  | .rand => (0xC000, .registerByte)
  | .draw => (0xD000, .registerPairNibble)
  | .skeqkey => (0xE09E, .register)
  | .skneqkey => (0xE0A1, .register)
  | .gdtc => (0xF007, .register)
  | .gkey => (0xF00A, .register)
  | .sdtc => (0xF015, .register)
  | .sstc => (0xF018, .register)
  | .addI => (0xF01E, .register)
  | .gsprite => (0xF029, .register)
  | .sbcd => (0xF033, .register)
  | .regdump => (0xF055, .register)
  | .regload => (0xF065, .register)

/-- The bits that every word of this opcode has in common. -/
def fixedBits (op : Opcode) : UInt16 :=
  op.pattern.1

/-- The layout of the operands. -/
def layout (op : Opcode) : Layout :=
  op.pattern.2

/-- The positions of the fixed bits. -/
def mask (op : Opcode) : UInt16 :=
  op.layout.mask

/-- The number of fixed bits. -/
def specificity (op : Opcode) : Nat :=
  op.layout.specificity

/-- The word has the fixed bits of the opcode. -/
def Matches (op : Opcode) (word : UInt16) : Prop :=
  word &&& op.mask = op.fixedBits

instance (op : Opcode) (word : UInt16) : Decidable (op.Matches word) :=
  inferInstanceAs (Decidable (_ = _))

/-- Every opcode, from the most specific to the least; opcodes that are
    equally specific keep their order. -/
def decodeOrder : List Opcode :=
  (List.range 17).reverse.flatMap fun k => all.filter (·.specificity = k)

/-- The opcode with this mnemonic. Upper and lower case differ: `addI` and
    `addi` are two instructions. -/
def ofMnemonic? (name : Text) : Option Opcode :=
  all.find? (·.mnemonic = name)

/-- The opcode that a word belongs to: the most specific of those it
    matches. -/
def ofWord? (word : UInt16) : Option Opcode :=
  decodeOrder.find? (·.Matches word)

theorem ofMnemonic?_mnemonic (op : Opcode) : ofMnemonic? op.mnemonic = some op := by
  cases op <;> decide

/-- Whether the instruction enters a subroutine. -/
def isCall (op : Opcode) : Bool :=
  op = .call || op = .callptr

end Opcode

end Chip8
