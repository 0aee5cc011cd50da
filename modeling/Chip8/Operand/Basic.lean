import Chip8.Text.Numeral

/-!
# Operands

Every instruction is one word of 16 bits. A part of the word is fixed by the
instruction, and the rest holds its operands at positions that all
instructions share:

```
 15    12 11     8 7      4 3      0
+--------+--------+--------+--------+
| fixed  |   x    |   y    |   n    |
+--------+--------+--------+--------+
         |           nnn            |
                  |       nn        |
```

A `Layout` says which of these fields an instruction carries, and `Operands`
holds their values. The fields are machine words and may be wider than their
place in the instruction; `Operands.bits` keeps what fits.

## Main definitions

* `Layout`: The six combinations of fields in use.
* `Layout.mask`: The bits that a layout leaves to the instruction.
* `Operands`: Field values, tagged by layout.
* `Layout.decode`: Reading the fields out of a word.
* `Operands.bits`: Putting them back into place.
* `Operands.text`: Operands in assembly notation.
-/

namespace Chip8

/-- The operand fields that an instruction carries. -/
inductive Layout where
  /-- No operands: the whole word is fixed. -/
  | bare
  /-- An address `nnn`. -/
  | address
  /-- A register `x` and a byte `nn`. -/
  | registerByte
  /-- Registers `x` and `y`. -/
  | registerPair
  /-- A register `x`. -/
  | register
  /-- Registers `x` and `y`, and a nibble `n`. -/
  | registerPairNibble
  deriving DecidableEq, Repr

/-- Operand values, tagged by their layout. -/
inductive Operands where
  | bare
  | address (nnn : UInt16)
  | registerByte (x nn : UInt8)
  | registerPair (x y : UInt8)
  | register (x : UInt8)
  | registerPairNibble (x y n : UInt8)
  deriving DecidableEq, Repr

namespace Layout

/-- The bits of a word that operands of this layout leave to the
    instruction. -/
def mask : Layout → UInt16
  | .bare => 0xFFFF
  | .address => 0xF000
  | .registerByte => 0xF000
  | .registerPair => 0xF00F
  | .register => 0xF0FF
  | .registerPairNibble => 0xF000

/-- The number of fixed bits: those set in the mask. -/
def specificity (l : Layout) : Nat :=
  ((List.range 16).filter fun k => l.mask.toNat.testBit k).length

/-- The number of operands in assembly notation. -/
def arity : Layout → Nat
  | .bare => 0
  | .address => 1
  | .registerByte => 2
  | .registerPair => 2
  | .register => 1
  | .registerPairNibble => 3

/-- The operand fields of a word, each read at its fixed position. -/
def decode (l : Layout) (word : UInt16) : Operands :=
  let x := ((word >>> 8) &&& 0xF).toUInt8
  let y := ((word >>> 4) &&& 0xF).toUInt8
  match l with
  | .bare => .bare
  | .address => .address (word &&& 0xFFF)
  | .registerByte => .registerByte x (word &&& 0xFF).toUInt8
  | .registerPair => .registerPair x y
  | .register => .register x
  | .registerPairNibble => .registerPairNibble x y (word &&& 0xF).toUInt8

end Layout

namespace Operands

def layout : Operands → Layout
  | .bare => .bare
  | .address _ => .address
  | .registerByte .. => .registerByte
  | .registerPair .. => .registerPair
  | .register _ => .register
  | .registerPairNibble .. => .registerPairNibble

/-- The register `x`, or zero where there is none. -/
def x : Operands → UInt8
  | .registerByte x _ => x
  | .registerPair x _ => x
  | .register x => x
  | .registerPairNibble x _ _ => x
  | _ => 0

/-- The register `y`, or zero where there is none. -/
def y : Operands → UInt8
  | .registerPair _ y => y
  | .registerPairNibble _ y _ => y
  | _ => 0

/-- The nibble `n`, or zero where there is none. -/
def n : Operands → UInt8
  | .registerPairNibble _ _ n => n
  | _ => 0

/-- The byte `nn`, or zero where there is none. -/
def nn : Operands → UInt8
  | .registerByte _ nn => nn
  | _ => 0

/-- The address `nnn`, or zero where there is none. -/
def nnn : Operands → UInt16
  | .address nnn => nnn
  | _ => 0

/-- The operand bits of a word. A field that is too wide for its place loses
    its upper bits rather than spill into its neighbour. -/
def bits : Operands → UInt16
  | .bare => 0
  | .address nnn => nnn &&& 0xFFF
  | .registerByte x nn => (x.toUInt16 &&& 0xF) <<< 8 ||| nn.toUInt16
  | .registerPair x y => (x.toUInt16 &&& 0xF) <<< 8 ||| (y.toUInt16 &&& 0xF) <<< 4
  | .register x => (x.toUInt16 &&& 0xF) <<< 8
  | .registerPairNibble x y n =>
      (x.toUInt16 &&& 0xF) <<< 8 ||| (y.toUInt16 &&& 0xF) <<< 4 ||| (n.toUInt16 &&& 0xF)

/-- A register in assembly notation: `v` and its decimal number. -/
def registerText (x : UInt8) : Text :=
  'v' :: Text.decimal x.toNat

/-- Operands in assembly notation: registers in decimal, numbers in
    hexadecimal, with a comma and a space between each two. -/
def text : Operands → Text
  | .bare => []
  | .address nnn => Text.hexNumeral nnn.toNat
  | .registerByte x nn => registerText x ++ ", ".toList ++ Text.hexNumeral nn.toNat
  | .registerPair x y => registerText x ++ ", ".toList ++ registerText y
  | .register x => registerText x
  | .registerPairNibble x y n =>
      registerText x ++ ", ".toList ++ registerText y ++ ", ".toList
        ++ Text.hexNumeral n.toNat

end Operands

theorem Layout.layout_decode (l : Layout) (word : UInt16) : (l.decode word).layout = l := by
  cases l <;> rfl

end Chip8
