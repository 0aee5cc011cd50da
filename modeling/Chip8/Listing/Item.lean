import Chip8.Instruction
import Chip8.Platform

/-!
# Listing Lines

A listing shows a program line by line, and every line starts with a stamp:
the offset of its bytes in the program, their address in memory, and the bytes
themselves. Behind the stamp stands the assembly that yields these bytes, an
instruction or a single data byte.

The stamp is a comment to the assembler, so a listing assembles back to the
program that it shows.

## Main definitions

* `stamp`: The stamp for bytes at an offset.
* `Item`: What a listing line shows.
* `Item.line`: The line for an item at an offset.
-/

namespace Chip8

/-- A byte as two hexadecimal digits. -/
def byteText (b : UInt8) : Text :=
  Text.paddedHex 2 b.toNat

/-- The bytes of a stamp. A single byte is padded to the width of two, so that
    the assembly behind data and behind instructions starts in one column. -/
def stampBytes : List UInt8 → Text
  | [b] => byteText b ++ "    #".toList
  | bs => [' '].intercalate (bs.map byteText) ++ " #".toList

/-- The stamp of a listing line that holds these bytes at this offset. -/
def stamp (offset : Nat) (bytes : List UInt8) : Text :=
  "#@ ".toList ++ Text.paddedHex 4 offset ++ ' ' :: Text.paddedHex 4 (offset + programStart)
    ++ " : ".toList ++ stampBytes bytes

/-- What a listing line shows. -/
inductive Item where
  | code (i : Instruction)
  | data (b : UInt8)
  deriving DecidableEq, Repr

namespace Item

/-- The bytes of an item: two for an instruction, one for data. -/
def bytes : Item → List UInt8
  | .code i => i.bytes
  | .data b => [b]

/-- The item as assembly. -/
def source : Item → Text
  | .code i => i.text
  | .data b => "db ".toList ++ Text.hexNumeral b.toNat

/-- The listing line for an item at an offset. -/
def line (offset : Nat) (item : Item) : Text :=
  stamp offset item.bytes ++ ' ' :: item.source

end Item

end Chip8
