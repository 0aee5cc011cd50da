/-!
# The Platform

The fixed sizes and addresses of the machine: 4096 bytes of memory with the
glyphs of the sixteen hexadecimal digits at its start and the program at
`0x200`, sixteen byte registers, a screen of 64 by 32 pixels and a keypad of
sixteen keys.

## Main definitions

* `memorySize`, `programStart`, `registerCount`, `keyCount`: The sizes.
* `screenWidth`, `screenHeight`, `pixelOn`, `pixelOff`: The screen.
* `glyphs`, `glyphSize`: The built-in sprites of the digits.
-/

namespace Chip8

/-- Addresses of memory lie below this. -/
abbrev memorySize : Nat := 4096

/-- Programs are loaded here; below lie the glyphs. -/
abbrev programStart : Nat := 0x200

/-- The number of general purpose registers. -/
abbrev registerCount : Nat := 16

/-- The last register doubles as carry, borrow and collision flag. -/
abbrev flagRegister : Nat := 15

/-- The number of keys on the hexadecimal keypad. -/
abbrev keyCount : Nat := 16

abbrev screenWidth : Nat := 64

abbrev screenHeight : Nat := 32

/-- The value of a lit pixel. The machine looks at the lowest bit alone. -/
def pixelOn : UInt32 := 0xFFFFFF

/-- The value of a dark pixel. -/
def pixelOff : UInt32 := 0

/-- The number of bytes, and so of rows, in a glyph. -/
abbrev glyphSize : Nat := 5

/-- Sprites of the hexadecimal digits in order, one byte to a row. -/
def glyphs : List UInt8 :=
  [ 0xF0, 0x90, 0x90, 0x90, 0xF0,
    0x20, 0x60, 0x20, 0x20, 0x70,
    0xF0, 0x10, 0xF0, 0x80, 0xF0,
    0xF0, 0x10, 0xF0, 0x10, 0xF0,
    0x90, 0x90, 0xF0, 0x10, 0x10,
    0xF0, 0x80, 0xF0, 0x10, 0xF0,
    0xF0, 0x80, 0xF0, 0x90, 0xF0,
    0xF0, 0x10, 0x20, 0x40, 0x40,
    0xF0, 0x90, 0xF0, 0x90, 0xF0,
    0xF0, 0x90, 0xF0, 0x10, 0xF0,
    0xF0, 0x90, 0xF0, 0x90, 0x90,
    0xE0, 0x90, 0xE0, 0x90, 0xE0,
    0xF0, 0x80, 0x80, 0x80, 0xF0,
    0xE0, 0x90, 0x90, 0x90, 0xE0,
    0xF0, 0x80, 0xF0, 0x80, 0xF0,
    0xF0, 0x80, 0xF0, 0x80, 0x80 ]

end Chip8
