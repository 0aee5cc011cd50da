import Chip8.Instruction

/-!
# Assembled Programs

A source text becomes a row of statements, each with the line that it stands
on, and the statements become bytes. Beside the bytes a program holds a table
of the same length that leads from every byte back to its line.

## Main definitions

* `Statement`: An instruction, or data bytes.
* `Placed`: A statement and its line.
* `Program`: Bytes and line table.
* `Program.ofStatements`: The program that statements make up.
-/

namespace Chip8

/-- What one line of assembly stands for. -/
inductive Statement where
  | instruction (i : Instruction)
  | data (bytes : List UInt8)
  deriving DecidableEq, Repr

/-- The bytes that a statement puts into the program. -/
def Statement.bytes : Statement → List UInt8
  | .instruction i => i.bytes
  | .data bytes => bytes

/-- A statement and the number of its line, counted from one. -/
structure Placed where
  line : Nat
  statement : Statement
  deriving DecidableEq, Repr

/-- The bytes of the statement. -/
def Placed.bytes (p : Placed) : List UInt8 :=
  p.statement.bytes

/-- A program with the source line of each of its bytes. A program that was
    never assembled has no lines. -/
structure Program where
  bytes : List UInt8
  lines : List Nat
  deriving DecidableEq, Repr

namespace Program

/-- The program that statements make up, in order. -/
def ofStatements (ps : List Placed) : Program where
  bytes := ps.flatMap Placed.bytes
  lines := ps.flatMap fun p => List.replicate p.bytes.length p.line

/-- The line of the byte at an offset into the program. -/
def lineAt? (p : Program) (offset : Nat) : Option Nat :=
  p.lines[offset]?

end Program

end Chip8
