import Chip8.Assembly.Comment
import Chip8.Assembly.Error
import Chip8.Assembly.Program
import Chip8.Operand.Reader

/-!
# Assembling a Source

A line of assembly is empty, or an instruction with its operands, or the word
`db` with any number of data bytes. Lines are read in order, and the first one
that is at fault ends the reading.

## Main definitions

* `Statement.read`: The statement on one line.
* `Source.statements`: The statements of a source text.
* `Source.assemble`: The program of a source text.
-/

namespace Chip8

namespace Statement

/-- The byte that a word of a data line denotes. -/
def readByte (token : Text) : Except AssemblyFault UInt8 :=
  match Operands.number token with
  | .ok value => if value < 256 then .ok value.toUInt8 else .error (.byteOverflow value)
  | .error _ => .error (.invalidByte token)

/-- The statement that a row of words denotes, the first of them being its
    name. -/
def readTokens (name : Text) (tokens : List Text) : Except AssemblyFault Statement :=
  if name = "db".toList then
    (tokens.mapM readByte).map .data
  else
    match Opcode.ofMnemonic? name with
    | none => .error (.invalidMnemonic name)
    | some op =>
        match h : op.layout.read tokens with
        | .ok operands => .ok (.instruction ⟨op, operands, Layout.layout_of_read_eq_ok h⟩)
        | .error e => .error (.invalidOperands op.mnemonic e)

/-- The statement on a line without comments, if there is one. -/
def read (line : Text) : Except AssemblyFault (Option Statement) :=
  match Text.tokens line with
  | [] => .ok none
  | name :: tokens => (readTokens name tokens).map some

end Statement

namespace Source

/-- The statement on a row, placed at its line. A fault is placed there
    too. -/
def placeRow (row : Text) (line : Nat) : Except AssemblyError (Option Placed) :=
  match Statement.read row with
  | .ok found => .ok (found.map fun s => ⟨line, s⟩)
  | .error fault => .error ⟨line, fault⟩

/-- The statements of rows of code, which are numbered from `first` on. -/
def placeRows (first : Nat) (rows : List Text) : Except AssemblyError (List Placed) :=
  ((rows.zipIdx first).mapM fun r => placeRow r.1 r.2).map (·.filterMap id)

/-- The statements of a source text, or its first error. -/
def statements (src : Text) : Except AssemblyError (List Placed) :=
  placeRows 1 (Comment.codeRows src)

/-- The program that a source text describes. -/
def assemble (src : Text) : Except AssemblyError Program :=
  (statements src).map Program.ofStatements

end Source

end Chip8
