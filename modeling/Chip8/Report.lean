import Chip8.Assembly.Error
import Chip8.Machine.Error

/-!
# Error Reports

A report is an error made ready for a reader: beside its wording a code for
its kind, a word of help, and labels that point into the source. Labels count
in UTF-8 bytes, and a label on a line leaves the line ending out.

## Main definitions

* `Report`: The parts of a report.
* `lineSpan`: Where a line lies in its source.
* `AssemblyError.report`, `ExecutionError.report`: The reports of both kinds
  of error.
-/

namespace Chip8

/-- A remark on a piece of the source, which is given in bytes. -/
structure Label where
  offset : Nat
  length : Nat
  remark : String
  deriving DecidableEq, Repr

/-- An error made ready for a reader. -/
structure Report where
  code : String
  message : String
  help : String
  labels : List Label
  deriving DecidableEq, Repr

/-- Where a line lies in its source, by offset and length. Line endings do not
    belong to it. A number that no line has points to the last byte. -/
def lineSpan (src : Text) (number : Nat) : Nat × Nat :=
  let rows := Text.rows src
  let nowhere := (Text.byteLength src - 1, 0)
  match number with
  | 0 => nowhere
  | index + 1 =>
      match rows[index]? with
      | none => nowhere
      | some row =>
          ((rows.take index).foldl (fun n r => n + Text.byteLength r + 1) 0,
            Text.byteLength (row.reverse.dropWhile (· == '\r')).reverse)

/-- The code, the help and the remark for a fault. -/
def AssemblyFault.guidance : AssemblyFault → String × String × String
  | .invalidMnemonic _ =>
      ("asm::mnemonic",
        "check the list of available instructions in the documentation.",
        "unknown instruction")
  | .invalidOperands _ _ =>
      ("asm::operands",
        "registers are written `v0`-`v15`, literals as decimal or `0x` hex.",
        "incorrect operands")
  | .byteOverflow _ =>
      ("asm::db", "`db` values range from 0 to 255.", "value too large")
  | .invalidByte _ =>
      ("asm::db", "`db` takes a list of decimal or `0x` hex literals.", "not a literal")

/-- The report of an assembly error, with a label on its line. -/
def AssemblyError.report (e : AssemblyError) (src : Text) : Report :=
  let (code, help, remark) := e.fault.guidance
  let (offset, length) := lineSpan src e.line
  ⟨code, e.fault.message, help, [⟨offset, length, remark⟩]⟩

/-- The report of an execution error. -/
def ExecutionError.report (e : ExecutionError) : Report :=
  let help := match e with
    | .undecodable .. => "the bytes at this address are data, not an instruction."
    | .outOfBounds _ => "memory ranges from 0x000 to 0xFFF."
    | _ => "this is a bug in the program being run."
  ⟨"runtime", e.message, help, []⟩

end Chip8
