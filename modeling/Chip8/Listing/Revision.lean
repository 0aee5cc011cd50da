import Chip8.Assembly.Source
import Chip8.Listing.Disassembly

/-!
# Revising a Listing

A listing may be edited by hand, and its stamps then no longer tell where the
bytes are. `restamp` derives them again from the text. Two further revisions
change how bytes are shown: `asCode` reads the bytes of a line as
instructions, and `asData` shows an instruction as its bytes.

A revision that has nothing to do leaves the text as it is, down to its line
endings. One that does something writes every line anew.

## Main definitions

* `Revision.stampLines`: Stamps in front of the lines that yield bytes.
* `Revision.restamp`: A text with its stamps derived again.
* `Revision.lineBytes`: The bytes of a line that is read on its own.
* `Revision.asCode`, `Revision.asData`: Bytes shown as code and as data.
-/

namespace Chip8

namespace Revision

/-- A line behind the stamp of its bytes. A line that starts with a blank
    brings the space after the stamp along. -/
def stampLine (offset : Nat) (bytes : List UInt8) (line : Text) : Text :=
  match line with
  | [] => stamp offset bytes
  | c :: _ =>
      if Text.isBlank c then stamp offset bytes ++ line else stamp offset bytes ++ ' ' :: line

/-- Lines, numbered from `number` on, with stamps in front of those that
    yield bytes. The bytes of a line are found among the statements, which are
    in the order of their lines; offsets count on from `offset`. Lines done
    are collected in reverse. -/
def stampLines (done : List Text) (offset number : Nat) :
    List Placed → List Text → List Text
  | _, [] => done.reverse
  | [], line :: rest => stampLines (line :: done) offset (number + 1) [] rest
  | p :: ps, line :: rest =>
      if p.line = number then
        let stamped := if p.bytes.isEmpty then line else stampLine offset p.bytes line
        stampLines (stamped :: done) (offset + p.bytes.length) (number + 1) ps rest
      else stampLines (line :: done) offset (number + 1) (p :: ps) rest

/-- A text in which every stamp is derived again. Lines that yield no bytes
    lose theirs. -/
def restamp (src : Text) : Except AssemblyError Text :=
  let lines := (Text.lines src).map Comment.dropStamp
  match Source.statements (Text.joinRows lines) with
  | .ok placed => .ok (Text.terminate (stampLines [] 0 1 placed lines))
  | .error e => .error e

/-- The bytes of a line that is read on its own, whatever comment it may stand
    in. -/
def lineBytes (number : Nat) (line : Text) : Except AssemblyError (List UInt8) :=
  match Source.placeRow (Comment.stripComments (Comment.dropStamp line)) number with
  | .ok (some p) => .ok p.bytes
  | .ok none => .ok []
  | .error e => .error e

/-- The lines of a text around one of them: those in front, the line of the
    given number, and those behind. Numbers count from one. -/
def lineContext? (number : Nat) (src : Text) : Option (List Text × Text × List Text) :=
  let lines := Text.lines src
  match number with
  | 0 => none
  | index + 1 =>
      match lines.drop index with
      | [] => none
      | line :: behind => some (lines.take index, line, behind)

/-- The bytes of a line are shown as code. A single byte is taken together
    with the bytes of the next line; if that line holds none, or more than
    two, the text stays as it is. -/
def asCode (number : Nat) (src : Text) : Except AssemblyError Text :=
  match lineContext? number src with
  | none => .ok src
  | some (front, line, behind) => do
      let bytes ← lineBytes number line
      match bytes, behind with
      | [], _ => return src
      | [_], next :: behind => do
          let more ← lineBytes (number + 1) next
          if more.length = 1 ∨ more.length = 2 then
            restamp (Text.joinRows (front ++ Disassembly.lines (bytes ++ more) ++ behind))
          else return src
      | _, behind => restamp (Text.joinRows (front ++ Disassembly.lines bytes ++ behind))

/-- The bytes of a line are shown as data, one line to a byte. A line that
    holds fewer than two bytes stays as it is. -/
def asData (number : Nat) (src : Text) : Except AssemblyError Text :=
  match lineContext? number src with
  | none => .ok src
  | some (front, line, behind) => do
      let bytes ← lineBytes number line
      if bytes.length < 2 then return src
      else
        let shown := bytes.zipIdx.map fun placed => (Item.data placed.1).line placed.2
        restamp (Text.joinRows (front ++ shown ++ behind))

end Revision

end Chip8
