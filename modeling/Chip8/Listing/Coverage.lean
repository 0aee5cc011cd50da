import Chip8.Instruction
import Chip8.Platform

/-!
# Code Coverage

Bytes do not say whether they are code. A word that is data may decode, and
one byte of data puts every word behind it out of step. What can be told apart
is what control reaches: starting from the first byte of a program, follow
every successor of every instruction that is met.

The search keeps a list of offsets still to be visited and a mark for each
offset already reached. Only a visit that sets a mark adds to the list, and it
adds two offsets at most, so a search over `n` bytes takes at most `2 * n + 1`
visits. That bound is the fuel it runs on.

A word that is reached and does not decode ends its path. It stays marked, as
its bytes lie where control goes.

## Main definitions

* `wordAt?`: The word at an offset.
* `targets`: The offsets that may follow the word at an offset.
* `explore`: The search, one visit for each unit of fuel.
* `codeMarks`, `codeOffsets`: What control reaches from the first byte.
-/

namespace Chip8

namespace Coverage

/-- The word at an offset, unless it is cut off by the end of the bytes. -/
def wordAt? (bytes : Array UInt8) (offset : Nat) : Option UInt16 :=
  if h : offset + 1 < bytes.size then some (wordOfBytes bytes[offset] bytes[offset + 1])
  else none

/-- The offsets to which a word at an offset may pass control. Addresses are
    16 bits wide, and those below the program lead out of it. -/
def targets (word : UInt16) (offset : Nat) : List Nat :=
  match Instruction.decode? word with
  | none => []
  | some i =>
      (i.successors (offset + programStart).toUInt16).filterMap fun address =>
        if programStart ≤ address.toNat then some (address.toNat - programStart) else none

/-- Visits the offsets of a work list and what they lead to. -/
def explore (bytes : Array UInt8) : Nat → List Nat → Array Bool → Array Bool
  | 0, _, marks => marks
  | _ + 1, [], marks => marks
  | fuel + 1, offset :: work, marks =>
      match wordAt? bytes offset, marks.getD offset true with
      | some word, false =>
          explore bytes fuel (targets word offset ++ work) (marks.setIfInBounds offset true)
      | _, _ => explore bytes fuel work marks

/-- A mark for every offset, set where a reachable word starts. -/
def codeMarks (bytes : Array UInt8) : Array Bool :=
  explore bytes (2 * bytes.size + 1) [0] (Array.replicate bytes.size false)

/-- The offsets at which a reachable word starts, in ascending order. -/
def codeOffsets (bytes : List UInt8) : List Nat :=
  let marks := codeMarks bytes.toArray
  (List.range bytes.length).filter fun offset => marks.getD offset false

end Coverage

end Chip8
