import Chip8.Proofs.Source.Alike

/-!
# What May Stand in Front of a Row

Writing stamps into a source moves text: a row may get a blank in front of it,
and a stamp that an earlier one had hidden may come to light behind that
blank, where it is not a stamp any more but a comment. Both are harmless where
the row starts outside of comments. Inside of a comment the blank is harmless
too. The stamp is not: its first hash closes the comment, and what it holds is
taken for code, which no assembler accepts.

Stamps hold two hashes each, so whether a row starts inside of a comment is
not changed by those in front of it.

## Main definitions

* `Padded`: A row, and the same row with something harmless in front of it.
* `Padding`: The same for the rows of a source.

## Theorems

* `Padded.alike`, `Padding.allAlike`: Padded rows can stand for the rows
  themselves.
-/

namespace Chip8

namespace Comment

open Text

/-- A row behind a number of hashes, and the same row with a blank in front of
    it, and perhaps a stamp as well if it starts outside of comments. -/
inductive Padded (before : Nat) (r : Text) : Text → Prop where
  | same : Padded before r r
  | blank : Padded before r (' ' :: r)
  | stamp {s : Text} (heven : before % 2 = 0) (hs : IsStamp s) (hnewline : '\n' ∉ s) :
      Padded before r (' ' :: (s ++ r))

/-- Rows, the first of them behind a number of hashes, and the same rows
    padded. -/
inductive Padding : Nat → List Text → List Text → Prop where
  | nil {before : Nat} : Padding before [] []
  | cons {before : Nat} {r r' : Text} {rs rs' : List Text} (hrow : Padded before r r')
      (hrows : Padding (before + hashes r) rs rs') : Padding before (r :: rs) (r' :: rs')

/-- A padded row can stand for the row itself. -/
theorem Padded.alike {before : Nat} {r r' : Text} (h : Padded before r r') : Alike before r r' := by
  cases h with
  | same => exact .refl before r
  | blank => exact .blank before r
  | stamp heven hs hnewline => exact (Alike.stamp heven hs hnewline r).trans (.blank before _)

theorem Padding.allAlike {before : Nat} {rs rs' : List Text} (h : Padding before rs rs') :
    AllAlike before rs rs' := by
  induction h with
  | nil => exact .nil
  | cons hrow _ ih => exact .cons hrow.alike ih

end Comment

end Chip8
