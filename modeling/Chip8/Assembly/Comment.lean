import Chip8.Text.Basic

/-!
# Comments and Stamps

A comment runs from `#` to the next `#`, across lines if need be. The number
of hashes in a text may be odd, and then the last of them has no partner; it
comments out the rest of its line. Removing comments keeps their newlines, so
every row keeps its number.

A listing marks each line with the place of its bytes: `#@`, some text, and a
`#` at the start of the line. Such a stamp looks like a comment, but it is
taken off its own line before comments are paired. Otherwise the stamp of a
line in the middle of a long comment would end that comment.

## Main definitions

* `dropStamp`: A line without the stamp that it starts with.
* `stripComments`: A text without its comments.
* `codeRows`: The rows of a source without stamps and comments.

## Theorems

* `strip_eq_append`: What has been kept so far only comes in front.
-/

namespace Chip8

namespace Comment

/-- A line without the stamp that it starts with. A stamp holds something
    between its marker and its closing hash, so `#@#` is none. -/
def dropStamp (line : Text) : Text :=
  match line with
  | '#' :: '@' :: c :: rest =>
      if c = '#' then line
      else
        match rest.dropWhile (· ≠ '#') with
        | _ :: code => code
        | [] => line
  | _ => line

/-- Where a scan from the left stands. -/
inductive Place where
  /-- Outside of comments. -/
  | code
  /-- Inside a comment that a later hash closes. -/
  | paired
  /-- Behind the last hash, which no other one closes. -/
  | lone
  deriving DecidableEq, Repr

/-- One scan from the left, which keeps code and newlines. What it has kept is
    collected in reverse. -/
def strip (kept : Text) : Place → Text → Text
  | _, [] => kept.reverse
  | .code, c :: rest =>
      if c = '#' then strip kept (if rest.contains '#' then .paired else .lone) rest
      else strip (c :: kept) .code rest
  | .paired, c :: rest =>
      if c = '#' then strip kept .code rest
      else if c = '\n' then strip (c :: kept) .paired rest
      else strip kept .paired rest
  | .lone, c :: rest =>
      if c = '\n' then strip (c :: kept) .code rest
      else strip kept .lone rest

theorem strip_eq_append (kept : Text) (place : Place) (t : Text) :
    strip kept place t = kept.reverse ++ strip [] place t := by
  induction t generalizing kept place with
  | nil => simp [strip]
  | cons c rest ih =>
      -- A character is kept on top of what has been kept, or it is dropped.
      cases place <;> simp only [strip] <;> split
      · exact ih _ _
      · rw [ih, ih [c]]
        simp
      · exact ih _ _
      · split
        · rw [ih, ih [c]]
          simp
        · exact ih _ _
      · rw [ih, ih [c]]
        simp
      · exact ih _ _

/-- A text without its comments, newlines apart. -/
def stripComments (t : Text) : Text :=
  strip [] .code t

/-- The rows of a source as the assembler reads them: without the stamps at
    their starts, and without the comments of the whole text. -/
def codeRows (src : Text) : List Text :=
  Text.rows (stripComments (Text.joinRows ((Text.rows src).map dropStamp)))

end Comment

end Chip8
