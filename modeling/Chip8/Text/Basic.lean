/-!
# Text as Lists of Characters

Source programs and listings are short-lived texts that are read once from
left to right, so this library holds them as lists of characters: every
scanner is then a recursion on its input, and every law about one is an
induction on the same list. Strings appear only where a text leaves the
library, as a message or as output.

A text has two readings as lines. `rows` cuts at every newline, so a text
with `n` newlines has `n + 1` rows and the cut loses nothing. `lines` takes a
newline to end a line: the empty row behind a final newline is no line, and a
carriage return right before a newline belongs to the line ending.

## Main definitions

* `Text`: A list of characters.
* `Text.rows`, `Text.joinRows`: The pieces between newlines, and their inverse.
* `Text.lines`, `Text.terminate`: Lines that a newline ends.
* `Text.isBlank`: The white space of Unicode.
* `Text.tokens`: The words of a line, with blanks and commas between them.

## Theorems

* `joinRows_rows`: Cutting a text into rows loses nothing.
* `rows_joinRows`: Rows without newlines survive being joined.
-/

namespace Chip8

/-- A text, as the list of its characters. -/
abbrev Text := List Char

namespace Text

/-- The pieces of a text between its newlines, of which there is always one
    more than there are newlines. -/
def rows (t : Text) : List Text :=
  t.splitOn '\n'

/-- Rows put back together, with a newline between each two. -/
def joinRows (rs : List Text) : Text :=
  ['\n'].intercalate rs

theorem joinRows_rows (t : Text) : joinRows (rows t) = t :=
  List.intercalate_splitOn '\n'

theorem rows_joinRows (rs : List Text) (hrow : ∀ r ∈ rs, '\n' ∉ r) (hne : rs ≠ []) :
    rows (joinRows rs) = rs :=
  List.splitOn_intercalate '\n' hrow hne

/-- A row without the carriage return that stands before its newline. -/
def dropReturn (r : Text) : Text :=
  if r.getLast? = some '\r' then r.dropLast else r

/-- The lines of a text. Every row but the last is ended by a newline and
    gives up one carriage return with it; the last row has no line ending, and
    counts only when something stands on it. -/
def lines (t : Text) : List Text :=
  let ended := (rows t).dropLast.map dropReturn
  match (rows t).getLast? with
  | none | some [] => ended
  | some last => ended ++ [last]

/-- Lines written one after another, each ended by a newline. -/
def terminate (ls : List Text) : Text :=
  ls.flatMap (· ++ ['\n'])

/-- The white space of Unicode: the property `White_Space` of its character
    database, which is wider than `Char.isWhitespace`. -/
def isBlank (c : Char) : Bool :=
  let n := c.toNat
  (0x9 ≤ n && n ≤ 0xD) || n == 0x20 || n == 0x85 || n == 0xA0 || n == 0x1680
    || (0x2000 ≤ n && n ≤ 0x200A) || n == 0x2028 || n == 0x2029 || n == 0x202F
    || n == 0x205F || n == 0x3000

/-- Blanks and commas both separate the words of a line. -/
def isSeparator (c : Char) : Bool :=
  isBlank c || c == ','

/-- The words of a line, none of them empty. -/
def tokens (t : Text) : List Text :=
  (t.splitOnP isSeparator).filter (!·.isEmpty)

/-- A text without the blanks at both of its ends. -/
def trim (t : Text) : Text :=
  ((t.dropWhile isBlank).reverse.dropWhile isBlank).reverse

/-- The length of a text in UTF-8 bytes, the unit in which labels point into
    a source. -/
def byteLength (t : Text) : Nat :=
  t.foldl (fun n c => n + c.utf8Size) 0

end Text

end Chip8
