import Chip8.Terminal.Style

/-!
# The Terminal

Output has two channels. What the user asked for is normal output; what is
said on the way is diagnostics, in a colour for its kind. A terminal in minimal
mode is meant for programs that read it: it gets no colours, and diagnostics
that are a mere convenience are left out.

## Main definitions

* `Terminal`: The mode of a terminal.
* `Terminal.normal`: What is written for normal output.
* `Terminal.diagnostic`: What is written for diagnostics.
* `Terminal.message`: A line that tells what the command line is doing.
-/

namespace Chip8

/-- The mode of a terminal. -/
structure Terminal where
  /-- Only what a program could want to read is written. -/
  minimal : Bool
  /-- Colours are wanted. -/
  colours : Bool
  deriving DecidableEq, Repr

/-- When a diagnostic is worth writing. -/
inductive Relevance where
  | always
  /-- Not in minimal mode. -/
  | sometimes
  deriving DecidableEq, Repr

/-- What a diagnostic is about. -/
inductive Category where
  | info
  | error
  deriving DecidableEq, Repr

/-- The colour of a diagnostic. -/
def Category.colour : Category → Colour
  | .info => .blue
  | .error => .red

namespace Terminal

/-- What is written for normal output. -/
def normal (t : Terminal) (text : Text) : Text :=
  if t.minimal then plain text else text

/-- What is written for a diagnostic. -/
def diagnostic (t : Terminal) (relevance : Relevance) (category : Category) (text : Text) :
    Text :=
  match t.minimal, relevance with
  | false, _ => paint t.colours category.colour text
  | true, .always => plain text
  | true, .sometimes => []

/-- A line of progress: a word to the right of a column, in a colour, and what
    it is about. -/
def message (t : Terminal) (colour : Colour) (word subject : Text) : Text :=
  paint t.colours colour (word.leftpad 12 ' ') ++ ' ' :: subject ++ ['\n']

end Terminal

end Chip8
