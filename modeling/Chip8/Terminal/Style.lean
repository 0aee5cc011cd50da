import Chip8.Text.Basic

/-!
# Styled Text

A terminal changes the look of its text on escape sequences, which run from an
escape character to the letter `m`. Styled text opens with the sequence of its
colour and closes with the one that resets everything. A reset inside of the
text would end the colour early, so the colour is opened again behind it.

## Main definitions

* `Colour`: The colours in use.
* `paint`: Text in a colour, where colours are wanted.
* `plain`: Text without its escape sequences.
-/

namespace Chip8

/-- The colours in use. -/
inductive Colour where
  | red | green | blue | cyan
  deriving DecidableEq, Repr

/-- The character that begins an escape sequence. -/
def escape : Char :=
  '\x1b'

/-- An escape sequence with the given parameters. -/
def escapeSequence (parameters : Text) : Text :=
  escape :: '[' :: parameters ++ ['m']

/-- The sequence that ends every style. -/
def resetStyle : Text :=
  escapeSequence ['0']

/-- The sequence that opens a colour. -/
def Colour.sequence : Colour → Text
  | .red => escapeSequence "31".toList
  | .green => escapeSequence "32".toList
  | .blue => escapeSequence "34".toList
  | .cyan => escapeSequence "36".toList

/-- The text with a style opened again behind every reset. -/
def reopen (style : Text) : Text → Text
  | '\x1b' :: '[' :: '0' :: 'm' :: rest => resetStyle ++ style ++ reopen style rest
  | c :: rest => c :: reopen style rest
  | [] => []

/-- The text in a colour, or unchanged where colours are not wanted. -/
def paint (inColour : Bool) (colour : Colour) (t : Text) : Text :=
  if inColour then colour.sequence ++ reopen colour.sequence t ++ resetStyle else t

/-- The text outside of escape sequences. The flag tells whether the text
    starts within one. -/
def plainFrom : Bool → Text → Text
  | _, [] => []
  | false, c :: rest => if c = escape then plainFrom true rest else c :: plainFrom false rest
  | true, c :: rest => plainFrom (c ≠ 'm') rest

/-- The text without its escape sequences. -/
def plain (t : Text) : Text :=
  plainFrom false t

end Chip8
