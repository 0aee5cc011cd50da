import Chip8.Machine.Basic
import Chip8.Terminal.Basic

/-!
# Machine Panels

The state of the machine as text: the registers in a frame, and the screen
with one character for each pixel. A terminal in minimal mode gets one register
to a line and plain characters.

## Main definitions

* `Terminal.registers`: The registers.
* `Terminal.screen`: The screen.
-/

namespace Chip8

namespace Panel

/-- Dimmed text. -/
def dim (t : Text) : Text :=
  escapeSequence ['2'] ++ t ++ resetStyle

/-- The name of a register, in bold and to the right of its column. -/
def name (t : Text) : Text :=
  ' ' :: escapeSequence ['1'] ++ t.leftpad 3 ' ' ++ resetStyle ++ "  ".toList

/-- A rule between two corners of the frame. -/
def rule (left right : Char) : Text :=
  dim (left :: List.replicate 42 '─' ++ [right]) ++ ['\n']

/-- A row of the frame. -/
def row (cells : Text) : Text :=
  dim ['│'] ++ cells ++ dim ['│'] ++ ['\n']

/-- The cell of a byte register, in both bases. -/
def byteCell (m : Machine) (n : Nat) : Text :=
  let value := (m.reg n).toNat
  name ('v' :: Text.decimal n) ++ "0x".toList ++ Text.paddedHex 2 value ++ ' '
    :: (Text.decimal value).leftpad 4 ' ' ++ "     ".toList

/-- The cell of a register of two bytes. -/
def wordCell (label : Text) (value : UInt16) : Text :=
  name label ++ "0x".toList ++ Text.paddedHex 4 value.toNat ++ "       ".toList

/-- The cell of a timer. -/
def timerCell (label : Text) (value : UInt8) : Text :=
  name label ++ (Text.decimal value.toNat).leftpad 4 ' ' ++ "         ".toList

/-- The registers in a frame, the byte registers in two columns. -/
def frame (m : Machine) : Text :=
  rule '┌' '┐'
    ++ (List.range 8).flatMap (fun n => row (byteCell m n ++ byteCell m (n + 8)))
    ++ row (wordCell "I".toList m.i ++ wordCell "ip".toList m.ip)
    ++ row (timerCell "DT".toList m.timers.delay ++ timerCell "ST".toList m.timers.sound)
    ++ rule '└' '┘'

/-- The registers one to a line, in decimal. -/
def table (m : Machine) : Text :=
  Register.all.flatMap fun r =>
    let value := match r with
      | .v n => (m.reg n).toNat
      | .i => m.i.toNat
      | .ip => m.ip.toNat
    r.text ++ ' ' :: Text.decimal value ++ ['\n']

/-- The screen with one character for a lit pixel and one for a dark one. Any
    colour but that of a dark pixel shows. -/
def picture (lit dark : Char) (s : Screen) : Text :=
  s.rows.toList.flatMap fun row =>
    row.toList.map (fun pixel => if pixel = pixelOff then dark else lit) ++ ['\n']

end Panel

namespace Terminal

/-- What is written for the registers. -/
def registers (t : Terminal) (m : Machine) : Text :=
  t.normal (if t.minimal then Panel.table m else Panel.frame m)

/-- What is written for the screen. -/
def screen (t : Terminal) (m : Machine) : Text :=
  t.normal (if t.minimal then Panel.picture '#' '.' m.screen
    else Panel.picture '█' ' ' m.screen)

end Terminal

end Chip8
