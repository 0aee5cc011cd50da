import Chip8.Platform

/-!
# The Screen

A screen of 64 by 32 pixels. A pixel holds a colour of 32 bits, but to the
machine it is lit or dark by its lowest bit alone. Positions beyond the edges
exist as positions: they read as dark, and writing to them has no effect, so a
sprite that sticks out is cut off and does not wrap around.

Sprites are drawn by flipping pixels one after another. A collision is a pixel
that was lit just before it was flipped.

## Main definitions

* `Screen`: The pixels, row by row.
* `Screen.pixel`, `Screen.setPixel`: Single pixels.
* `Screen.foldPixels`: Visiting every pixel.
* `Drawing`: A screen, and whether a collision has been seen.
* `Drawing.sprite`: Drawing a sprite.
-/

namespace Chip8

/-- The pixels of the screen, row by row from the top. -/
structure Screen where
  rows : Vector (Vector UInt32 screenWidth) screenHeight
  deriving DecidableEq

namespace Screen

/-- The dark screen. -/
def blank : Screen :=
  ⟨Vector.replicate screenHeight (Vector.replicate screenWidth pixelOff)⟩

/-- The pixel in column `x` of row `y`, dark beyond the edges. -/
def pixel (s : Screen) (x y : Nat) : UInt32 :=
  if h : y < screenHeight ∧ x < screenWidth then s.rows[y][x]
  else pixelOff

/-- The screen with another pixel in column `x` of row `y`. Beyond the edges
    there is no pixel to change. -/
def setPixel (s : Screen) (x y : Nat) (value : UInt32) : Screen :=
  if h : y < screenHeight ∧ x < screenWidth then
    ⟨s.rows.set y (s.rows[y].set x value h.2) h.1⟩
  else s

/-- Visits every pixel, row by row from the top and from the left in each
    row. -/
def foldPixels {σ : Type} (visit : Nat → Nat → UInt32 → σ → σ) (s : Screen) (start : σ) : σ :=
  (List.finRange screenHeight).foldl
    (fun acc (y : Fin screenHeight) =>
      (List.finRange screenWidth).foldl
        (fun acc (x : Fin screenWidth) => visit x y s.rows[y][x] acc) acc)
    start

/-- A pixel is lit when its lowest bit is set. -/
def isLit (value : UInt32) : Bool :=
  value &&& 1 != 0

end Screen

/-- A screen that is being drawn on, and whether a lit pixel was hit. -/
structure Drawing where
  screen : Screen
  collision : Bool

namespace Drawing

/-- Flips a pixel. -/
def plot (x y : Nat) (d : Drawing) : Drawing :=
  let lit := Screen.isLit (d.screen.pixel x y)
  ⟨d.screen.setPixel x y (if lit then pixelOff else pixelOn), d.collision || lit⟩

/-- Draws eight pixels to the right of a position, one for each bit and the
    upper bits first. -/
def byteRow (x y : Nat) (bits : UInt8) (d : Drawing) : Drawing :=
  (List.range 8).foldl
    (fun d column => if bits.toNat.testBit (7 - column) then d.plot (x + column) y else d) d

/-- Draws a sprite with its upper left corner at a position, one byte to a
    row. -/
def sprite (x y : Nat) : List UInt8 → Drawing → Drawing
  | [], d => d
  | bits :: below, d => sprite x (y + 1) below (d.byteRow x y bits)

end Drawing

end Chip8
