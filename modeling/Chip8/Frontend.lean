import Chip8.Machine.Execute

/-!
# Frontends

A frontend shows what the machine does. It is told of three things: pixels,
when the screen has been drawn on; the wording of an error, when a step is
refused; and each step, for whoever wants to follow the program. What it does
with them is up to it, so a frontend is a set of changes to a state of its
own.

## Main definitions

* `Frontend`: What is done on each occasion.
* `Frontend.silent`: Nothing is done.
* `Machine.render`: The whole screen is shown.
* `Machine.stepWith`: A step that a frontend is told of.
-/

namespace Chip8

/-- What a frontend with the state `σ` does when it is told something. -/
structure Frontend (σ : Type) where
  /-- A pixel by column, row and value. -/
  renderPixel : Nat → Nat → UInt32 → σ → σ
  /-- The wording of an error. -/
  reportError : String → σ → σ
  /-- The address of a step, with the instruction or what went wrong. -/
  followStep : UInt16 → Except ExecutionError Instruction → σ → σ

/-- The frontend that shows nothing. -/
def Frontend.silent {σ : Type} : Frontend σ where
  renderPixel _ _ _ shown := shown
  reportError _ shown := shown
  followStep _ _ shown := shown

namespace Machine

variable {σ : Type}

/-- Shows the whole screen. -/
def render (fe : Frontend σ) (m : Machine) (shown : σ) : σ :=
  m.screen.foldPixels fe.renderPixel shown

/-- A step of which a frontend sees the screen, if it was drawn on, and hears
    the error, if there is one. -/
def stepWith (fe : Frontend σ) (m : Machine) (shown : σ) :
    Except ExecutionError (Instruction × Effect) × Machine × σ :=
  match m.step with
  | (.ok (ins, .redraw), m') => (.ok (ins, .redraw), m', m'.render fe shown)
  | (.ok (ins, .quiet), m') => (.ok (ins, .quiet), m', shown)
  | (.error e, m') => (.error e, m', fe.reportError e.message shown)

end Machine

end Chip8
