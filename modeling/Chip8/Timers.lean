/-!
# Timers

The machine has two timers, which count down to zero and stay there. While the
sound timer runs, a tone sounds; the tick on which it reaches zero is reported.

## Main definitions

* `Timers`: Both counts.
* `Timers.tick`: Counting down once.
-/

namespace Chip8

/-- The counts of the delay timer and of the sound timer. -/
structure Timers where
  delay : UInt8
  sound : UInt8
  deriving DecidableEq, Repr

namespace Timers

/-- Both timers at rest. -/
def stopped : Timers :=
  ⟨0, 0⟩

/-- A timer after one more tick. -/
def countDown (t : UInt8) : UInt8 :=
  if t = 0 then 0 else t - 1

/-- Both timers after one tick, and whether the tone ended with it. -/
def tick (t : Timers) : Timers × Bool :=
  (⟨countDown t.delay, countDown t.sound⟩, t.sound = 1)

end Timers

end Chip8
