import Chip8.Proofs.Machine.Footprint
import Chip8.Proofs.Machine.Restart

/-!
# Access to a Machine

A program runs while others hold the machine: a debugger that looks into it and
changes it, a keyboard, a clock that ticks. Each of them accesses the machine,
and all of this happens in one order. What an access comes to is its reply, and
the replies are all that can be known of a machine from outside.

The replies tell which instructions were executed along the way, and how. An
access that executes no instruction may do much to a machine, but there are
parts that it does not reach. The random source is one: a program that is loaded
goes on with the source of the one before.

## Main definitions

* `Access`: A request, or a look at a pixel.
* `Reply`: What an access comes to.
* `Reply.executed?`: The instruction that was executed with it, if there is one.
* `Machine.access`: Accesses one after another.

## Theorems

* `Access.exists_step_of_executed`: Instructions are executed in steps.
* `Access.random_serve`: The random source is left alone unless a word is drawn.
-/

namespace Chip8

/-- Something that is done to a machine: a request is made, or a pixel of the
    screen is looked at. -/
inductive Access where
  | request (request : Request)
  | pixel (x y : Nat)
  deriving DecidableEq, Repr

/-- What an access comes to. -/
inductive Reply where
  | answer (answer : Answer)
  | pixel (value : UInt32)
  deriving DecidableEq

/-- The instruction that was executed, if there was one. A step that was refused
    has executed none. -/
def Reply.executed? : Reply → Option Instruction
  | .answer (.stepped (.ok (ins, _))) => some ins
  | _ => none

-- A program that is loaded goes on with the random source of the one before.
theorem Operation.random_apply {op : Operation} (hop : op ≠ .step) (m : Machine) :
    (op.apply m).random = m.random := by
  cases op with
  | step => exact absurd rfl hop
  | load program =>
      change (m.load program).2.random = m.random
      unfold Machine.load
      split <;> rfl
  | setRegister number value =>
      rcases Machine.exists_setRegister_eq number value m with ⟨v, i, ip, heq⟩
      rw [apply, heq]
  | writeByte address value =>
      rcases Machine.exists_writeByte_eq address value m with ⟨memory, heq⟩
      rw [apply, heq]
  | unload | tick | press | release | setPixel => rfl

section

variable {σ : Type}

/-- The reply to an access, the machine behind it and the frontend's state. -/
def Access.serve (fe : Frontend σ) (m : Machine) (shown : σ) : Access → Reply × Machine × σ
  | .request made =>
      let served := made.serve fe m shown
      (.answer served.1, served.2)
  | .pixel x y => (.pixel (m.screen.pixel x y), m, shown)

/-- The replies to accesses that follow each other, with the machine and the
    frontend's state behind them. -/
def Machine.access (fe : Frontend σ) : List Access → Machine → σ → List Reply × Machine × σ
  | [], m, shown => ([], m, shown)
  | access :: accesses, m, shown =>
      let served := access.serve fe m shown
      let later := Machine.access fe accesses served.2.1 served.2.2
      (served.1 :: later.1, later.2)

namespace Access

variable {fe : Frontend σ} {m : Machine} {shown : σ} {access : Access} {ins : Instruction}

theorem serve_stepWith (fe : Frontend σ) (m : Machine) (shown : σ) :
    ∃ shown', (request .stepWith).serve fe m shown
      = (.answer (.stepped m.step.1), m.step.2, shown') := by
  rcases Machine.stepWith_eq fe m shown with ⟨shown', heq⟩
  exact ⟨shown', by simp only [serve, Request.serve, heq]⟩

theorem eq_ok_of_executed {result : Except ExecutionError (Instruction × Effect)}
    (h : (Reply.answer (.stepped result)).executed? = some ins) :
    ∃ effect, result = .ok (ins, effect) := by
  cases result with
  | error e => exact nomatch h
  | ok done => exact ⟨done.2, by rw [← Option.some.inj h]⟩

/-- Instructions are executed in steps, and in no other way. -/
theorem exists_step_of_executed (h : (access.serve fe m shown).1.executed? = some ins) :
    ∃ effect, m.step = (.ok (ins, effect), (access.serve fe m shown).2.1) := by
  -- Of all accesses, only the two kinds of steps tell of an instruction.
  cases access with
  | pixel => exact nomatch h
  | request made =>
      cases made with
      | stepWith =>
          rcases serve_stepWith fe m shown with ⟨shown', heq⟩
          rw [heq] at h ⊢
          rcases eq_ok_of_executed h with ⟨effect, hok⟩
          exact ⟨effect, Prod.ext hok rfl⟩
      | operate op =>
          cases op with
          | step =>
              rcases eq_ok_of_executed h with ⟨effect, hok⟩
              exact ⟨effect, Prod.ext hok rfl⟩
          | load | unload | tick | press | release | setRegister | writeByte | setPixel =>
              exact nomatch h
      | fetch | register | readByte => exact nomatch h

-- A step draws a word or leaves the random source alone.
theorem random_step
    (h : ∀ ins, (Reply.answer (.stepped m.step.1)).executed? = some ins → ins.op ≠ .rand) :
    m.step.2.random = m.random := by
  rcases hstep : m.step with ⟨result, m'⟩
  rw [hstep] at h
  cases result with
  | error e => rw [Machine.step_error hstep]
  | ok done =>
      rcases Machine.step_ok hstep with ⟨hfetch, hexecute⟩
      exact (Machine.execute_confined (Machine.fits_of_fetch hfetch) hexecute).random
        (h done.1 rfl)

/-- The random source is left alone by an access with which no word is drawn. -/
theorem random_serve
    (h : ∀ ins, (access.serve fe m shown).1.executed? = some ins → ins.op ≠ .rand) :
    (access.serve fe m shown).2.1.random = m.random := by
  cases access with
  | pixel => rfl
  | request made =>
      -- A step leaves the source alone unless it draws, and nothing else reaches it.
      cases made with
      | stepWith =>
          rcases serve_stepWith fe m shown with ⟨shown', heq⟩
          rw [heq] at h ⊢
          exact random_step h
      | operate op =>
          by_cases hstep : op = .step
          · subst hstep
            exact random_step h
          · exact Operation.random_apply hstep m
      | fetch | register | readByte => rfl

end Access

end

end Chip8
