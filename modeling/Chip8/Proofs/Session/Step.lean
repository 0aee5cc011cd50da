import Chip8.Session
import Chip8.Proofs.Machine.Control
import Chip8.Proofs.Machine.Operation
import Mathlib.Data.List.Count
import Mathlib.Logic.Function.Iterate

/-!
# Single Steps of a Session

A single step of a session is a step of its machine, with a count of the steps
that succeed and a verdict on the instruction pointer. What the machine does
depends on the machine alone. A frontend is told of it, and what it makes of
that is nothing to the machine.

Every way to run a session comes down to single steps, so here they are also
taken in a row. `stepsIn` asks nothing of the answers on the way: it goes on
behind a stall, and a step that is refused leaves the session as it was.

## Main definitions

* `Session.stepsIn`: A number of single steps in a row.
* `Session.answer`: What one of them comes to.
* `Session.atStart`: A session at the start of a program.

## Theorems

* `stepIn_ok`, `stepIn_error`: What a single step does.
* `machine_stepIn`, `machine_stepsIn`: The machine behind single steps.
* `steps_stepsIn`: Single steps that succeed are counted.
-/

namespace Chip8

namespace Session

variable {σ : Type} {fe : Frontend σ} {s s' : Session} {shown shown' : σ}

/-- A single step that succeeds is counted, and it stalls if the instruction
    pointer stays in place. -/
theorem stepIn_ok {outcome : Outcome} (h : s.stepIn fe shown = (.ok outcome, s', shown')) :
    (∃ ins effect, s.machine.step = (.ok (ins, effect), s'.machine)) ∧
      s' = { s with machine := s.machine.step.2, steps := s.steps + 1 } ∧
      outcome = if s'.machine.ip = s.machine.ip then .stalled s.machine.ip else .stepped := by
  rcases s.machine.stepWith_eq fe shown with ⟨told, htold⟩
  rcases hstep : s.machine.step with ⟨result, m'⟩
  rw [hstep] at htold
  cases result with
  | error e =>
      simp only [stepIn, htold] at h
      cases h
  | ok done =>
      rcases done with ⟨ins, effect⟩
      simp only [stepIn, htold, Prod.mk.injEq, Except.ok.injEq] at h
      rcases h with ⟨houtcome, rfl, _⟩
      exact ⟨⟨ins, effect, rfl⟩, rfl, houtcome.symm⟩

/-- A single step that fails leaves the session as it was. -/
theorem stepIn_error {e : ExecutionError} (h : s.stepIn fe shown = (.error e, s', shown')) :
    s.machine.step = (.error e, s.machine) ∧ s' = s := by
  rcases s.machine.stepWith_eq fe shown with ⟨told, htold⟩
  rcases hstep : s.machine.step with ⟨result, m'⟩
  rw [hstep] at htold
  cases result with
  | error e' =>
      have hsame := Machine.step_error hstep
      simp only [stepIn, htold, Prod.mk.injEq, Except.error.injEq] at h
      rcases h with ⟨rfl, rfl, _⟩
      subst hsame
      exact ⟨rfl, rfl⟩
  | ok done =>
      simp only [stepIn, htold] at h
      cases h

/-- The machine behind a single step is the machine behind its step. -/
theorem machine_stepIn (fe : Frontend σ) (s : Session) (shown : σ) :
    (s.stepIn fe shown).2.1.machine = s.machine.step.2 := by
  rcases h : s.stepIn fe shown with ⟨result, s', shown'⟩
  cases result with
  | error e =>
      rcases stepIn_error h with ⟨hstep, rfl⟩
      rw [hstep]
  | ok outcome => rw [(stepIn_ok h).2.1]

/-- A single step is counted if it succeeds. -/
theorem steps_stepIn (fe : Frontend σ) (s : Session) (shown : σ) :
    (s.stepIn fe shown).2.1.steps
      = s.steps + if (s.stepIn fe shown).1.isOk then 1 else 0 := by
  rcases h : s.stepIn fe shown with ⟨result, s', shown'⟩
  cases result with
  | error e =>
      rcases stepIn_error h with ⟨_, rfl⟩
      rfl
  | ok outcome =>
      rw [(stepIn_ok h).2.1]
      rfl

/-! ## Single steps in a row -/

/-- The session and the state of its frontend behind a number of single steps,
    whatever each of them comes to. -/
def stepsIn (fe : Frontend σ) (n : Nat) (p : Session × σ) : Session × σ :=
  (fun p => (p.1.stepIn fe p.2).2)^[n] p

/-- What a single step comes to behind a number of others. -/
def answer (fe : Frontend σ) (p : Session × σ) (k : Nat) : Except ExecutionError Outcome :=
  ((stepsIn fe k p).1.stepIn fe (stepsIn fe k p).2).1

variable {p : Session × σ}

theorem stepsIn_zero : stepsIn fe 0 p = p := rfl

theorem stepsIn_succ (n : Nat) :
    stepsIn fe (n + 1) p = stepsIn fe n (p.1.stepIn fe p.2).2 := rfl

theorem stepsIn_succ_last (n : Nat) :
    stepsIn fe (n + 1) p = ((stepsIn fe n p).1.stepIn fe (stepsIn fe n p).2).2 :=
  Function.iterate_succ_apply' _ n p

theorem answer_zero : answer fe p 0 = (p.1.stepIn fe p.2).1 := rfl

/-- The machine behind single steps is the machine behind its steps. -/
theorem machine_stepsIn (n : Nat) (p : Session × σ) :
    (stepsIn fe n p).1.machine = p.1.machine.after (List.replicate n .step) := by
  induction n generalizing p with
  | zero => rfl
  | succ n ih =>
      rw [stepsIn_succ, ih, machine_stepIn, List.replicate_succ, Machine.after_cons,
        Operation.apply]

/-- A session counts its single steps as far as they succeed. -/
theorem steps_stepsIn (n : Nat) (p : Session × σ) :
    (stepsIn fe n p).1.steps
      = p.1.steps + (List.range n).countP fun k => (answer fe p k).isOk := by
  induction n with
  | zero => rfl
  | succ n ih =>
      rw [stepsIn_succ_last, steps_stepIn, ih, List.range_succ, List.countP_append,
        List.countP_singleton, Nat.add_assoc]
      rfl

/-- A session at the start of a program. -/
def atStart (program : List UInt8) : Session :=
  ⟨(Machine.idle 0).after [.load program], ⟨program, []⟩, 0⟩

end Session

end Chip8
