import Chip8.Proofs.Session.Listener
import Mathlib.Control.Monad.Basic

/-!
# Failures of a Session

What becomes of a failure that a run of a session ends with. It is the result
of the run, and a frontend is told its wording. To see how often, a log is kept
of what is reported: a listener that takes down nothing but errors, beside
whatever frontend there is.

A step that is refused is reported once, and the run ends with it. A run that
comes to another result, or to none yet, has reported nothing. So the log grows
by the failure that the run ends with, if there is one. To this there is one
exception. Going over an instruction first looks whether it is a call, and if
there is no instruction to look at, the run has failed before its first step
and nothing is reported.

## Main definitions

* `Frontend.errorLog`: The log.
* `reports`: What a run should report, judged by its result.
* `Control.FailsAhead`: A run fails before its first step.

## Theorems

* `stepIn_errorLog`: A single step reports its failure, and nothing else.
* `perform_of_fetch_error`: A run that fails before its first step is not told
  to anyone.
* `perform_errorLog`: What every run reports.
-/

namespace Chip8

/-- A log of the errors that are reported. -/
def Frontend.errorLog : Frontend (List String) where
  renderPixel _ _ _ log := log
  reportError message log := log ++ [message]
  followStep _ _ log := log

/-- What there is to report of a run, judged by its result: the wording of the
    failure that it ends with, if it does. -/
def reports : Option (Except ExecutionError Outcome) → List String
  | some (.error e) => [e.message]
  | some (.ok _) | none => []

-- The screen is not logged.
theorem Machine.render_errorLog (m : Machine) (log : List String) :
    m.render Frontend.errorLog log = log := by
  unfold Machine.render Screen.foldPixels
  refine List.foldl_fixed' (fun y => ?_) _
  exact List.foldl_fixed' (fun x => rfl) _

/-- A single step reports its failure, and nothing else. -/
theorem Session.stepIn_errorLog {s s' : Session} {log log' : List String}
    {result : Except ExecutionError Outcome}
    (h : s.stepIn Frontend.errorLog log = (result, s', log')) :
    log' = log ++ reports (some result) := by
  rcases hstep : s.machine.step with ⟨done, m'⟩
  cases done with
  | error e =>
      simp only [stepIn, Machine.stepWith, hstep] at h
      cases h
      rfl
  | ok done =>
      rcases done with ⟨ins, effect⟩
      -- A step that succeeds draws at most, and drawing is not logged.
      cases effect with
      | quiet =>
          simp only [stepIn, Machine.stepWith, hstep] at h
          cases h
          rw [reports, List.append_nil, Frontend.errorLog]
      | redraw =>
          simp only [stepIn, Machine.stepWith, hstep, Machine.render_errorLog] at h
          cases h
          rw [reports, List.append_nil, Frontend.errorLog]

-- The log stays as it was until a step fails.
theorem errorLog_follows (log : List String) :
    Frontend.errorLog.Follows (fun _ heard => heard = log)
      (fun e _ heard => heard = log ++ [e.message]) where
  ok h hstep := by rw [Session.stepIn_errorLog hstep, h, reports, List.append_nil]
  error h hstep := by rw [Session.stepIn_errorLog hstep, h, reports]

-- A failure is added to the log, whatever else is known of the run.
theorem eq_append_reports {log heard : List String} {s : Session}
    {result : Option (Except ExecutionError Outcome)}
    (h : Frontend.Heard (fun _ heard => heard = log)
      (fun e _ heard => heard = log ++ [e.message]) result s heard) :
    heard = log ++ reports result := by
  cases result with
  | none => rw [reports, List.append_nil, h]
  | some result =>
      cases result with
      | error e => rw [reports, h]
      | ok outcome => rw [reports, List.append_nil, h]

namespace Control

variable {σ : Type}

/-- The run fails before its first step, because there is no instruction whose
    kind could be looked at. -/
def FailsAhead (control : Control) (s : Session) : Prop :=
  control = .stepOver ∧ ∃ e, s.machine.fetch = .error e

/-- A run that fails before its first step leaves everything as it was, and is
    not told to anyone. -/
theorem perform_of_fetch_error {s : Session} {e : ExecutionError} (h : s.machine.fetch = .error e)
    (fe : Frontend (Watched σ)) (bound : Nat) (shown : Watched σ) :
    Control.stepOver.perform fe bound s shown = (some (.error e), s, shown) := by
  simp only [perform, Session.stepOver, h]

/-- Every run reports the failure that it ends with, once, and reports nothing
    when it does not fail; but if it fails before its first step, it reports
    nothing either. The log is kept beside any frontend, and neither the run
    nor the frontend notices. -/
theorem perform_errorLog (fe : Frontend (Watched σ)) (control : Control) (bound : Nat)
    (s : Session) (shown : Watched σ) (log : List String) :
    ∃ heard, control.perform (fe.joined .errorLog) bound s (shown.join log)
        = ((control.perform fe bound s shown).1, (control.perform fe bound s shown).2.1,
            (control.perform fe bound s shown).2.2.join heard) ∧
      (heard = log ++ reports (control.perform fe bound s shown).1 ↔ ¬control.FailsAhead s) ∧
      (control.FailsAhead s → heard = log) := by
  by_cases hahead : control.FailsAhead s
  · rcases hahead with ⟨rfl, e, hfetch⟩
    have hahead : Control.stepOver.FailsAhead s := ⟨rfl, e, hfetch⟩
    -- The failure is missing from the log.
    have hmissing : log ≠ log ++ reports (some (.error e)) :=
      fun h => List.cons_ne_nil _ _ (List.self_eq_append_right.mp h)
    rw [perform_of_fetch_error hfetch, perform_of_fetch_error hfetch]
    exact ⟨log, rfl, iff_of_false hmissing (not_not_intro hahead), fun _ => rfl⟩
  · rcases perform_joined (errorLog_follows log) rfl control bound (exists_fetch_ahead hahead) with
      ⟨heard, hboth, hheard⟩
    exact ⟨heard, hboth, iff_of_true (eq_append_reports hheard) hahead,
      fun hfails => absurd hfails hahead⟩

/-- At a word that is no instruction, a single step fails and reports it, and
    so does a run; going over the instruction fails alike and reports nothing. -/
theorem stepOver_undecodable_unreported :
    let s := Session.atStart [0xFF, 0xFF]
    let logged := fun control : Control =>
      control.perform (Frontend.joined .silent .errorLog) 1 s
        (⟨((), []), false⟩ : Watched (Unit × List String))
    let e := ExecutionError.undecodable 0x200 0xFFFF
    (logged .stepIn).1 = some (.error e) ∧ (logged .stepIn).2.2.state.2 = [e.message] ∧
      (logged (.continueFor none)).1 = some (.error e) ∧
      (logged (.continueFor none)).2.2.state.2 = [e.message] ∧
      (logged .stepOver).1 = some (.error e) ∧ (logged .stepOver).2.2.state.2 = [] := by
  decide +kernel

end Control

end Chip8
