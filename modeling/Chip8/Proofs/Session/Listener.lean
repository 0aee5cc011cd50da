import Chip8.Proofs.Session.Step
import Mathlib.Data.List.Basic

/-!
# Listening to a Session

To say what a frontend is told, another one is put beside it that is told the
same: a listener, which keeps a state of its own and has no say in when the
run stops. The frontend itself does not notice. Its state, the stop flag, the
session and the outcome are those of the run without a listener, so what the
listener finds out it finds out about every frontend.

A listener is followed step by step. If one step keeps a relation between the
session and what has been heard, then so does every way to run the session, as
long as nothing fails; and a failure is heard in the step that it ends the run
with. Only one failure is not a failure of a step, and no listener hears of it:
that of fetching ahead, when it is looked whether a step would be a call.

## Main definitions

* `Frontend.joined`: A frontend with a listener beside it.
* `Frontend.Follows`: What single steps keep between a session and a listener.
* `Control`, `Control.perform`: The ways to run a session.

## Theorems

* `stepIn_joined`: A single step is told to both.
* `run_joined`, `returnTo_joined`: Steps in a row are told to both.
* `perform_joined`: However a session is run, both are told.
* `perform_keeps`: What every single step keeps is kept by every run.
-/

namespace Chip8

variable {σ ρ : Type}

namespace Watched

/-- A frontend's state with what a listener has heard beside it. -/
def join (shown : Watched σ) (heard : ρ) : Watched (σ × ρ) :=
  ⟨(shown.state, heard), shown.stop⟩

/-- The frontend's own part. -/
def own (both : Watched (σ × ρ)) : Watched σ :=
  ⟨both.state.1, both.stop⟩

/-- What the listener has heard. -/
def heard (both : Watched (σ × ρ)) : ρ :=
  both.state.2

theorem lower_join (shown : Watched σ) (heard : ρ) :
    (shown.join heard).lower = shown.lower.join heard := rfl

end Watched

/-- A frontend with a listener beside it, who is told everything as well. -/
def Frontend.joined (fe : Frontend (Watched σ)) (listener : Frontend ρ) :
    Frontend (Watched (σ × ρ)) where
  renderPixel x y value both :=
    (fe.renderPixel x y value both.own).join (listener.renderPixel x y value both.heard)
  reportError message both :=
    (fe.reportError message both.own).join (listener.reportError message both.heard)
  followStep ip result both :=
    (fe.followStep ip result both.own).join (listener.followStep ip result both.heard)

section Single

@[simp]
theorem Frontend.reportError_joined (fe : Frontend (Watched σ)) (listener : Frontend ρ)
    (message : String) (shown : Watched σ) (heard : ρ) :
    (fe.joined listener).reportError message (shown.join heard)
      = (fe.reportError message shown).join (listener.reportError message heard) := rfl

@[simp]
theorem Frontend.followStep_joined (fe : Frontend (Watched σ)) (listener : Frontend ρ)
    (ip : UInt16) (result : Except ExecutionError Instruction) (shown : Watched σ) (heard : ρ) :
    (fe.joined listener).followStep ip result (shown.join heard)
      = (fe.followStep ip result shown).join (listener.followStep ip result heard) := rfl

variable (fe : Frontend (Watched σ)) (listener : Frontend ρ) (shown : Watched σ) (heard : ρ)

theorem Machine.render_joined (m : Machine) :
    m.render (fe.joined listener) (shown.join heard)
      = (m.render fe shown).join (m.render listener heard) := by
  unfold Machine.render Screen.foldPixels
  -- The rows are visited one after another, and so are the pixels of a row.
  refine List.foldl_hom₂ _ Watched.join _ _ _ _ _ (fun shown heard y => ?_)
  exact (List.foldl_hom₂ _ Watched.join _ _ _ _ _ (fun _ _ _ => rfl)).symm

/-- A step of the machine is told to both. -/
theorem Machine.stepWith_joined (m : Machine) :
    m.stepWith (fe.joined listener) (shown.join heard)
      = ((m.stepWith fe shown).1, (m.stepWith fe shown).2.1,
          (m.stepWith fe shown).2.2.join (m.stepWith listener heard).2.2) := by
  rcases hstep : m.step with ⟨result, m'⟩
  cases result with
  | error e => simp only [stepWith, hstep, Frontend.reportError_joined]
  | ok done =>
      rcases done with ⟨ins, effect⟩
      cases effect with
      | quiet => simp only [stepWith, hstep]
      | redraw => simp only [stepWith, hstep, render_joined]

/-- A single step of a session is told to both, and depends on neither. -/
theorem Session.stepIn_joined (s : Session) :
    s.stepIn (fe.joined listener) (shown.join heard)
        = ((s.stepIn fe shown).1, (s.stepIn fe shown).2.1,
            (s.stepIn fe shown).2.2.join (s.stepIn listener heard).2.2) ∧
      (s.stepIn listener heard).1 = (s.stepIn fe shown).1 ∧
      (s.stepIn listener heard).2.1 = (s.stepIn fe shown).2.1 := by
  rcases s.machine.stepWith_eq fe shown with ⟨told, htold⟩
  rcases s.machine.stepWith_eq listener heard with ⟨hears, hhears⟩
  have hboth := s.machine.stepWith_joined fe listener shown heard
  rw [htold, hhears] at hboth
  rcases hstep : s.machine.step with ⟨result, m'⟩
  rw [hstep] at htold hhears hboth
  cases result with
  | error e => simp only [stepIn, htold, hhears, hboth, Frontend.followStep_joined, and_self]
  | ok done => simp only [stepIn, htold, hhears, hboth, Frontend.followStep_joined, and_self]

end Single

/-! ## Steps in a row -/

/-- A single step keeps a relation between a session and what has been heard if
    it succeeds, and if it fails it ends with another one. -/
structure Frontend.Follows (listener : Frontend ρ) (keeps : Session → ρ → Prop)
    (fails : ExecutionError → Session → ρ → Prop) : Prop where
  ok {s s' : Session} {heard heard' : ρ} {outcome : Outcome} (h : keeps s heard)
    (hstep : s.stepIn listener heard = (.ok outcome, s', heard')) : keeps s' heard'
  error {s s' : Session} {heard heard' : ρ} {e : ExecutionError} (h : keeps s heard)
    (hstep : s.stepIn listener heard = (.error e, s', heard')) : fails e s' heard'

/-- What holds behind a run that has come to a result, or to none yet. -/
def Frontend.Heard (keeps : Session → ρ → Prop) (fails : ExecutionError → Session → ρ → Prop) :
    Option (Except ExecutionError Outcome) → Session → ρ → Prop
  | some (.error e) => fails e
  | some (.ok _) | none => keeps

namespace Session

variable {fe : Frontend (Watched σ)} {listener : Frontend ρ} {keeps : Session → ρ → Prop}
  {fails : ExecutionError → Session → ρ → Prop} {s : Session} {shown : Watched σ} {heard : ρ}

open Frontend (Heard)

/-- What one step of both comes to. -/
theorem stepIn_joined_heard (hfollows : listener.Follows keeps fails) (h : keeps s heard)
    {result : Except ExecutionError Outcome} {s' : Session} {shown' : Watched σ}
    (hstep : s.stepIn fe shown = (result, s', shown')) :
    ∃ heard', s.stepIn (fe.joined listener) (shown.join heard)
        = (result, s', shown'.join heard') ∧ Heard keeps fails (some result) s' heard' := by
  rcases stepIn_joined fe listener shown heard s with ⟨hboth, hresult, hsession⟩
  rw [hstep] at hboth hresult hsession
  have hhears : s.stepIn listener heard = (result, s', (s.stepIn listener heard).2.2) :=
    Prod.ext hresult (Prod.ext hsession rfl)
  refine ⟨_, hboth, ?_⟩
  cases result with
  | error e => exact hfollows.error h hhears
  | ok outcome => exact hfollows.ok h hhears

/-- A run is told to both, and the listener does not change it. -/
theorem run_joined (fe : Frontend (Watched σ)) (shown : Watched σ)
    (hfollows : listener.Follows keeps fails) (limit : Nat) (h : keeps s heard) :
    ∃ heard', run (fe.joined listener) limit s (shown.join heard)
        = ((run fe limit s shown).1, (run fe limit s shown).2.1,
            (run fe limit s shown).2.2.join heard') ∧
      Heard keeps fails (some (run fe limit s shown).1) (run fe limit s shown).2.1 heard' := by
  induction limit generalizing s shown heard with
  | zero => exact ⟨heard, rfl, h⟩
  | succ limit ih =>
      rw [run, run]
      by_cases hstop : shown.stop = true
      · rw [if_pos hstop, if_pos (show (shown.join heard).stop = true from hstop)]
        exact ⟨heard, rfl, h⟩
      · rw [if_neg hstop, if_neg (show ¬(shown.join heard).stop = true from hstop)]
        -- The stop flag is that of the frontend, so both runs go on or neither does.
        rcases hstep : s.stepIn fe shown with ⟨result, s', shown'⟩
        rcases stepIn_joined_heard hfollows h hstep with ⟨heard', hboth, hheard⟩
        rw [hboth]
        cases result with
        | error e => exact ⟨heard', rfl, hheard⟩
        | ok outcome =>
            cases outcome with
            | stepped => exact ih shown' hheard
            | stopped | stepLimit | stalled => exact ⟨heard', rfl, hheard⟩

/-- Going to an address is told to both, and the listener does not change it. -/
theorem returnTo_joined (hfollows : listener.Follows keeps fails) (address : UInt16)
    (bound : Nat) (h : keeps s heard) :
    ∃ heard', returnTo (fe.joined listener) address bound s (shown.join heard)
        = ((returnTo fe address bound s shown).1, (returnTo fe address bound s shown).2.1,
            (returnTo fe address bound s shown).2.2.join heard') ∧
      Heard keeps fails (returnTo fe address bound s shown).1
        (returnTo fe address bound s shown).2.1 heard' := by
  induction bound generalizing s shown heard with
  | zero => exact ⟨heard, rfl, h⟩
  | succ bound ih =>
      rw [returnTo, returnTo]
      -- Where it ends depends on the session and the stop flag, and both have them alike.
      rcases hstep : s.stepIn fe shown with ⟨result, s', shown'⟩
      rcases stepIn_joined_heard hfollows h hstep with ⟨heard', hboth, hheard⟩
      rw [hboth]
      cases result with
      | error e => exact ⟨heard', rfl, hheard⟩
      | ok outcome =>
          by_cases hip : s'.machine.ip = address
          · simp only [if_pos hip]
            exact ⟨heard', rfl, hheard⟩
          · simp only [if_neg hip]
            by_cases hout : outcome ≠ .stepped
            · simp only [if_pos hout]
              exact ⟨heard', rfl, hheard⟩
            · simp only [if_neg hout]
              by_cases hstop : shown'.stop = true
              · rw [if_pos hstop, if_pos (show (shown'.join heard').stop = true from hstop)]
                exact ⟨heard', rfl, hheard⟩
              · rw [if_neg hstop, if_neg (show ¬(shown'.join heard').stop = true from hstop)]
                exact ih hheard

end Session

/-! ## Every way to run a session -/

/-- The ways to run a session: one step, over a subroutine, or on, with or
    without a limit on the number of steps. -/
inductive Control where
  | stepIn
  | stepOver
  | continueFor (limit : Option Nat)
  deriving DecidableEq, Repr

/-- A session run in one of the ways. Those that have no limit of their own
    have no result when `bound` steps are not enough. -/
def Control.perform (fe : Frontend (Watched σ)) (bound : Nat) (s : Session) (shown : Watched σ) :
    Control → Option (Except ExecutionError Outcome) × Session × Watched σ
  | .stepIn =>
      match s.stepIn fe shown with
      | (result, ended) => (some result, ended)
  | .stepOver => s.stepOver fe bound shown
  | .continueFor (some limit) =>
      match s.continueFor fe limit shown with
      | (result, ended) => (some result, ended)
  | .continueFor none =>
      match s.continueFor fe bound shown with
      | (.ok .stepLimit, ended) => (none, ended)
      | (result, ended) => (some result, ended)

section Perform

variable {fe : Frontend (Watched σ)} {listener : Frontend ρ} {keeps : Session → ρ → Prop}
  {fails : ExecutionError → Session → ρ → Prop} {s : Session} {shown : Watched σ} {heard : ρ}

-- What is fetched ahead, by the one way to run a session that does so.
theorem Control.exists_fetch_ahead {control : Control}
    (h : ¬(control = .stepOver ∧ ∃ e, s.machine.fetch = .error e)) :
    control = .stepOver → ∃ ins, s.machine.fetch = .ok ins := by
  intro hover
  cases hfetch : s.machine.fetch with
  | ok ins => exact ⟨ins, rfl⟩
  | error e => exact absurd ⟨hover, e, hfetch⟩ h

/-- However a session is run, the run is told to both and the listener does not
    change it. Only a failure of fetching ahead is not told to anyone. -/
theorem Control.perform_joined (hfollows : listener.Follows keeps fails) (h : keeps s heard)
    (control : Control) (bound : Nat)
    (hahead : control = .stepOver → ∃ ins, s.machine.fetch = .ok ins) :
    ∃ heard', control.perform (fe.joined listener) bound s (shown.join heard)
        = ((control.perform fe bound s shown).1, (control.perform fe bound s shown).2.1,
            (control.perform fe bound s shown).2.2.join heard') ∧
      Frontend.Heard keeps fails (control.perform fe bound s shown).1
        (control.perform fe bound s shown).2.1 heard' := by
  cases control with
  | stepIn =>
      rcases hstep : s.stepIn fe shown with ⟨result, s', shown'⟩
      rcases Session.stepIn_joined_heard hfollows h hstep with ⟨heard', hboth, hheard⟩
      simp only [perform, hstep, hboth]
      exact ⟨heard', rfl, hheard⟩
  | stepOver =>
      -- The instruction that is fetched ahead decides between a single step and a return.
      rcases hahead rfl with ⟨ins, hfetch⟩
      simp only [perform, Session.stepOver, hfetch]
      by_cases hcall : ins.op.isCall = true
      · simp only [if_pos hcall, Watched.lower_join]
        exact Session.returnTo_joined hfollows s.returnAddress bound h
      · simp only [if_neg hcall]
        rcases hstep : s.stepIn fe shown with ⟨result, s', shown'⟩
        rcases Session.stepIn_joined_heard hfollows h hstep with ⟨heard', hboth, hheard⟩
        simp only [hboth]
        exact ⟨heard', rfl, hheard⟩
  | continueFor limit =>
      cases limit with
      | some limit =>
          rcases Session.run_joined fe shown.lower hfollows limit h with ⟨heard', hboth, hheard⟩
          simp only [perform, Session.continueFor, Watched.lower_join, hboth]
          exact ⟨heard', rfl, hheard⟩
      | none =>
          -- Without a limit, a run that reaches the bound counts as one that has not ended.
          rcases Session.run_joined fe shown.lower hfollows bound h with ⟨heard', hboth, hheard⟩
          simp only [perform, Session.continueFor, Watched.lower_join, hboth]
          rcases hrun : Session.run fe bound s shown.lower with ⟨result, s', shown'⟩
          rw [hrun] at hheard
          cases result with
          | error e => exact ⟨heard', rfl, hheard⟩
          | ok outcome =>
              cases outcome with
              | stepLimit | stepped | stopped | stalled => exact ⟨heard', rfl, hheard⟩

/-- What every single step keeps, whether it succeeds or fails, is kept however a
    session is run. A failure of fetching ahead changes nothing. -/
theorem Control.perform_keeps (hfollows : listener.Follows keeps fun _ => keeps) (heard : ρ)
    (h : keeps s heard) (control : Control) (bound : Nat) :
    ∃ heard', control.perform (fe.joined listener) bound s (shown.join heard)
        = ((control.perform fe bound s shown).1, (control.perform fe bound s shown).2.1,
            (control.perform fe bound s shown).2.2.join heard') ∧
      keeps (control.perform fe bound s shown).2.1 heard' := by
  by_cases hahead : control = .stepOver ∧ ∃ e, s.machine.fetch = .error e
  · rcases hahead with ⟨rfl, e, hfetch⟩
    simp only [perform, Session.stepOver, hfetch]
    exact ⟨heard, rfl, h⟩
  · rcases perform_joined hfollows h control bound (exists_fetch_ahead hahead) with
      ⟨heard', hboth, hheard⟩
    refine ⟨heard', hboth, ?_⟩
    cases hresult : (control.perform fe bound s shown).1 with
    | none =>
        rw [hresult] at hheard
        exact hheard
    | some result =>
        rw [hresult] at hheard
        cases result <;> exact hheard

end Perform

end Chip8
