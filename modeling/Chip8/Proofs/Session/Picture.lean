import Chip8.Proofs.Machine.Footprint
import Chip8.Proofs.Machine.Operation
import Chip8.Proofs.Machine.Pixels
import Chip8.Proofs.Session.Listener

/-!
# The Picture of a Session

A frontend is shown the screen pixel by pixel, but only behind the steps that
drew on it. Whoever writes down what is shown has a picture, and the picture
is as good as the screen: it is the same after every way to run the session,
however the run ends.

Three facts carry this. An instruction that leaves nothing to show has left the
screen alone. One that has drawn is followed by the whole screen, so nothing
that the picture held before matters. And a step that is refused has drawn
nothing. Between the runs the machine may be reached into from outside, as long
as nobody writes pixels and nobody starts a program over.

The picture is drawn beside whatever frontend there is. Neither that frontend
nor the session takes notice of it.

## Main definitions

* `Frontend.picture`: What is shown, written down.
* `SessionEvent`: A run, or something done in between.
* `Session.follow`: A session behind a history of events.

## Theorems

* `screen_of_quiet`: What is not shown has not changed the screen.
* `render_picture`: A screen that is shown becomes the picture.
* `stepIn_picture`: One step keeps the picture.
* `perform_picture`: So does every way to run a session.
* `picture_eq_screen`: The picture of a history is the screen behind it.
-/

namespace Chip8

variable {σ : Type}

/-- What is shown, written down pixel by pixel. -/
def Frontend.picture : Frontend Screen where
  renderPixel x y value shown := shown.setPixel x y value
  reportError _ shown := shown
  followStep _ _ shown := shown

namespace Machine

/-- An instruction that leaves nothing to show has left the screen alone. -/
theorem screen_of_quiet {ins : Instruction} {m m' : Machine}
    (h : m.step = (.ok (ins, .quiet), m')) : m'.screen = m.screen := by
  rcases step_ok h with ⟨hfetch, hexecute⟩
  have hconfined := execute_confined (fits_of_fetch hfetch) hexecute
  have hdark : ¬(ins.op = .clear ∨ ins.op = .draw) := hconfined.redraw.not.mp nofun
  rw [not_or] at hdark
  exact hconfined.screen hdark.1 hdark.2

/-- A screen that is shown becomes the picture, whatever the picture was. -/
theorem render_picture (m : Machine) (shown : Screen) :
    m.render Frontend.picture shown = m.screen :=
  m.screen.foldPixels_setPixel shown

end Machine

/-! ## Single steps -/

/-- One step keeps the picture, whether it succeeds or fails. -/
theorem Session.stepIn_picture {s s' : Session} {shown shown' : Screen}
    {result : Except ExecutionError Outcome} (hscreen : shown = s.machine.screen)
    (h : s.stepIn Frontend.picture shown = (result, s', shown')) :
    shown' = s'.machine.screen := by
  rcases hstep : s.machine.step with ⟨done, m'⟩
  cases done with
  | error e =>
      have hsame := Machine.step_error hstep
      simp only [stepIn, Machine.stepWith, hstep] at h
      cases h
      rw [hsame]
      exact hscreen
  | ok done =>
      rcases done with ⟨ins, effect⟩
      cases effect with
      | quiet =>
          -- Without a redraw the screen is the same, so the picture still shows it.
          have hsame := Machine.screen_of_quiet hstep
          simp only [stepIn, Machine.stepWith, hstep] at h
          cases h
          exact hscreen.trans hsame.symm
      | redraw =>
          simp only [stepIn, Machine.stepWith, hstep, Machine.render_picture] at h
          cases h
          rfl

theorem Frontend.picture_follows :
    Frontend.picture.Follows (fun s shown => shown = s.machine.screen)
      (fun _ s shown => shown = s.machine.screen) where
  ok := Session.stepIn_picture
  error := Session.stepIn_picture

/-! ## Runs -/

namespace Control

/-- Every way to run a session keeps the picture, whatever the run comes to. The
    picture is drawn beside any frontend, and neither the run nor the frontend
    notices. -/
theorem perform_picture (fe : Frontend (Watched σ)) (control : Control) (bound : Nat)
    {s s' : Session} {shown shown' : Watched σ} {picture : Screen}
    {result : Option (Except ExecutionError Outcome)} (hscreen : picture = s.machine.screen)
    (h : control.perform fe bound s shown = (result, s', shown')) :
    control.perform (fe.joined .picture) bound s (shown.join picture)
      = (result, s', shown'.join s'.machine.screen) := by
  rcases perform_keeps Frontend.picture_follows picture hscreen control bound with
    ⟨heard, hboth, hheard⟩
  rw [h] at hboth hheard
  rw [hboth, hheard]

end Control

/-! ## Histories -/

/-- What happens to a session: it is run, or its machine is reached into. -/
inductive SessionEvent where
  | run (control : Control) (bound : Nat)
  | reach (op : Operation)
  deriving DecidableEq, Repr

/-- Nothing but a run draws on the screen. -/
def SessionEvent.KeepsScreen : SessionEvent → Prop
  | .run .. => True
  | .reach op => op.KeepsScreen

instance : DecidablePred SessionEvent.KeepsScreen
  | .run .. => .isTrue trivial
  | .reach op => inferInstanceAs (Decidable op.KeepsScreen)

/-- A session and the state of its frontend behind an event. -/
def SessionEvent.apply (fe : Frontend (Watched σ)) (p : Session × Watched σ) :
    SessionEvent → Session × Watched σ
  | .run control bound => (control.perform fe bound p.1 p.2).2
  | .reach op => ({ p.1 with machine := op.apply p.1.machine }, p.2)

/-- A session and the state of its frontend behind a history of events. -/
def Session.follow (fe : Frontend (Watched σ)) (p : Session × Watched σ)
    (history : List SessionEvent) : Session × Watched σ :=
  history.foldl (SessionEvent.apply fe) p

/-- A session and its frontend, with a picture of the screen beside it. -/
def Session.pictured (p : Session × Watched σ) : Session × Watched (σ × Screen) :=
  (p.1, p.2.join p.1.machine.screen)

/-- An event keeps the picture. -/
theorem SessionEvent.apply_pictured (fe : Frontend (Watched σ)) {event : SessionEvent}
    (hevent : event.KeepsScreen) (p : Session × Watched σ) :
    event.apply (fe.joined .picture) (Session.pictured p)
      = Session.pictured (event.apply fe p) := by
  cases event with
  | run control bound =>
      have hpicture := Control.perform_picture fe control bound rfl
        (Prod.eta (control.perform fe bound p.1 p.2)).symm
      exact congrArg Prod.snd hpicture
  | reach op =>
      have hsame := Operation.screen_apply hevent p.1.machine
      simp only [apply, Session.pictured, hsame]

namespace Session

/-- A history of events keeps the picture. -/
theorem follow_pictured (fe : Frontend (Watched σ)) {history : List SessionEvent}
    (hhistory : ∀ event ∈ history, event.KeepsScreen) (p : Session × Watched σ) :
    follow (fe.joined .picture) (pictured p) history = pictured (follow fe p history) := by
  induction history generalizing p with
  | nil => rfl
  | cons event history ih =>
      rw [List.forall_mem_cons] at hhistory
      have hfirst := SessionEvent.apply_pictured fe hhistory.1 p
      change follow (fe.joined .picture) (event.apply (fe.joined .picture) (pictured p)) history = _
      rw [hfirst]
      exact ih hhistory.2 (event.apply fe p)

-- The screen is dark when a program starts.
theorem screen_of_ofProgram {program : Program} {m : Machine} {s : Session}
    (h : ofProgram program m = .ok s) : s.machine.screen = .blank := by
  unfold ofProgram at h
  split at h
  · -- A session starts with a load, which leaves the screen dark.
    rename_i hload
    cases h
    unfold Machine.load at hload
    split at hload
    · cases hload
      rfl
    · cases hload
  · cases h

/-- A picture that is dark at first and takes down what is shown is the screen
    itself, behind every history of runs and of what is done to the machine in
    between. The runs may have limits, be stopped by the frontend or end with an
    error. Beside the picture there is any frontend, and what becomes of it and
    of the session is what becomes of them without the picture. -/
theorem picture_eq_screen {program : Program} {m : Machine} {s : Session}
    (h : ofProgram program m = .ok s) (fe : Frontend (Watched σ)) (shown : Watched σ)
    {history : List SessionEvent} (hhistory : ∀ event ∈ history, event.KeepsScreen) :
    let behind := follow (fe.joined .picture) (s, shown.join .blank) history
    behind.2.heard = behind.1.machine.screen ∧
      (behind.1, behind.2.own) = follow fe (s, shown) history := by
  intro behind
  have hstart : (s, shown.join Screen.blank) = pictured (s, shown) := by
    rw [pictured, screen_of_ofProgram h]
  have hbehind : behind = pictured (follow fe (s, shown) history) := by
    rw [← follow_pictured fe hhistory, ← hstart]
  rw [hbehind]
  exact ⟨rfl, rfl⟩

/-- A subroutine that draws the glyph of zero, and then a run onto a word that is
    no instruction, with a key pressed and the instruction pointer moved in
    between. The picture shows the glyph. -/
theorem picture_eq_screen_glyph :
    let history : List SessionEvent :=
      [.run .stepOver 10, .reach (.press 3), .reach (.setRegister 17 0x204),
        .run (.continueFor none) 10]
    (∀ event ∈ history, event.KeepsScreen) ∧
      (follow (Frontend.joined .silent .picture)
        (atStart [0x22, 0x06, 0x00, 0xE0, 0xFF, 0xFF, 0xD0, 0x05, 0x00, 0xEE],
          (⟨(), false⟩ : Watched Unit).join .blank) history).2.heard.pixel 0 0 = pixelOn := by
  intro history
  have hstart : ofProgram ⟨[0x22, 0x06, 0x00, 0xE0, 0xFF, 0xFF, 0xD0, 0x05, 0x00, 0xEE], []⟩
      (Machine.idle 0)
        = .ok (atStart [0x22, 0x06, 0x00, 0xE0, 0xFF, 0xFF, 0xD0, 0x05, 0x00, 0xEE]) := rfl
  have hhistory : ∀ event ∈ history, event.KeepsScreen := by decide
  have hpicture := picture_eq_screen hstart Frontend.silent (⟨(), false⟩ : Watched Unit) hhistory
  have hsession := congrArg Prod.fst hpicture.2
  refine ⟨hhistory, ?_⟩
  rw [hpicture.1, hsession]
  decide +kernel

end Session

end Chip8
