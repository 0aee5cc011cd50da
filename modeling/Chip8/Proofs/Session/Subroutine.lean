import Chip8.Proofs.Machine.CallStack
import Chip8.Proofs.Result
import Chip8.Proofs.Session.Step
import Mathlib.Control.Monad.Basic

/-!
# Going Over a Subroutine

Going over a call runs on until the instruction pointer is at the address
behind it. That is where the subroutine returns to, but it is not the only way
to get there. A subroutine that comes to the same call again runs through the
same address once more, inside of the inner call, and so does one that jumps
there. The session stops at the first of these occasions and reports that it is
done, while the return address of the call is still on the stack.

What decides is the last step. The stack is what it was before the call if and
only if that step is the return that belongs to the call. In every other case
the call is still open, with all of its frame in place.

## Theorems

* `returnTo_stepped`: Going to an address stops where it is first reached.
* `frame_until`: A call stays open until its return address is reached.
* `leaves_or_frame`: What it means that the return address is reached.
* `stepOver_returned_iff`: When the subroutine has returned.
-/

namespace Chip8

namespace Machine

variable {m : Machine} {address : UInt16} {below : List UInt16}

/-- A call stays open for as many steps as do not lead to its return
    address. -/
theorem frame_until {n : Nat} (h : address :: below <:+ m.stack)
    (hnot : ∀ k < n, (m.after (List.replicate (k + 1) .step)).ip ≠ address) :
    address :: below <:+ (m.after (List.replicate n .step)).stack := by
  induction n generalizing m with
  | zero => exact h
  | succ n ih =>
      rw [List.replicate_succ, after_cons]
      rcases step_frame h with hkept | hleaves
      · exact ih hkept (fun k hk => hnot (k + 1) (Nat.succ_lt_succ hk))
      · exact absurd hleaves.ip_step (hnot 0 (Nat.zero_lt_succ n))

theorem after_replicate_succ (n : Nat) (m : Machine) :
    m.after (List.replicate (n + 1) .step) = (m.after (List.replicate n .step)).step.2 := by
  rw [List.replicate_succ', after_append, after_cons, after_nil, Operation.apply]

/-- Where the return address of a call is first reached, the last step was the
    return that belongs to the call, or the call is still open. -/
theorem leaves_or_frame {ins : Instruction} {n : Nat} (hfetch : m.fetch = .ok ins)
    (hcall : ins.op.isCall = true)
    (hbefore : ∀ k < n, (m.after (List.replicate (k + 1) .step)).ip ≠ m.ip + 2) :
    LeavesCall (m.ip + 2) m.stack (m.after (List.replicate n .step)) ∨
      (m.ip + 2) :: m.stack <:+ (m.after (List.replicate (n + 1) .step)).stack := by
  have hstep : m.step = (.ok (ins, .quiet), m.call ins.operands.nnn) := by
    simp only [step, hfetch, execute_call hcall]
  have hcalled : (m.ip + 2) :: m.stack <:+ m.step.2.stack :=
    ⟨[], by rw [hstep, List.nil_append, call]⟩
  cases n with
  | zero => exact Or.inr hcalled
  | succ n =>
      -- The call is open in front of the last step, which decides.
      have hopen : (m.ip + 2) :: m.stack <:+ (m.after (List.replicate (n + 1) .step)).stack := by
        rw [List.replicate_succ, after_cons]
        exact frame_until hcalled (fun k hk => hbefore (k + 1) (Nat.succ_lt_succ hk))
      rw [after_replicate_succ (n + 1)]
      exact (step_frame hopen).symm

end Machine

namespace Session

variable {σ : Type} {fe : Frontend (Watched σ)} {s s' : Session} {shown shown' : Watched σ}

/-- Where going to an address is done, the first step has reached it, or the
    rest of the way begins behind that step. -/
theorem returnTo_succ_stepped {address : UInt16} {bound : Nat}
    (h : returnTo fe address (bound + 1) s shown = (some (.ok .stepped), s', shown')) :
    let first := (s.stepIn fe shown).2
    first.1.machine.ip = address ∧ (s', shown') = first ∨
      first.1.machine.ip ≠ address ∧
        returnTo fe address bound first.1 first.2 = (some (.ok .stepped), s', shown') := by
  intro first
  rw [returnTo] at h
  split at h
  · cases h
  · rename_i outcome s₁ shown₁ hstep
    have hfirst : first = (s₁, shown₁) := congrArg Prod.snd hstep
    rw [hfirst]
    by_cases hip : s₁.machine.ip = address
    · rw [if_pos hip] at h
      cases h
      exact Or.inl ⟨hip, rfl⟩
    · rw [if_neg hip] at h
      -- A stall is reported as such, and so is a stop.
      split at h
      · rename_i hout
        cases h
        exact absurd rfl hout
      · split at h
        · cases h
        · exact Or.inr ⟨hip, h⟩

/-- Going to an address takes single steps and is done where the address is
    reached first. -/
theorem returnTo_stepped {address : UInt16} {bound : Nat}
    (h : returnTo fe address bound s shown = (some (.ok .stepped), s', shown')) :
    ∃ n, (s', shown') = stepsIn fe (n + 1) (s, shown) ∧ s'.machine.ip = address ∧
      ∀ k < n, (stepsIn fe (k + 1) (s, shown)).1.machine.ip ≠ address := by
  induction bound generalizing s shown with
  | zero => cases h
  | succ bound ih =>
      -- The first step reaches the address, or it does not and the rest of the way does.
      rcases returnTo_succ_stepped h with ⟨hip, hlast⟩ | ⟨hip, hrest⟩
      · refine ⟨0, hlast, ?_, fun k hk => absurd hk (Nat.not_lt_zero k)⟩
        rw [← hlast] at hip
        exact hip
      · rcases ih hrest with ⟨n, hlast, hat, hbefore⟩
        refine ⟨n + 1, hlast, hat, ?_⟩
        intro k hk
        cases k with
        | zero => exact hip
        | succ k => exact hbefore k (Nat.lt_of_succ_lt_succ hk)

/-- Going over a call is done where the address behind the call is first
    reached. There the subroutine has returned, with the stack as it was before
    the call, if and only if the last step is the return that belongs to the
    call; and if it has not, the return address of the call is on the stack
    still, above the stack of before. -/
theorem stepOver_returned_iff {ins : Instruction} {bound : Nat}
    (hfetch : s.machine.fetch = .ok ins) (hcall : ins.op.isCall = true)
    (h : s.stepOver fe bound shown = (some (.ok .stepped), s', shown')) :
    ∃ n, s'.machine = s.machine.after (List.replicate (n + 1) .step) ∧
      s'.machine.ip = s.returnAddress ∧
      (∀ k < n, (s.machine.after (List.replicate (k + 1) .step)).ip ≠ s.returnAddress) ∧
      (s'.machine.stack = s.machine.stack ↔
        Machine.LeavesCall s.returnAddress s.machine.stack
          (s.machine.after (List.replicate n .step))) ∧
      (s'.machine.stack ≠ s.machine.stack →
        s.returnAddress :: s.machine.stack <:+ s'.machine.stack) := by
  simp only [stepOver, hfetch, if_pos hcall] at h
  rcases returnTo_stepped h with ⟨n, hlast, hat, hbefore⟩
  have hmachine : s'.machine = s.machine.after (List.replicate (n + 1) .step) := by
    rw [← machine_stepsIn (n + 1) (s, shown.lower), ← hlast]
  have hfirst : ∀ k < n, (s.machine.after (List.replicate (k + 1) .step)).ip ≠ s.returnAddress := by
    intro k hk
    rw [← machine_stepsIn (k + 1) (s, shown.lower)]
    exact hbefore k hk
  refine ⟨n, hmachine, hat, hfirst, ?_⟩
  rcases Machine.leaves_or_frame hfetch hcall hfirst with hleaves | hopen
  · have hreturned : s'.machine.stack = s.machine.stack := by
      rw [hmachine, Machine.after_replicate_succ]
      exact hleaves.stack_step
    exact ⟨iff_of_true hreturned hleaves, fun hnot => absurd hreturned hnot⟩
  · rw [← hmachine] at hopen
    -- An open call is deeper on the stack than the one before it.
    have hnot : s'.machine.stack ≠ s.machine.stack := by
      intro hsame
      rw [hsame] at hopen
      exact absurd hopen.length_le (Nat.not_succ_le_self _)
    refine ⟨iff_of_false hnot (fun hleaves => hnot ?_), fun _ => hopen⟩
    rw [hmachine, Machine.after_replicate_succ]
    exact hleaves.stack_step

/-- A program whose subroutine calls itself until `v0` is three, and counts the
    returns from itself in `v1`. -/
def recursive : Session :=
  atStart [0x02, 0x04, 0x12, 0x02, 0x70, 0x01, 0x40, 0x03, 0x00, 0xEE, 0x02, 0x04, 0x71, 0x01,
    0x00, 0xEE]

/-- Going over the outermost call runs the whole recursion, down to the return
    that belongs to this call. -/
theorem stepOver_recursive_returned :
    (recursive.stepOver Frontend.silent 20 (⟨(), false⟩ : Watched Unit)).1 = some (.ok .stepped) ∧
      ∃ n, Machine.LeavesCall 0x202 [] (recursive.machine.after (List.replicate n .step)) := by
  have hrun : recursive.machine.fetch = .ok ⟨.call, .address 0x204, rfl⟩ ∧
      (recursive.stepOver Frontend.silent 20 (⟨(), false⟩ : Watched Unit)).1
        = some (.ok .stepped) ∧
      (recursive.stepOver Frontend.silent 20 (⟨(), false⟩ : Watched Unit)).2.1.machine.stack
        = [] := by
    decide +kernel
  rcases hrun with ⟨hfetch, hdone, hstack⟩
  rcases stepOver_returned_iff hfetch rfl (eq_of_fst_eq hdone) with ⟨n, _, _, _, hreturned, _⟩
  exact ⟨hdone, n, hreturned.mp hstack⟩

/-- Going over the call in the subroutine is done at the return of an inner
    call, and the return address of the call is on the stack still. -/
theorem stepOver_recursive_open :
    let inner := (stepsIn Frontend.silent 3 (recursive, (⟨(), false⟩ : Watched Unit))).1
    let behind := inner.stepOver Frontend.silent 20 (⟨(), false⟩ : Watched Unit)
    inner.machine.fetch = .ok ⟨.call, .address 0x204, rfl⟩ ∧
      behind.1 = some (.ok .stepped) ∧ behind.2.1.machine.ip = inner.returnAddress ∧
      inner.machine.stack = [0x202] ∧ behind.2.1.machine.stack = [0x20C, 0x202] := by
  decide +kernel

end Session

end Chip8
