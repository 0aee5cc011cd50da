import Chip8.Frontend

/-!
# Where Control Goes

An instruction has static successors, which are read off its word, and it has
an effect on a machine. `Flow` is what the two have to do with each other: it
lists the ways in which an executed instruction may change the instruction
pointer and the stack of return addresses, and says for each of them how the
new instruction pointer relates to the successors. Whatever is to be known
about control is derived from these five ways, and no later proof has to go
through the instructions again.

Two ways are not on the static side. A return goes wherever the stack says,
and a jump relative to `v0` goes where the register says. And two instructions
may stay in place although staying is none of their successors: `gkey` while
no key is held, and `ret` on an empty stack.

## Main definitions

* `Machine.Flow`: The ways in which an instruction passes control on.

## Theorems

* `execute_flow`: Every executed instruction passes control on in one of them.
* `execute_error`: An instruction that is refused has no effect.
* `step_ok`, `step_eq_of_execute`, `step_error`: The same for a step of the
  machine.
* `stepWith_eq`: The same steps are taken when a frontend is told of them.
* `exists_step_of_execute`, `exists_stepWith_of_step`: Steps of two machines that
  are related.
-/

namespace Chip8

namespace Machine

/-- The ways in which an instruction passes control on, from a machine to the
    machine behind it. -/
inductive Flow (ins : Instruction) (m m' : Machine) : Prop where
  /-- On to a successor, with nothing to return from. -/
  | onward (hip : m'.ip ∈ ins.successors m.ip) (hstack : m'.stack = m.stack)
  /-- Into a subroutine, which is to return to the next word. -/
  | enter (hop : ins.op.isCall = true) (hip : m'.ip = ins.operands.nnn)
      (hstack : m'.stack = (m.ip + 2) :: m.stack)
  /-- Back to where the latest call came from. -/
  | leave (hop : ins.op = .ret) (hstack : m.stack = m'.ip :: m'.stack)
  /-- Nowhere, until a key is held or for ever. -/
  | stay (hop : ins.op = .gkey ∨ ins.op = .ret ∧ m.stack = []) (hm : m' = m)
  /-- To an address that depends on a register. -/
  | branch (hop : ins.op = .brelv0) (hip : m'.ip = (m.reg 0).toUInt16 + ins.operands.nnn)
      (hstack : m'.stack = m.stack)

-- Skipping instructions go on to one of two words.
theorem skipIf_ip (condition : Bool) (m : Machine) :
    (m.skipIf condition).ip ∈ [m.ip + 2, m.ip + 4] := by
  cases condition with
  | false => exact List.mem_cons_self
  | true => exact List.mem_cons_of_mem _ List.mem_cons_self

theorem ret_flow {ins : Instruction} (hop : ins.op = .ret) (m : Machine) : Flow ins m m.ret := by
  unfold ret
  split
  · rename_i hstack
    exact .stay (Or.inr ⟨hop, hstack⟩) rfl
  · rename_i hstack
    exact .leave hop hstack

/-- Every executed instruction passes control on in one of the five ways. -/
theorem execute_flow {ins : Instruction} {m m' : Machine} {effect : Effect}
    (h : m.execute ins = (.ok effect, m')) : Flow ins m m' := by
  -- The last case stands for all instructions that do nothing to control but
  -- step to the next word.
  cases hop : ins.op with
  | call | callptr =>
      simp only [execute, hop] at h
      cases h
      exact .enter (by rw [hop]; rfl) rfl rfl
  | ret =>
      simp only [execute, hop] at h
      cases h
      exact ret_flow hop m
  | jmp =>
      simp only [execute, hop] at h
      cases h
      exact .onward (by rw [Instruction.successors, hop]; exact List.mem_cons_self) rfl
  | skeqi | skneqi | skeqr | skneqr | skeqkey | skneqkey =>
      simp only [execute, hop] at h
      cases h
      exact .onward (by rw [Instruction.successors, hop]; exact skipIf_ip _ m) rfl
  | brelv0 =>
      simp only [execute, hop] at h
      cases h
      exact .branch hop rfl rfl
  | gkey =>
      simp only [execute, hop] at h
      split at h
      · cases h
        exact .stay (Or.inl hop) rfl
      · cases h
        exact .onward (by rw [Instruction.successors, hop]; exact List.mem_cons_self) rfl
  | draw | sbcd | regdump | regload =>
      simp only [execute, hop] at h
      split at h
      · cases h
      · cases h
        exact .onward (by rw [Instruction.successors, hop]; exact List.mem_cons_self) rfl
  | _ =>
      simp only [execute, hop] at h
      cases h
      exact .onward (by rw [Instruction.successors, hop]; exact List.mem_cons_self) rfl

theorem execute_call {ins : Instruction} (hop : ins.op.isCall = true) (m : Machine) :
    m.execute ins = (.ok .quiet, m.call ins.operands.nnn) := by
  cases h : ins.op with
  | call | callptr => simp only [execute, h]
  | _ =>
      rw [h] at hop
      exact absurd hop (by decide)

theorem execute_ret {ins : Instruction} (hop : ins.op = .ret) (m : Machine) :
    m.execute ins = (.ok .quiet, m.ret) := by
  simp only [execute, hop]

/-- An instruction that is refused has no effect. -/
theorem execute_error {ins : Instruction} {m m' : Machine} {e : ExecutionError}
    (h : m.execute ins = (.error e, m')) : m' = m := by
  cases hop : ins.op with
  | draw | sbcd | regdump | regload =>
      simp only [execute, hop] at h
      split at h
      · cases h
        rfl
      · cases h
  | gkey =>
      simp only [execute, hop] at h
      split at h <;> cases h
  | _ =>
      simp only [execute, hop] at h
      cases h

/-- A step that succeeds fetches an instruction and executes it. -/
theorem step_ok {m m' : Machine} {ins : Instruction} {effect : Effect}
    (h : m.step = (.ok (ins, effect), m')) :
    m.fetch = .ok ins ∧ m.execute ins = (.ok effect, m') := by
  unfold step at h
  split at h
  · cases h
  · rename_i found hfetch
    split at h
    · cases h
    · rename_i hexecute
      cases h
      exact ⟨hfetch, hexecute⟩

/-- A step executes the instruction that is fetched. -/
theorem step_eq_of_execute {m m' : Machine} {ins : Instruction} {effect : Effect}
    (hfetch : m.fetch = .ok ins) (h : m.execute ins = (.ok effect, m')) :
    m.step = (.ok (ins, effect), m') := by
  simp only [step, hfetch, h]

/-- A step that fails has no effect. -/
theorem step_error {m m' : Machine} {e : ExecutionError} (h : m.step = (.error e, m')) :
    m' = m := by
  unfold step at h
  split at h
  · cases h
    rfl
  · split at h
    · rename_i hexecute
      cases h
      exact execute_error hexecute
    · cases h

/-- A frontend does not come between a machine and its step. -/
theorem stepWith_eq {σ : Type} (fe : Frontend σ) (m : Machine) (shown : σ) :
    ∃ shown', m.stepWith fe shown = (m.step.1, m.step.2, shown') := by
  unfold stepWith
  split
  · rename_i ins m' hstep
    exact ⟨_, by rw [hstep]⟩
  · rename_i ins m' hstep
    exact ⟨_, by rw [hstep]⟩
  · rename_i e m' hstep
    exact ⟨_, by rw [hstep]⟩

/-! ## Steps of two machines -/

section

variable {R : Machine → Machine → Prop} {m m' : Machine}

/-- A relation between machines that fetch the same is kept by a step, if it is
    kept by the instruction that they fetch. -/
theorem exists_step_of_execute (h : R m m') (hfetch : m'.fetch = m.fetch)
    (hexecute : ∀ ins, m.fetch = .ok ins →
      ∃ n, m'.execute ins = ((m.execute ins).1, n) ∧ R (m.execute ins).2 n) :
    ∃ n, m'.step = (m.step.1, n) ∧ R m.step.2 n := by
  cases hfound : m.fetch with
  | error e =>
      simp only [step, hfetch, hfound]
      exact ⟨m', rfl, h⟩
  | ok ins =>
      rcases hexecute ins hfound with ⟨n, hexecute', hkept⟩
      rcases hresult : m.execute ins with ⟨result, behind⟩
      rw [hresult] at hexecute' hkept
      simp only [step, hfetch, hfound, hresult, hexecute']
      cases result <;> exact ⟨n, rfl, hkept⟩

/-- If related machines have the same screen, steps that keep the relation show a
    frontend the same. -/
theorem exists_stepWith_of_step {σ : Type} (fe : Frontend σ) (shown : σ)
    (hscreen : ∀ {n n'}, R n n' → n'.screen = n.screen)
    (hstep : ∃ n, m'.step = (m.step.1, n) ∧ R m.step.2 n) :
    ∃ n, m'.stepWith fe shown = ((m.stepWith fe shown).1, n, (m.stepWith fe shown).2.2) ∧
      R (m.stepWith fe shown).2.1 n := by
  rcases hstep with ⟨n, hstep', hkept⟩
  rcases hresult : m.step with ⟨result, behind⟩
  rw [hresult] at hstep' hkept
  -- All that a frontend sees of a step is the screen behind it.
  have hshown : n.render fe shown = behind.render fe shown := by
    rw [render, render, hscreen hkept]
  cases result with
  | error e =>
      simp only [stepWith, hresult, hstep']
      exact ⟨n, rfl, hkept⟩
  | ok done =>
      rcases done with ⟨ins, effect⟩
      cases effect <;> simp only [stepWith, hresult, hstep', hshown] <;> exact ⟨n, rfl, hkept⟩

end

end Machine

end Chip8
