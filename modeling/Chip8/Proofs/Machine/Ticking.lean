import Chip8.Proofs.Machine.Access

/-!
# Ticks Nobody Notices

The timers are ticked by a clock that knows nothing of the program, so the same
program may find more or fewer ticks between two of its instructions each time
that it is run. There is one instruction that looks at a timer, `gdtc`. Where it
is not executed, the ticks make no difference to anything but the timers: not to
what is replied to any other access, not to what a frontend is shown, and not to
the machine.

Two machines that differ in nothing but their timers are followed side by side.
An instruction other than `gdtc` does the same on both, and what it writes into
a timer does not bring them together or further apart in any other respect. A
tick on one side alone does not either. So it does not matter where the ticks
are on either side.

## Main definitions

* `Machine.withTimers`: A machine with other timers.
* `Machine.TimersAside`: Machines that differ in nothing but their timers.
* `Access.tick`, `Reply.ofTick`: Ticks, and what they come to.
* `TicksApart`: Accesses that differ in nothing but ticks.

## Theorems

* `exists_execute_withTimers`: Instructions but one do not look at the timers.
* `TimersAside.serve`: Such machines reply alike.
* `TicksApart.access`: Ticks on either side make no difference.
* `ticks_unnoticed`: The same, whatever the ticks are between the accesses.
-/

namespace Chip8

namespace Machine

variable {m m' : Machine} {ins : Instruction}

/-- A machine with other timers. -/
def withTimers (t : Timers) (m : Machine) : Machine :=
  { m with timers := t }

@[simp]
theorem withTimers_memory (t : Timers) (m : Machine) : (m.withTimers t).memory = m.memory := rfl

@[simp]
theorem withTimers_i (t : Timers) (m : Machine) : (m.withTimers t).i = m.i := rfl

@[simp]
theorem withTimers_reg (t : Timers) (m : Machine) : (m.withTimers t).reg = m.reg := rfl

@[simp]
theorem withTimers_stack (t : Timers) (m : Machine) : (m.withTimers t).stack = m.stack := rfl

@[simp]
theorem withTimers_keys (t : Timers) (m : Machine) : (m.withTimers t).keys = m.keys := rfl

/-- An instruction other than `gdtc` does the same whatever the timers are. It
    may set one of them. -/
theorem exists_execute_withTimers (hop : ins.op ≠ .gdtc) (t : Timers) (m : Machine) :
    ∃ t', (m.withTimers t).execute ins = ((m.execute ins).1, (m.execute ins).2.withTimers t') := by
  cases hcase : ins.op with
  | gdtc => exact absurd hcase hop
  | sdtc =>
      -- These two set a timer, so on both sides it is the same from then on.
      simp only [execute, hcase]
      exact ⟨{ t with delay := m.reg ins.operands.x.toNat }, rfl⟩
  | sstc =>
      simp only [execute, hcase]
      exact ⟨{ t with sound := m.reg ins.operands.x.toNat }, rfl⟩
  | ret =>
      simp only [execute, hcase, ret, withTimers_stack]
      cases m.stack <;> exact ⟨t, rfl⟩
  | gkey =>
      simp only [execute, hcase, withTimers_keys]
      cases m.keys.lowestHeld? <;> exact ⟨t, rfl⟩
  | draw | regload =>
      simp only [execute, hcase, withTimers_memory, withTimers_i]
      cases m.memory.block m.i.toNat _ <;> exact ⟨t, rfl⟩
  | sbcd | regdump =>
      simp only [execute, hcase, withTimers_memory, withTimers_i, withTimers_reg]
      cases m.memory.write m.i.toNat _ <;> exact ⟨t, rfl⟩
  | _ =>
      simp only [execute, hcase]
      exact ⟨t, rfl⟩

/-! ## Side by side -/

/-- Machines that differ in nothing but their timers. -/
def TimersAside (m m' : Machine) : Prop :=
  ∃ t, m' = m.withTimers t

namespace TimersAside

theorem refl (m : Machine) : TimersAside m m :=
  ⟨m.timers, rfl⟩

theorem tick_left (h : TimersAside m m') : TimersAside m.tick.1 m' := by
  rcases h with ⟨t, rfl⟩
  exact ⟨t, rfl⟩

theorem tick_right (h : TimersAside m m') : TimersAside m m'.tick.1 := by
  rcases h with ⟨t, rfl⟩
  exact ⟨t.tick.1, rfl⟩

theorem fetch (h : TimersAside m m') : m'.fetch = m.fetch := by
  rcases h with ⟨t, rfl⟩
  rfl

theorem screen_eq (h : TimersAside m m') : m'.screen = m.screen := by
  rcases h with ⟨t, rfl⟩
  rfl

theorem execute (h : TimersAside m m') (hop : ins.op ≠ .gdtc) :
    ∃ n, m'.execute ins = ((m.execute ins).1, n) ∧ TimersAside (m.execute ins).2 n := by
  rcases h with ⟨t, rfl⟩
  rcases exists_execute_withTimers hop t m with ⟨t', hexecute⟩
  exact ⟨_, hexecute, t', rfl⟩

/-- They step alike, if they do not look at a timer. -/
theorem step (h : TimersAside m m') (hgdtc : ∀ ins effect, m.step.1 = .ok (ins, effect) →
    ins.op ≠ .gdtc) :
    ∃ n, m'.step = (m.step.1, n) ∧ TimersAside m.step.2 n := by
  refine exists_step_of_execute h h.fetch fun ins hfetch => h.execute fun hop => ?_
  -- What is fetched is executed, as `gdtc` is never refused.
  have hresult : m.step.1 = .ok (ins, .quiet) := by
    simp only [Machine.step, hfetch, Machine.execute, hop]
  exact hgdtc ins .quiet hresult hop

-- Whoever reaches into a machine, but for ticks, is answered alike.
theorem operate (h : TimersAside m m') {op : Operation} (hstep : op ≠ .step) (htick : op ≠ .tick) :
    op.answer m' = op.answer m ∧ TimersAside (op.apply m) (op.apply m') := by
  rcases h with ⟨t, rfl⟩
  cases op with
  | step => exact absurd rfl hstep
  | tick => exact absurd rfl htick
  | load program =>
      simp only [Operation.answer, Operation.apply, load]
      split
      · -- A program that is loaded stops both timers.
        exact ⟨rfl, .refl _⟩
      · exact ⟨rfl, t, rfl⟩
  | setRegister number value =>
      simp only [Operation.answer, Operation.apply, setRegister]
      split
      · split <;> exact ⟨rfl, t, rfl⟩
      · exact ⟨rfl, t, rfl⟩
      · exact ⟨rfl, t, rfl⟩
      · exact ⟨rfl, t, rfl⟩
  | writeByte address value =>
      simp only [Operation.answer, Operation.apply, writeByte, withTimers_memory]
      cases m.memory.write address [value] <;> exact ⟨rfl, t, rfl⟩
  | unload | press | release | setPixel => exact ⟨rfl, t, rfl⟩

end TimersAside

end Machine

/-! ## Accesses side by side -/

/-- A tick of the timers. -/
def Access.tick : Access :=
  .request (.operate .tick)

/-- Whether a reply is that to a tick. -/
def Reply.ofTick : Reply → Bool
  | .answer (.ticked _) => true
  | _ => false

/-- Accesses that differ in nothing but the ticks between them. -/
inductive TicksApart : List Access → List Access → Prop where
  | nil : TicksApart [] []
  | left {accesses accesses' : List Access} (h : TicksApart accesses accesses') :
      TicksApart (.tick :: accesses) accesses'
  | right {accesses accesses' : List Access} (h : TicksApart accesses accesses') :
      TicksApart accesses (.tick :: accesses')
  | both (access : Access) {accesses accesses' : List Access} (h : TicksApart accesses accesses') :
      TicksApart (access :: accesses) (access :: accesses')

section

variable {σ : Type} {m m' : Machine}

/-- Machines that differ in nothing but their timers reply alike to what is not a
    tick, if it does not make them look at a timer. -/
theorem Machine.TimersAside.serve (fe : Frontend σ) (shown : σ) (h : TimersAside m m')
    {access : Access} (htick : access ≠ .tick)
    (hgdtc : ∀ ins, (access.serve fe m shown).1.executed? = some ins → ins.op ≠ .gdtc) :
    ∃ n, access.serve fe m' shown
        = ((access.serve fe m shown).1, n, (access.serve fe m shown).2.2) ∧
      TimersAside (access.serve fe m shown).2.1 n := by
  cases access with
  | pixel x y =>
      simp only [Access.serve, h.screen_eq]
      exact ⟨m', rfl, h⟩
  | request made =>
      cases made with
      | operate op =>
          by_cases hstep : op = .step
          · subst hstep
            -- A step that succeeds tells its instruction in the reply, so it is not `gdtc`.
            have hquiet : ∀ ins effect, m.step.1 = .ok (ins, effect) → ins.op ≠ .gdtc := by
              intro ins effect hresult
              refine hgdtc ins ?_
              simp only [Access.serve, Request.serve, Operation.answer, hresult, Reply.executed?]
            rcases h.step hquiet with ⟨n, hn, hnext⟩
            simp only [Access.serve, Request.serve, Operation.answer, Operation.apply, hn]
            exact ⟨n, rfl, hnext⟩
          · rcases h.operate hstep (fun hop => htick (by rw [hop]; rfl)) with ⟨hanswer, hnext⟩
            simp only [Access.serve, Request.serve, hanswer]
            exact ⟨_, rfl, hnext⟩
      | stepWith =>
          -- The same for a step that is shown to a frontend.
          have hquiet : ∀ ins effect, m.step.1 = .ok (ins, effect) → ins.op ≠ .gdtc := by
            intro ins effect hresult
            refine hgdtc ins ?_
            rcases Access.serve_stepWith fe m shown with ⟨shown', heq⟩
            rw [heq, hresult]
            rfl
          rcases exists_stepWith_of_step fe shown screen_eq (h.step hquiet) with ⟨n, hn, hnext⟩
          simp only [Access.serve, Request.serve, hn]
          exact ⟨n, rfl, hnext⟩
      | fetch =>
          simp only [Access.serve, Request.serve, h.fetch]
          exact ⟨m', rfl, h⟩
      | register | readByte =>
          rcases h with ⟨t, rfl⟩
          exact ⟨_, rfl, t, rfl⟩

namespace TicksApart

/-- Accesses with the same others between the ticks differ in nothing but
    ticks. -/
theorem of_filter {accesses accesses' : List Access}
    (h : accesses'.filter (· ≠ .tick) = accesses.filter (· ≠ .tick)) :
    TicksApart accesses accesses' := by
  induction accesses generalizing accesses' with
  | nil =>
      induction accesses' with
      | nil => exact .nil
      | cons access accesses' ih =>
          by_cases htick : access = .tick
          · rw [htick] at h ⊢
            exact .right (ih (by simpa using h))
          · exact nomatch (List.filter_cons_of_pos (by simpa using htick)).symm.trans h
  | cons access accesses ih =>
      by_cases htick : access = .tick
      · rw [htick] at h ⊢
        exact .left (ih (by simpa using h))
      · -- The ticks in front of this access on the other side come first.
        rw [List.filter_cons_of_pos (by simpa using htick)] at h
        induction accesses' with
        | nil => exact nomatch h
        | cons access' accesses' ih' =>
            by_cases htick' : access' = .tick
            · rw [htick'] at h ⊢
              exact .right (ih' (by simpa using h))
            · rw [List.filter_cons_of_pos (by simpa using htick')] at h
              rcases List.cons.inj h with ⟨rfl, hrest⟩
              exact .both access' (ih hrest)

/-- Ticks on either side make no difference, as long as no timer is looked at. -/
theorem access (fe : Frontend σ) {accesses accesses' : List Access}
    (h : TicksApart accesses accesses') (hm : m.TimersAside m') (shown : σ)
    (hgdtc : ∀ reply ∈ (m.access fe accesses shown).1, ∀ ins, reply.executed? = some ins →
      ins.op ≠ .gdtc) :
    (m'.access fe accesses' shown).1.filter (!·.ofTick)
        = (m.access fe accesses shown).1.filter (!·.ofTick) ∧
      (m'.access fe accesses' shown).2.2 = (m.access fe accesses shown).2.2 ∧
      (m.access fe accesses shown).2.1.TimersAside (m'.access fe accesses' shown).2.1 := by
  induction h generalizing m m' shown with
  | nil => exact ⟨rfl, rfl, hm⟩
  | left _ ih =>
      -- A tick on one side changes nothing but the timers.
      exact ih hm.tick_left shown fun reply hreply =>
        hgdtc reply (List.mem_cons_of_mem _ hreply)
  | right _ ih => exact ih hm.tick_right shown hgdtc
  | both access _ ih =>
      have hlater := fun reply hreply => hgdtc reply (List.mem_cons_of_mem _ hreply)
      by_cases htick : access = .tick
      · -- A tick on both sides is a tick on each.
        subst htick
        exact ih hm.tick_left.tick_right shown hlater
      · rcases hm.serve fe shown htick (hgdtc _ List.mem_cons_self) with ⟨n, hserve, hnext⟩
        rcases ih hnext (access.serve fe m shown).2.2 hlater with ⟨hreplies, hshown, hend⟩
        simp only [Machine.access, hserve]
        refine ⟨?_, hshown, hend⟩
        rw [List.filter_cons, List.filter_cons, hreplies]

end TicksApart

/-- Ticks make no difference to a program that does not look at its timers. Take
    two lists of accesses to a machine that are the same but for where ticks are
    and how many. If no `gdtc` is executed along the first, then all replies but
    those to ticks are the same, a frontend is shown the same, and the machines
    behind them differ in nothing but their timers. -/
theorem Machine.ticks_unnoticed (fe : Frontend σ) (m : Machine) (shown : σ)
    {accesses accesses' : List Access}
    (hsame : accesses'.filter (· ≠ .tick) = accesses.filter (· ≠ .tick))
    (hgdtc : ∀ ins ∈ (m.access fe accesses shown).1.filterMap Reply.executed?,
      ins.op ≠ .gdtc) :
    (m.access fe accesses' shown).1.filter (!·.ofTick)
        = (m.access fe accesses shown).1.filter (!·.ofTick) ∧
      (m.access fe accesses' shown).2.2 = (m.access fe accesses shown).2.2 ∧
      ∃ t, (m.access fe accesses' shown).2.1 = (m.access fe accesses shown).2.1.withTimers t :=
  (TicksApart.of_filter hsame).access fe (.refl m) shown fun reply hreply ins hins =>
    hgdtc ins (List.mem_filterMap.mpr ⟨reply, hreply, hins⟩)

/-- A program that starts both timers, with ticks in between on one side only. The
    timers end up apart, and nothing else does. -/
theorem Machine.ticks_unnoticed_started :
    let m := (Machine.idle 0).after [.load [0x60, 0x02, 0xF0, 0x18, 0xF0, 0x15]]
    let step : Access := .request (.operate .step)
    let accesses := [step, step, step, .pixel 0 0]
    let accesses' := [.tick, step, step, .tick, .tick, step, .tick, .pixel 0 0]
    (accesses'.filter (· ≠ .tick) = accesses.filter (· ≠ .tick) ∧
        (m.access .silent accesses ()).2.1.timers = ⟨2, 2⟩ ∧
        (m.access .silent accesses' ()).2.1.timers = ⟨1, 0⟩) ∧
      (m.access .silent accesses' ()).1.filter (!·.ofTick)
          = (m.access .silent accesses ()).1.filter (!·.ofTick) ∧
        ∃ t, (m.access .silent accesses' ()).2.1
          = (m.access .silent accesses ()).2.1.withTimers t := by
  intro m step accesses accesses'
  have hrun : (∀ ins ∈ (m.access .silent accesses ()).1.filterMap Reply.executed?,
        ins.op ≠ .gdtc) ∧
      (m.access .silent accesses ()).2.1.timers = ⟨2, 2⟩ ∧
      (m.access .silent accesses' ()).2.1.timers = ⟨1, 0⟩ := by decide +kernel
  have hsame : accesses'.filter (· ≠ .tick) = accesses.filter (· ≠ .tick) := by decide
  have hunnoticed := Machine.ticks_unnoticed .silent m () hsame hrun.1
  exact ⟨⟨hsame, hrun.2⟩, hunnoticed.1, hunnoticed.2.2⟩

end

end Chip8
