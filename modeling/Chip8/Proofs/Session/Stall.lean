import Chip8.Proofs.Session.Step
import Mathlib.Control.Monad.Basic

/-!
# Stalls

A session gives up on a program when an instruction leaves the instruction
pointer in place. For most instructions that do this, nothing is left to
happen: a jump to itself finds the machine as it left it, and so does a wait
for a key.

Two instructions are different, as they use the stack. A call of its own
address puts another return address aside each time. And a return may come
back to itself, when the call in front of it fell through to it; what is left
on the stack then decides how the program goes on, and it may go on well. A
stall means the end of a program for all but these two.

## Main definitions

* `Session.Stalls`: A way to run a session ends as stalled.

## Theorems

* `eq_of_in_place`: What an instruction changes without going anywhere.
* `step_eq_self_iff`: When a machine that has not moved will not move again.
* `stepIn_stalled`, `run_stalled`, `returnTo_stalled`: Where a stall comes from.
* `stalled_stuck_iff`: When a session that stalls is stuck.
-/

namespace Chip8

namespace Machine

-- Addresses wrap around, but not within two words.
theorem ip_add_ne {a d : UInt16} (hd : d = 2 ∨ d = 4) : a + d ≠ a := by
  intro h
  have hnat := congrArg UInt16.toNat h
  have hlt := a.toNat_lt
  rw [UInt16.toNat_add] at hnat
  rcases hd with rfl | rfl
  · change (a.toNat + 2) % 65536 = _ at hnat
    omega
  · change (a.toNat + 4) % 65536 = _ at hnat
    omega

theorem skipIf_ip_ne (condition : Bool) (m : Machine) : (m.skipIf condition).ip ≠ m.ip := by
  cases condition with
  | false => exact ip_add_ne (Or.inl rfl)
  | true => exact ip_add_ne (Or.inr rfl)

/-- An instruction that leaves the instruction pointer in place changes nothing
    else, unless it is a call or a return. -/
theorem eq_of_in_place {ins : Instruction} {m m' : Machine} {effect : Effect}
    (h : m.execute ins = (.ok effect, m')) (hip : m'.ip = m.ip) (hcall : ins.op.isCall = false)
    (hret : ins.op ≠ .ret) : m' = m := by
  -- All instructions of the last case step to the next word.
  cases hop : ins.op with
  | call | callptr =>
      rw [hop] at hcall
      exact absurd hcall (by decide)
  | ret => exact absurd hop hret
  | jmp =>
      simp only [execute, hop] at h
      cases h
      change ins.operands.nnn = m.ip at hip
      rw [jump, hip]
  | brelv0 =>
      simp only [execute, hop] at h
      cases h
      change (m.reg 0).toUInt16 + ins.operands.nnn = m.ip at hip
      rw [jump, hip]
  | skeqi | skneqi | skeqr | skneqr | skeqkey | skneqkey =>
      simp only [execute, hop] at h
      cases h
      exact absurd hip (skipIf_ip_ne _ m)
  | gkey =>
      simp only [execute, hop] at h
      split at h
      · cases h
        rfl
      · cases h
        exact absurd hip (ip_add_ne (Or.inl rfl))
  | draw | sbcd | regdump | regload =>
      simp only [execute, hop] at h
      split at h
      · cases h
      · cases h
        exact absurd hip (ip_add_ne (Or.inl rfl))
  | _ =>
      simp only [execute, hop] at h
      cases h
      exact absurd hip (ip_add_ne (Or.inl rfl))

theorem step_of_fetch {m m' : Machine} {ins : Instruction} {effect : Effect}
    (hfetch : m.fetch = .ok ins) (h : m.execute ins = (.ok effect, m')) : m.step.2 = m' := by
  rw [step_eq_of_execute hfetch h]

-- What is fetched depends on memory and the instruction pointer alone.
theorem fetch_congr {m m' : Machine} (hip : m'.ip = m.ip) (hloaded : m'.loaded = m.loaded)
    (hmemory : m'.memory = m.memory) : m'.fetch = m.fetch := by
  rw [fetch, fetch, hloaded, hmemory, hip]

theorem ret_eq_self_iff {m : Machine} : m.ret = m ↔ m.stack = [] := by
  unfold ret
  split
  · rename_i hstack
    exact iff_of_true rfl hstack
  · rename_i address rest hstack
    refine iff_of_false ?_ (by rw [hstack]; exact List.cons_ne_nil _ _)
    intro h
    have hshort := congrArg Machine.stack h
    rw [hstack] at hshort
    exact List.cons_ne_self _ _ hshort.symm

theorem call_ne_self (address : UInt16) (m : Machine) : m.call address ≠ m := by
  intro h
  exact List.cons_ne_self _ _ (congrArg Machine.stack h)

/-- A step that has left the instruction pointer in place will be taken again,
    and changes nothing from then on, unless it was a call, or a return with
    somewhere left to return to. -/
theorem step_eq_self_iff {ins : Instruction} {m m' : Machine} {effect : Effect}
    (h : m.step = (.ok (ins, effect), m')) (hip : m'.ip = m.ip) :
    m'.fetch = .ok ins ∧
      (m'.step.2 = m' ↔ ins.op.isCall = false ∧ (ins.op = .ret → m'.stack = [])) := by
  rcases step_ok h with ⟨hfetch, hexecute⟩
  cases hcall : ins.op.isCall with
  | true =>
      -- A call is taken again and again, and each time the stack grows.
      rw [execute_call hcall] at hexecute
      cases hexecute
      have hfetch' : (m.call ins.operands.nnn).fetch = .ok ins :=
        (fetch_congr hip rfl rfl).trans hfetch
      refine ⟨hfetch', iff_of_false ?_ (fun h => nomatch h.1)⟩
      rw [step_of_fetch hfetch' (execute_call hcall _)]
      exact call_ne_self _ _
  | false =>
      by_cases hret : ins.op = .ret
      · -- A return takes an address off the stack unless there is none left.
        rw [execute_ret hret] at hexecute
        cases hexecute
        have hsame : m.ret.loaded = m.loaded ∧ m.ret.memory = m.memory := by
          unfold ret
          split <;> exact ⟨rfl, rfl⟩
        have hfetch' : m.ret.fetch = .ok ins :=
          (fetch_congr hip hsame.1 hsame.2).trans hfetch
        refine ⟨hfetch', ?_⟩
        rw [step_of_fetch hfetch' (execute_ret hret _), ret_eq_self_iff]
        exact ⟨fun h => ⟨rfl, fun _ => h⟩, fun h => h.2 hret⟩
      · -- Any other instruction that stays in place has changed nothing the first time.
        have hsame := eq_of_in_place hexecute hip hcall hret
        subst hsame
        exact ⟨hfetch, iff_of_true (step_of_fetch hfetch hexecute)
          ⟨rfl, fun h => absurd h hret⟩⟩

/-- A machine that one step leaves as it is, any number of steps leave as it
    is. -/
theorem after_steps_eq_self_iff {m : Machine} :
    (∀ n, m.after (List.replicate n .step) = m) ↔ m.step.2 = m := by
  constructor
  · intro h
    exact h 1
  · intro h n
    induction n with
    | zero => rfl
    | succ n ih =>
        rw [List.replicate_succ, after_cons, Operation.apply, h]
        exact ih

end Machine

namespace Session

section Single

variable {σ : Type} {fe : Frontend σ} {s s' : Session} {shown shown' : σ} {ip : UInt16}

/-- A stall comes from a step of the machine that leaves the instruction
    pointer in place. -/
theorem stepIn_stalled (h : s.stepIn fe shown = (.ok (.stalled ip), s', shown')) :
    ∃ ins effect, s.machine.step = (.ok (ins, effect), s'.machine) ∧
      s'.machine.ip = s.machine.ip ∧ s.machine.ip = ip := by
  rcases stepIn_ok h with ⟨⟨ins, effect, hstep⟩, _, houtcome⟩
  split at houtcome
  · rename_i hip
    exact ⟨ins, effect, hstep, hip, (Outcome.stalled.inj houtcome).symm⟩
  · cases houtcome

end Single

variable {σ : Type} {fe : Frontend (Watched σ)} {s s' : Session} {shown shown' : Watched σ}
  {ip : UInt16}

/-- A run that stalls does so with its last step. -/
theorem run_stalled {limit : Nat} (h : run fe limit s shown = (.ok (.stalled ip), s', shown')) :
    ∃ s₀ shown₀, stepIn fe s₀ shown₀ = (.ok (.stalled ip), s', shown') := by
  induction limit generalizing s shown with
  | zero =>
      rw [run] at h
      split at h <;> cases h
  | succ limit ih =>
      rw [run] at h
      split at h
      · cases h
      · split at h
        · exact ih h
        · exact ⟨s, shown, h⟩

/-- So does a subroutine that stalls. -/
theorem returnTo_stalled {address : UInt16} {bound : Nat}
    (h : returnTo fe address bound s shown = (some (.ok (.stalled ip)), s', shown')) :
    ∃ s₀ shown₀, stepIn fe s₀ shown₀ = (.ok (.stalled ip), s', shown') := by
  induction bound generalizing s shown with
  | zero => cases h
  | succ bound ih =>
      rw [returnTo] at h
      split at h
      · cases h
      · rename_i outcome _ _ hstep
        split at h
        · cases h
        · split at h
          · cases h
            exact ⟨s, shown, hstep⟩
          · split at h
            · cases h
            · exact ih h

theorem stepOver_stalled {bound : Nat}
    (h : stepOver fe bound s shown = (some (.ok (.stalled ip)), s', shown')) :
    ∃ s₀ shown₀, stepIn fe s₀ shown₀ = (.ok (.stalled ip), s', shown') := by
  unfold stepOver at h
  split at h
  · cases h
  · split at h
    · exact returnTo_stalled h
    · split at h
      rename_i hstep
      cases h
      exact ⟨s, shown, hstep⟩

/-- One of the ways to run a session ends as stalled, with the session in this
    state. -/
inductive Stalls (fe : Frontend (Watched σ)) (s : Session) (shown : Watched σ) (ip : UInt16) :
    Session → Prop where
  | stepIn (h : (s.stepIn fe shown).1 = .ok (.stalled ip)) :
      Stalls fe s shown ip (s.stepIn fe shown).2.1
  | stepOver {bound : Nat} (h : (s.stepOver fe bound shown).1 = some (.ok (.stalled ip))) :
      Stalls fe s shown ip (s.stepOver fe bound shown).2.1
  | continueFor {limit : Nat} (h : (s.continueFor fe limit shown).1 = .ok (.stalled ip)) :
      Stalls fe s shown ip (s.continueFor fe limit shown).2.1

/-- However a session is run, a stall is the end of its last step. -/
theorem Stalls.exists_stepIn (h : Stalls fe s shown ip s') :
    ∃ s₀ shown₀ shown', Session.stepIn fe s₀ shown₀ = (.ok (.stalled ip), s', shown') := by
  cases h with
  | stepIn h => exact ⟨s, shown, _, Prod.ext h rfl⟩
  | stepOver h =>
      rcases stepOver_stalled (Prod.ext h rfl) with ⟨s₀, shown₀, hlast⟩
      exact ⟨s₀, shown₀, _, hlast⟩
  | continueFor h =>
      rcases run_stalled (Prod.ext h rfl) with ⟨s₀, shown₀, hlast⟩
      exact ⟨s₀, shown₀, _, hlast⟩

/-- A session that stalls is stuck, in that no number of further steps changes
    anything, if and only if the instruction that it stalled at is no call, and
    no return with somewhere left to return to. -/
theorem stalled_stuck_iff (h : Stalls fe s shown ip s') :
    s'.machine.ip = ip ∧
      ((∀ n, s'.machine.after (List.replicate n .step) = s'.machine) ↔
        ∃ ins, s'.machine.fetch = .ok ins ∧ ins.op.isCall = false ∧
          (ins.op = .ret → s'.machine.stack = [])) := by
  rcases h.exists_stepIn with ⟨s₀, shown₀, shown', hlast⟩
  rcases stepIn_stalled hlast with ⟨ins, effect, hstep, hip, hat⟩
  rcases Machine.step_eq_self_iff hstep hip with ⟨hfetch, hself⟩
  refine ⟨hip.trans hat, ?_⟩
  -- If the next step changes nothing, no later one does.
  rw [Machine.after_steps_eq_self_iff, hself]
  constructor
  · intro hrest
    exact ⟨ins, hfetch, hrest⟩
  · rintro ⟨found, hfound, hrest⟩
    rw [hfetch] at hfound
    cases hfound
    exact hrest

/-- A program that returns from the only call that it has made, to the return
    itself. It is stuck there, with nothing left to return to. -/
theorem stalled_stuck_return :
    let ended := (atStart [0x02, 0x02, 0x00, 0xEE]).continueFor Frontend.silent 2
      (⟨(), false⟩ : Watched Unit)
    ended.1 = .ok (.stalled 0x202) ∧
      ∀ n, ended.2.1.machine.after (List.replicate n .step) = ended.2.1.machine := by
  have hstalled : ((atStart [0x02, 0x02, 0x00, 0xEE]).continueFor Frontend.silent 2
      (⟨(), false⟩ : Watched Unit)).1 = .ok (.stalled 0x202) := by decide +kernel
  refine ⟨hstalled, (stalled_stuck_iff (.continueFor hstalled)).2.mpr ?_⟩
  refine ⟨⟨.ret, .bare, rfl⟩, ?_, rfl, fun _ => ?_⟩ <;> decide +kernel

/-- The same inside of another subroutine. The session stalls at the return,
    and two steps further on it is back in the main program, where a byte is set
    that it has not come to. -/
theorem stalled_return_goes_on :
    let ended := (atStart [0x02, 0x06, 0x60, 0x01, 0x12, 0x04, 0x02, 0x08, 0x00, 0xEE]).continueFor
      Frontend.silent 10 (⟨(), false⟩ : Watched Unit)
    ended.1 = .ok (.stalled 0x208) ∧ ended.2.1.machine.ip = 0x208 ∧
      (ended.2.1.machine.after [.step]).ip = 0x202 ∧
      ended.2.1.machine.reg 0 = 0 ∧ (ended.2.1.machine.after [.step, .step]).reg 0 = 1 := by
  decide +kernel

end Session

end Chip8
