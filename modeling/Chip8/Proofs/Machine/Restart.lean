import Chip8.Proofs.Machine.Control
import Chip8.Proofs.Machine.Fetch
import Chip8.Proofs.Machine.Refusal
import Mathlib.Control.Monad.Basic

/-!
# Starting a Program Over

Loading a program forgets whatever the machine did before. Only the random
source goes on, and of its past nothing counts but the words that it is going to
yield. So two machines with any two histories behind them, whose random sources
have the same words ahead, cannot be told apart from the moment the same program
is loaded into both.

To be told apart means that some request gets different answers, now or later.
Whether two machines that differ in the random source only can come to that is a
question about single instructions. All but one of them pass the source on as it
is and do not look at it: replacing the source in front of such an instruction
is replacing it behind. The one that remains draws a word, which is the same
on both sides, and what is left to draw is the same again.

## Main definitions

* `RandomSource.Alike`: Sources with the same words ahead.
* `Machine.withRandom`: A machine with another random source.
* `Machine.Twin`: Machines that differ in nothing but alike random sources.
* `Answer`, `Request.serve`: What a request hands back.
* `Machine.serve`: Requests one after another.

## Theorems

* `execute_withRandom`: Instructions that draw no word pass the source on.
* `Twin.step`: Twins step alike.
* `Twin.serve`: Twins give the same answers.
* `load_forgets`: Loading a program makes twins of any two machines.
-/

namespace Chip8

/-! ## Random sources -/

/-- Two sources that yield the same words from now on. -/
def RandomSource.Alike (r r' : RandomSource) : Prop :=
  ∀ k, Keystream.word r'.seed (r'.drawn + k) = Keystream.word r.seed (r.drawn + k)

namespace RandomSource.Alike

variable {r r' : RandomSource}

theorem of_eq (h : r' = r) : r.Alike r' := by
  rw [h]
  exact fun _ => rfl

theorem word_eq (h : r.Alike r') : r'.next.1 = r.next.1 :=
  h 0

theorem next (h : r.Alike r') : r.next.2.Alike r'.next.2 := by
  intro k
  have hk := h (k + 1)
  rw [Nat.add_comm k 1, ← Nat.add_assoc, ← Nat.add_assoc] at hk
  exact hk

end RandomSource.Alike

namespace Machine

variable {m m' : Machine} {r : RandomSource}

/-- A machine with another random source. -/
def withRandom (r : RandomSource) (m : Machine) : Machine :=
  { m with random := r }

@[simp]
theorem withRandom_memory (r : RandomSource) (m : Machine) :
    (m.withRandom r).memory = m.memory := rfl

@[simp]
theorem withRandom_i (r : RandomSource) (m : Machine) : (m.withRandom r).i = m.i := rfl

@[simp]
theorem withRandom_reg (r : RandomSource) (m : Machine) : (m.withRandom r).reg = m.reg := rfl

@[simp]
theorem withRandom_stack (r : RandomSource) (m : Machine) : (m.withRandom r).stack = m.stack := rfl

@[simp]
theorem withRandom_keys (r : RandomSource) (m : Machine) : (m.withRandom r).keys = m.keys := rfl

/-- An instruction that draws no word neither looks at the random source nor
    changes it. -/
theorem execute_withRandom {ins : Instruction} (hop : ins.op ≠ .rand) (r : RandomSource)
    (m : Machine) :
    (m.withRandom r).execute ins = ((m.execute ins).1, (m.execute ins).2.withRandom r) := by
  -- Each instruction is executed on both machines. Those that look at the stack, the keys or
  -- memory look at parts that are the same.
  cases hcase : ins.op with
  | rand => exact absurd hcase hop
  | ret =>
      simp only [execute, hcase, ret, withRandom_stack]
      cases m.stack <;> rfl
  | gkey =>
      simp only [execute, hcase, withRandom_keys]
      cases m.keys.lowestHeld? <;> rfl
  | draw | regload =>
      simp only [execute, hcase, withRandom_memory, withRandom_i]
      cases m.memory.block m.i.toNat _ <;> rfl
  | sbcd | regdump =>
      simp only [execute, hcase, withRandom_memory, withRandom_i, withRandom_reg]
      cases m.memory.write m.i.toNat _ <;> rfl
  | _ =>
      simp only [execute, hcase]
      rfl

/-! ## Twins -/

/-- Machines that differ in nothing but their random sources, which have the
    same words ahead. -/
def Twin (m m' : Machine) : Prop :=
  ∃ r, m.random.Alike r ∧ m' = m.withRandom r

-- The instruction that draws a word draws the same one.
theorem exists_execute_rand {ins : Instruction} (hop : ins.op = .rand) (hr : m.random.Alike r) :
    ∃ n, (m.withRandom r).execute ins = ((m.execute ins).1, n) ∧ Twin (m.execute ins).2 n := by
  have hword : (m.withRandom r).random.next.1 = m.random.next.1 := hr.word_eq
  simp only [execute, hop, hword]
  exact ⟨_, rfl, r.next.2, hr.next, rfl⟩

/-- Twins execute an instruction alike. -/
theorem Twin.execute (h : Twin m m') (ins : Instruction) :
    ∃ n, m'.execute ins = ((m.execute ins).1, n) ∧ Twin (m.execute ins).2 n := by
  rcases h with ⟨r, hr, rfl⟩
  by_cases hop : ins.op = .rand
  · exact exists_execute_rand hop hr
  · -- The source behind the instruction is the one in front of it.
    have hsame := execute_withRandom hop m.random m
    have hrandom : (m.execute ins).2.random = m.random :=
      congrArg (fun answer => answer.2.random) hsame
    refine ⟨(m.execute ins).2.withRandom r, execute_withRandom hop r m, r, ?_, rfl⟩
    rwa [hrandom]

theorem Twin.fetch (h : Twin m m') : m'.fetch = m.fetch := by
  rcases h with ⟨r, _, rfl⟩
  rfl

theorem Twin.screen_eq (h : Twin m m') : m'.screen = m.screen := by
  rcases h with ⟨r, _, rfl⟩
  rfl

/-- Twins step alike. -/
theorem Twin.step (h : Twin m m') :
    ∃ n, m'.step = (m.step.1, n) ∧ Twin m.step.2 n :=
  exists_step_of_execute h h.fetch fun ins _ => h.execute ins

/-- Twins step alike, and show a frontend the same. -/
theorem Twin.stepWith {σ : Type} (fe : Frontend σ) (shown : σ) (h : Twin m m') :
    ∃ n, m'.stepWith fe shown = ((m.stepWith fe shown).1, n, (m.stepWith fe shown).2.2) ∧
      Twin (m.stepWith fe shown).2.1 n :=
  exists_stepWith_of_step fe shown Twin.screen_eq h.step

end Machine

/-! ## Answers -/

/-- What a machine hands back on a request, with the result of what can be
    refused. -/
inductive Answer where
  | done (result : Except ExecutionError Unit)
  | stepped (result : Except ExecutionError (Instruction × Effect))
  /-- A tick, and whether a tone ended with it. -/
  | ticked (ended : Bool)
  | fetched (result : Except ExecutionError Instruction)
  | register (result : Except ExecutionError UInt16)
  | byte (result : Except ExecutionError UInt8)
  deriving DecidableEq

/-- The answer to an operation. -/
def Operation.answer (m : Machine) : Operation → Answer
  | .load program => .done (m.load program).1
  | .step => .stepped m.step.1
  | .tick => .ticked m.tick.2
  | .setRegister number value => .done (m.setRegister number value).1
  | .writeByte address value => .done (m.writeByte address value).1
  | .unload | .press _ | .release _ | .setPixel .. => .done (.ok ())

section Serve

variable {σ : Type}

/-- The answer to a request, the machine behind it and the frontend's state. -/
def Request.serve (fe : Frontend σ) (m : Machine) (shown : σ) : Request → Answer × Machine × σ
  | .operate op => (op.answer m, op.apply m, shown)
  | .stepWith =>
      match m.stepWith fe shown with
      | (result, m', shown') => (.stepped result, m', shown')
  | .fetch => (.fetched m.fetch, m, shown)
  | .register number => (.register (m.register number), m, shown)
  | .readByte address => (.byte (m.readByte address), m, shown)

namespace Machine

/-- The answers to requests that are made one after another, with the machine
    and the frontend's state behind them. -/
def serve (fe : Frontend σ) : List Request → Machine → σ → List Answer × Machine × σ
  | [], m, shown => ([], m, shown)
  | request :: requests, m, shown =>
      match request.serve fe m shown with
      | (answer, m', shown') =>
          match serve fe requests m' shown' with
          | (answers, ended) => (answer :: answers, ended)

variable {m m' : Machine}

/-- Twins answer an operation alike, and are twins behind it. -/
theorem Twin.operate (h : Twin m m') (op : Operation) :
    op.answer m' = op.answer m ∧ Twin (op.apply m) (op.apply m') := by
  cases op with
  | step =>
      rcases h.step with ⟨n, hstep, htwin⟩
      simp only [Operation.answer, Operation.apply, hstep]
      exact ⟨trivial, htwin⟩
  | load program =>
      -- Nothing but a step looks at the random source.
      rcases h with ⟨r, hr, rfl⟩
      simp only [Operation.answer, Operation.apply, Machine.load]
      split <;> exact ⟨rfl, r, hr, rfl⟩
  | setRegister number value =>
      rcases h with ⟨r, hr, rfl⟩
      simp only [Operation.answer, Operation.apply, Machine.setRegister]
      split
      · split <;> exact ⟨rfl, r, hr, rfl⟩
      · exact ⟨rfl, r, hr, rfl⟩
      · exact ⟨rfl, r, hr, rfl⟩
      · exact ⟨rfl, r, hr, rfl⟩
  | writeByte address value =>
      rcases h with ⟨r, hr, rfl⟩
      simp only [Operation.answer, Operation.apply, Machine.writeByte, withRandom_memory]
      cases m.memory.write address [value] <;> exact ⟨rfl, r, hr, rfl⟩
  | unload | tick | press | release | setPixel =>
      rcases h with ⟨r, hr, rfl⟩
      exact ⟨rfl, r, hr, rfl⟩

/-- Twins answer a request alike, and are twins behind it. -/
theorem Twin.request (fe : Frontend σ) (shown : σ) (h : Twin m m') (request : Request) :
    ∃ n, request.serve fe m' shown
        = ((request.serve fe m shown).1, n, (request.serve fe m shown).2.2) ∧
      Twin (request.serve fe m shown).2.1 n := by
  cases request with
  | operate op =>
      rcases h.operate op with ⟨hanswer, htwin⟩
      simp only [Request.serve, hanswer]
      exact ⟨_, rfl, htwin⟩
  | stepWith =>
      rcases h.stepWith fe shown with ⟨n, hstep, htwin⟩
      simp only [Request.serve, hstep]
      exact ⟨n, rfl, htwin⟩
  | fetch =>
      simp only [Request.serve, h.fetch]
      exact ⟨m', rfl, h⟩
  | register | readByte =>
      -- What is read is not the random source.
      rcases h with ⟨r, hr, rfl⟩
      exact ⟨_, rfl, r, hr, rfl⟩

/-- Twins give the same answers to the same requests, and show a frontend the
    same. -/
theorem Twin.serve (fe : Frontend σ) (h : Twin m m') (requests : List Request) (shown : σ) :
    ∃ n, Machine.serve fe requests m' shown
        = ((Machine.serve fe requests m shown).1, n, (Machine.serve fe requests m shown).2.2) ∧
      Twin (Machine.serve fe requests m shown).2.1 n := by
  induction requests generalizing m m' shown with
  | nil => exact ⟨m', rfl, h⟩
  | cons request requests ih =>
      rcases h.request fe shown request with ⟨n, hfirst, htwin⟩
      rcases ih htwin (request.serve fe m shown).2.2 with ⟨last, hrest, hend⟩
      simp only [Machine.serve, hfirst, hrest]
      exact ⟨last, rfl, hend⟩

/-- Loading a program makes twins of any two machines whose random sources have
    the same words ahead, whatever has been done to them before. The program is
    accepted by both, every component but the random source is the same on both
    behind it, and from then on no request tells them apart: all answers are the
    same, a frontend is shown the same, and they are twins in the end. -/
theorem load_forgets (hrandom : m.random.Alike m'.random) {program : List UInt8}
    (hfit : program.length ≤ 3584) (fe : Frontend σ) (shown : σ) (requests : List Request) :
    (m.load program).1 = .ok () ∧ (m'.load program).1 = .ok () ∧
      (m'.load program).2 = (m.load program).2.withRandom m'.random ∧
      ∃ ended, Machine.serve fe requests (m'.load program).2 shown
          = ((Machine.serve fe requests (m.load program).2 shown).1, ended,
              (Machine.serve fe requests (m.load program).2 shown).2.2) ∧
        Twin (Machine.serve fe requests (m.load program).2 shown).2.1 ended := by
  have hfit : programStart + program.length ≤ memorySize := by
    simp only [programStart, memorySize]
    omega
  rw [load_of_fit hfit, load_of_fit hfit]
  have htwin : Twin (start program m.random) (start program m'.random) :=
    ⟨m'.random, hrandom, rfl⟩
  exact ⟨rfl, rfl, rfl, htwin.serve fe requests shown⟩

/-- In a subroutine, one machine draws a glyph and then a word, and a key of it is
    held down. Another one is fresh but for the word drawn. Behind a shorter program
    that draws a word as well, they answer alike. -/
theorem load_forgets_word :
    let m := (Machine.idle 1).after
      [.load [0x22, 0x02, 0xD0, 0x05, 0xC0, 0xFF], .step, .step, .step, .press 7]
    let m' := (Machine.idle 1).after [.load [0xC0, 0xFF], .step]
    let program : List UInt8 := [0xC1, 0xFF]
    let requests : List Request := [.operate .step, .register 1, .readByte 0x204]
    (m.stack ≠ m'.stack ∧ m.screen ≠ m'.screen ∧ m.keys ≠ m'.keys) ∧
      m.random.Alike m'.random ∧ program.length ≤ 3584 ∧
      (serve .silent requests (m'.load program).2 ()).1
        = (serve .silent requests (m.load program).2 ()).1 := by
  intro m m' program requests
  have hhistory : m'.random = m.random ∧
      m.stack ≠ m'.stack ∧ m.screen ≠ m'.screen ∧ m.keys ≠ m'.keys := by decide +kernel
  have hrandom : m.random.Alike m'.random := .of_eq hhistory.1
  have hfit : program.length ≤ 3584 := by decide
  have hforgets := load_forgets hrandom hfit .silent () requests
  refine ⟨hhistory.2, hrandom, hfit, ?_⟩
  rcases hforgets.2.2.2 with ⟨_, hserve, _⟩
  rw [hserve]

end Machine

end Serve

end Chip8
