import Chip8.Proofs.Machine.Access

/-!
# Words in Order

A machine has one stream of random words, which its seed decides. The words are
taken from it one by one and in order, each by an instruction that draws a word
and by nothing else: a step that is refused takes none, a look at the machine
takes none, and a program that is loaded goes on where the one before has
stopped.

So the position in the stream is the number of words drawn so far, whatever has
happened in between. Counted from the first word of a new machine, the word with
a number is the word of the stream at that position.

## Main definitions

* `Reply.drew?`: The instruction that drew a word, if one did.
* `Machine.draws`: What has been drawn along a list of accesses.

## Theorems

* `Access.serve_of_drew`: A word that is drawn is the next word.
* `draws_of_random`: From a position of the stream on, words are drawn in order.
* `draws_idle`: The words that are drawn from a new machine.
-/

namespace Chip8

/-- The instruction that drew a word, if one was executed. -/
def Reply.drew? (reply : Reply) : Option Instruction :=
  reply.executed?.filter (·.op = .rand)

theorem Reply.drew?_eq_some_iff {reply : Reply} {ins : Instruction} :
    reply.drew? = some ins ↔ reply.executed? = some ins ∧ ins.op = .rand := by
  rw [drew?, Option.filter_eq_some_iff, decide_eq_true_iff]

section

variable {σ : Type}

/-- The instructions that draw a word along a list of accesses, each with what
    its register holds when it has been executed. -/
def Machine.draws (fe : Frontend σ) : List Access → Machine → σ → List (Instruction × UInt8)
  | [], _, _ => []
  | access :: accesses, m, shown =>
      let served := access.serve fe m shown
      let later := Machine.draws fe accesses served.2.1 served.2.2
      match served.1.drew? with
      | some ins => (ins, served.2.1.reg ins.operands.x.toNat) :: later
      | none => later

variable {fe : Frontend σ} {m : Machine} {shown : σ}

/-- A word that is drawn is the next word of the random source, and what is left
    of it goes into the register. -/
theorem Access.serve_of_drew {access : Access} {ins : Instruction}
    (h : (access.serve fe m shown).1.drew? = some ins) :
    (access.serve fe m shown).2.1.random = m.random.next.2 ∧
      (access.serve fe m shown).2.1.reg ins.operands.x.toNat
        = m.random.next.1.toUInt8 &&& ins.operands.nn := by
  rcases Reply.drew?_eq_some_iff.mp h with ⟨hexecuted, hop⟩
  rcases exists_step_of_executed hexecuted with ⟨effect, hstep⟩
  have hexecute := (Machine.step_ok hstep).2
  simp only [Machine.execute, hop] at hexecute
  rw [← (Prod.mk.inj hexecute).2]
  exact ⟨rfl, Machine.reg_setReg_self _ _ _⟩

theorem Access.random_of_not_drew {access : Access}
    (h : (access.serve fe m shown).1.drew? = none) :
    (access.serve fe m shown).2.1.random = m.random := by
  refine random_serve fun ins hexecuted hop => ?_
  rw [Reply.drew?_eq_some_iff.mpr ⟨hexecuted, hop⟩] at h
  exact nomatch h

namespace Machine

/-- From a position of the stream on, words are drawn in order, and the position
    behind them is that behind the last. -/
theorem draws_of_random (fe : Frontend σ) {seed : UInt64} {drawn : Nat}
    (h : m.random = ⟨seed, drawn⟩) (accesses : List Access) (shown : σ) :
    (∀ k ins value, (m.draws fe accesses shown)[k]? = some (ins, value) →
        value = (Keystream.word seed (drawn + k)).toUInt8 &&& ins.operands.nn) ∧
      (m.access fe accesses shown).2.1.random
        = ⟨seed, drawn + (m.draws fe accesses shown).length⟩ := by
  induction accesses generalizing m drawn shown with
  | nil =>
      refine ⟨?_, h⟩
      intro k ins value hnone
      exact nomatch hnone
  | cons access accesses ih =>
      rw [Machine.draws, Machine.access]
      cases hdrew : (access.serve fe m shown).1.drew? with
      | none =>
          -- Nothing is drawn, so the position is the same.
          have hsame := Access.random_of_not_drew hdrew
          exact ih (hsame.trans h) _
      | some ins =>
          rcases Access.serve_of_drew hdrew with ⟨hnext, hvalue⟩
          -- A word is drawn, and the later ones are counted from the next position.
          have hposition : (access.serve fe m shown).2.1.random = ⟨seed, drawn + 1⟩ := by
            rw [hnext, h]
            rfl
          rcases ih hposition (access.serve fe m shown).2.2 with ⟨hlater, hend⟩
          refine ⟨?_, ?_⟩
          · intro k ins' value hk
            cases k with
            | zero =>
                rcases Prod.mk.inj (Option.some.inj hk) with ⟨rfl, rfl⟩
                rw [hvalue, h]
                rfl
            | succ k =>
                rw [hlater k ins' value hk, Nat.add_assoc, Nat.add_comm 1 k]
          · rw [hend, List.length_cons, Nat.add_assoc, Nat.add_comm 1]

/-- The words of a new machine. Whatever is done to it, the instructions that draw
    a word get the words of its stream in order: what the register of the `k`-th
    holds behind it is the low byte of the word at position `k`, as far as its
    operand lets it through. The position of the random source is the number of
    words drawn. -/
theorem draws_idle (fe : Frontend σ) (seed : UInt64) (accesses : List Access) (shown : σ) :
    (∀ k ins value, ((idle seed).draws fe accesses shown)[k]? = some (ins, value) →
        value = (Keystream.word seed k).toUInt8 &&& ins.operands.nn) ∧
      ((idle seed).access fe accesses shown).2.1.random
        = ⟨seed, ((idle seed).draws fe accesses shown).length⟩ := by
  have hnone : (idle seed).random = ⟨seed, 0⟩ := rfl
  simpa only [Nat.zero_add] using draws_of_random fe hnone accesses shown

/-- A word is drawn, the program is taken away, a step is refused, and another
    program draws. It gets the second word. -/
theorem draws_idle_reloaded :
    let accesses : List Access :=
      [.request (.operate (.load [0xC0, 0xFF])), .request (.operate .step),
        .request (.operate .unload), .request (.operate .step),
        .request (.operate (.load [0xC3, 0x0F])), .request (.operate .tick),
        .request (.operate (.setRegister 0 7)), .request .stepWith]
    ((idle 1).draws .silent accesses ())[1]? = some (⟨.rand, .registerByte 3 0x0F, rfl⟩, 4) ∧
      4 = (Keystream.word 1 1).toUInt8 &&& 0x0F := by
  intro accesses
  have hsecond : ((idle 1).draws .silent accesses ())[1]?
      = some (⟨.rand, .registerByte 3 0x0F, rfl⟩, 4) := by decide +kernel
  exact ⟨hsecond, (draws_idle .silent 1 accesses ()).1 1 _ 4 hsecond⟩

end Machine

end

end Chip8
