import Chip8.Proofs.Result
import Chip8.Proofs.Session.Step
import Mathlib.Control.Monad.Basic

/-!
# Runs as Single Steps

A run takes single steps until something ends it. What ends it is looked for
behind every step and in a fixed order: the step has failed, it has stalled,
the stop flag is up, or it was the last one allowed. The first of these that
applies is the outcome. So a stop during the last step allowed is reported as a
stop, and a stop during a step that fails is not reported at all.

The run and the same number of single steps taken by hand leave the same
session and the same frontend, whatever the frontend does with what it is told
and whether it raises the stop flag. A run that only ran out of steps can be
taken up again: it is the first part of a longer run.

## Main definitions

* `Session.verdict?`, `Session.ending?`: What ends a run behind one of its steps.
* `Session.RunEnds`: How many steps a run takes, and what it comes to.

## Theorems

* `run_succ`: A run takes a step, and goes on unless the step ends it.
* `run_ends`: A run is a number of single steps, up to the first that ends it.
* `run_add`: A run that reached its limit is the first part of a longer one.
* `continueFor_eq_stepsIn`: Both for a run that begins with the stop flag down.
-/

namespace Chip8

namespace Session

variable {σ : Type} {fe : Frontend (Watched σ)} {s s' : Session} {shown shown' : Watched σ}
  {p : Session × Watched σ}

/-- What a step ends a run with, if it does: an error goes before a stall, and
    a stall before the stop flag. -/
def verdict? (result : Except ExecutionError Outcome) (stop : Bool) :
    Option (Except ExecutionError Outcome) :=
  match result with
  | .error e => some (.error e)
  | .ok (.stalled ip) => some (.ok (.stalled ip))
  | .ok _ => if stop then some (.ok .stopped) else none

/-- What ends a run behind the step that comes after `k` others. -/
def ending? (fe : Frontend (Watched σ)) (p : Session × Watched σ) (k : Nat) :
    Option (Except ExecutionError Outcome) :=
  verdict? (answer fe p k) (stepsIn fe (k + 1) p).2.stop

/-- A run of at most `limit` steps takes `n` of them and comes to a result: it
    ends behind the first step that ends it, or behind the last one allowed. -/
inductive RunEnds (fe : Frontend (Watched σ)) (p : Session × Watched σ) (limit : Nat) :
    Nat → Except ExecutionError Outcome → Prop where
  /-- Something has ended the run early, or just when the limit was reached. -/
  | behind {k : Nat} {result : Except ExecutionError Outcome} (hk : k < limit)
      (hbefore : ∀ j < k, ending? fe p j = none) (hend : ending? fe p k = some result) :
      RunEnds fe p limit (k + 1) result
  /-- Nothing has ended the run but its limit. -/
  | atLimit (hbefore : ∀ j < limit, ending? fe p j = none) :
      RunEnds fe p limit limit (.ok .stepLimit)

-- What holds behind a first step that ends nothing, holds behind all of them.
theorem forall_lt_succ_ending? {k : Nat} (hfirst : ending? fe p 0 = none)
    (hrest : ∀ j < k, ending? fe (p.1.stepIn fe p.2).2 j = none) :
    ∀ j < k + 1, ending? fe p j = none := by
  intro j hj
  cases j with
  | zero => exact hfirst
  | succ j => exact hrest j (Nat.lt_of_succ_lt_succ hj)

/-- A first step that ends nothing makes a run longer by one. -/
theorem RunEnds.cons {limit n : Nat} {result : Except ExecutionError Outcome}
    (h : RunEnds fe (p.1.stepIn fe p.2).2 limit n result) (hfirst : ending? fe p 0 = none) :
    RunEnds fe p (limit + 1) (n + 1) result := by
  cases h with
  | behind hk hbefore hend =>
      exact .behind (Nat.succ_lt_succ hk) (forall_lt_succ_ending? hfirst hbefore) hend
  | atLimit hbefore => exact .atLimit (forall_lt_succ_ending? hfirst hbefore)

-- A first step that ends the run is all of it.
theorem RunEnds.single {limit : Nat} {result : Except ExecutionError Outcome}
    (h : ending? fe p 0 = some result) : RunEnds fe p (limit + 1) 1 result :=
  .behind (Nat.zero_lt_succ limit) (fun j hj => absurd hj (Nat.not_lt_zero j)) h

-- A step that ends nothing leaves the stop flag down.
theorem stop_of_verdict? {result : Except ExecutionError Outcome} {stop : Bool}
    (h : verdict? result stop = none) : stop = false := by
  unfold verdict? at h
  split at h
  · exact nomatch h
  · exact nomatch h
  · split at h
    · exact nomatch h
    · rename_i hdown
      exact Bool.eq_false_iff.mpr hdown

/-- With the stop flag up, nothing is run. -/
theorem run_of_stop (hstop : shown.stop = true) (limit : Nat) :
    run fe limit s shown = (.ok .stopped, s, shown) := by
  cases limit with
  | zero => rw [run, if_pos hstop]
  | succ limit => rw [run, if_pos hstop]

-- A single step stalls or is done; stop and limit are no business of it.
theorem eq_stepped_or_stalled {outcome : Outcome}
    (h : s.stepIn fe shown = (.ok outcome, s', shown')) :
    outcome = .stepped ∨ ∃ ip, outcome = .stalled ip := by
  have houtcome := (stepIn_ok h).2.2
  split at houtcome
  · exact Or.inr ⟨_, houtcome⟩
  · exact Or.inl houtcome

-- The limit is not for a step to find.
theorem verdict?_ne_stepLimit {result : Except ExecutionError Outcome} {stop : Bool} :
    verdict? result stop ≠ some (.ok .stepLimit) := by
  unfold verdict?
  split
  · exact nofun
  · exact nofun
  · split <;> exact nofun

/-- A run that may take a step takes it, and goes on unless the step ends it. -/
theorem run_succ {result : Except ExecutionError Outcome} (limit : Nat)
    (hdown : shown.stop = false) (h : s.stepIn fe shown = (result, s', shown')) :
    run fe (limit + 1) s shown = match verdict? result shown'.stop with
      | some ended => (ended, s', shown')
      | none => run fe limit s' shown' := by
  rw [run, if_neg (Bool.eq_false_iff.mp hdown), h]
  cases result with
  | error e => rfl
  | ok outcome =>
      rcases eq_stepped_or_stalled h with rfl | ⟨ip, rfl⟩
      · cases hstop : shown'.stop with
        | true => exact run_of_stop hstop limit
        | false => rfl
      · rfl

/-- A run that begins with the stop flag down is a number of single steps, up
    to the first that ends it. -/
theorem run_ends (limit : Nat) (hdown : shown.stop = false) :
    ∃ n, RunEnds fe (s, shown) limit n (run fe limit s shown).1 ∧
      (run fe limit s shown).2 = stepsIn fe n (s, shown) := by
  induction limit generalizing s shown with
  | zero =>
      rw [run, if_neg (Bool.eq_false_iff.mp hdown)]
      exact ⟨0, .atLimit (fun j hj => absurd hj (Nat.not_lt_zero j)), rfl⟩
  | succ limit ih =>
      rcases h : s.stepIn fe shown with ⟨result, s', shown'⟩
      -- The verdict on the first step is the ending of the run at that step, if it is one.
      have hending : ending? fe (s, shown) 0 = verdict? result shown'.stop := by
        rw [ending?, answer_zero, stepsIn_succ, stepsIn_zero, h]
      rw [run_succ limit hdown h]
      cases hverdict : verdict? result shown'.stop with
      | some ended =>
          refine ⟨1, .single (hending.trans hverdict), ?_⟩
          rw [stepsIn_succ, stepsIn_zero, h]
      | none =>
          rcases ih (stop_of_verdict? hverdict) with ⟨n, hends, hsame⟩
          refine ⟨n + 1, .cons ?_ (hending.trans hverdict), ?_⟩
          · rw [h]
            exact hends
          · rw [stepsIn_succ, h]
            exact hsame

/-- A run that reached its limit has not been stopped, and it is the first part
    of a longer one. -/
theorem run_add {first : Nat} (second : Nat) (hdown : shown.stop = false)
    (h : run fe first s shown = (.ok .stepLimit, s', shown')) :
    shown'.stop = false ∧ run fe second s' shown' = run fe (first + second) s shown := by
  induction first generalizing s shown with
  | zero =>
      rw [run, if_neg (Bool.eq_false_iff.mp hdown)] at h
      cases h
      exact ⟨hdown, by rw [Nat.zero_add]⟩
  | succ first ih =>
      rcases hstep : s.stepIn fe shown with ⟨result, s₁, shown₁⟩
      rw [Nat.add_right_comm, run_succ _ hdown hstep]
      rw [run_succ _ hdown hstep] at h
      cases hverdict : verdict? result shown₁.stop with
      | some ended =>
          -- Then the run has not reached its limit.
          rw [hverdict] at h
          cases h
          exact absurd hverdict verdict?_ne_stepLimit
      | none =>
          rw [hverdict] at h
          exact ih (stop_of_verdict? hverdict) h

theorem lower_eq_self (h : shown.stop = false) : shown.lower = shown := by
  rw [Watched.lower, ← h]

/-- A bounded run is the same as single steps in a row. It leaves the session
    and the frontend of `n` single steps, taken with the stop flag down at
    first, where `n` is the first number of steps behind which something ends
    the run; and the count grows by the steps among them that succeed. A run
    that reached its limit can be taken up again, and both together are one run
    with the sum of their limits. -/
theorem continueFor_eq_stepsIn (fe : Frontend (Watched σ)) (s : Session) (shown : Watched σ) :
    (∀ limit, ∃ n, RunEnds fe (s, shown.lower) limit n (s.continueFor fe limit shown).1 ∧
      (s.continueFor fe limit shown).2 = stepsIn fe n (s, shown.lower) ∧
      (s.continueFor fe limit shown).2.1.steps
        = s.steps + (List.range n).countP fun k => (answer fe (s, shown.lower) k).isOk) ∧
    ∀ first second s' shown', s.continueFor fe first shown = (.ok .stepLimit, s', shown') →
      s'.continueFor fe second shown' = s.continueFor fe (first + second) shown := by
  constructor
  · intro limit
    rcases run_ends limit (show shown.lower.stop = false from rfl) with ⟨n, hends, hsame⟩
    refine ⟨n, hends, hsame, ?_⟩
    rw [continueFor, hsame, steps_stepsIn]
  · intro first second s' shown' h
    rcases run_add second (show shown.lower.stop = false from rfl) h with ⟨hdown, hadd⟩
    rw [continueFor, lower_eq_self hdown, hadd]
    rfl

/-- A program that counts in a loop. -/
def counting : Session :=
  atStart [0x70, 0x01, 0x12, 0x00]

/-- Three steps of the loop and then four are seven steps of it. -/
theorem continueFor_counting :
    (counting.continueFor Frontend.silent 3 (⟨(), false⟩ : Watched Unit)).1 = .ok .stepLimit ∧
      (counting.continueFor Frontend.silent 3 (⟨(), false⟩ : Watched Unit)).2.1.continueFor
          Frontend.silent 4
          (counting.continueFor Frontend.silent 3 (⟨(), false⟩ : Watched Unit)).2.2
        = counting.continueFor Frontend.silent 7 (⟨(), false⟩ : Watched Unit) := by
  have hlimit : (counting.continueFor Frontend.silent 3 (⟨(), false⟩ : Watched Unit)).1
      = .ok .stepLimit := by
    decide +kernel
  exact ⟨hlimit, (continueFor_eq_stepsIn Frontend.silent counting ⟨(), false⟩).2 3 4 _ _
    (eq_of_fst_eq hlimit)⟩

end Session

end Chip8
