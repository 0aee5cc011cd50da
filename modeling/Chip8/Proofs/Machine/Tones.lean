import Chip8.Proofs.Machine.Ticking

/-!
# Every Tone Ends Once

A tone sounds while the sound timer is not zero, and the tick that brings the
timer to zero tells that the tone has ended. A tone starts when `sstc` sets the
timer to something else than zero. Between its start and its end anything may
happen to the machine, and two things cut a tone off without an end being told:
the timer is set again, to zero or to a new count, or a program is loaded, which
starts with both timers at rest.

So the ends that are told are never more than the tones that were started. What
is counted is kept in balance by every single access: a tone that is started is
paid back when its end is told, and one that still sounds is owed. An access
that cuts a tone off cancels a debt, and where no tone is ever cut off the two
sides are equal.

## Main definitions

* `Moment`: An access, with the machine that it finds and its reply.
* `Reply.endsTone`, `Moment.startsTone`: A tone ends, a tone starts.
* `Moment.CutsTone`: A tone is cut off.
* `Moment.SoundMove`: The ways in which an access changes the sound timer.

## Theorems

* `map_reply_moments`: The replies of the moments are those of the accesses.
* `Access.soundMove`: Every access changes the sound timer in one of them.
* `SoundMove.balance`: One access keeps the balance.
* `tones_balance`: So do accesses one after another.
* `access_ticks`: What a number of ticks in a row do.
* `ticks_eq_access`: Ticks that stop when both timers are at rest do the same.
* `tones_idle`: The tones of a new machine.
-/

namespace Chip8

/-! ## Moments -/

/-- One of the accesses to a machine, as it is served. -/
structure Moment where
  /-- The machine in front of the access. -/
  found : Machine
  access : Access
  reply : Reply

section

variable {σ : Type}

/-- The moments of accesses that follow each other. -/
def Machine.moments (fe : Frontend σ) : List Access → Machine → σ → List Moment
  | [], _, _ => []
  | access :: accesses, m, shown =>
      let served := access.serve fe m shown
      ⟨m, access, served.1⟩ :: Machine.moments fe accesses served.2.1 served.2.2

theorem Machine.map_reply_moments (fe : Frontend σ) (accesses : List Access) (m : Machine)
    (shown : σ) :
    (m.moments fe accesses shown).map (·.reply) = (m.access fe accesses shown).1 := by
  induction accesses generalizing m shown with
  | nil => rfl
  | cons access accesses ih =>
      rw [Machine.moments, Machine.access, List.map_cons, ih]

/-- A program is to be loaded. -/
def Access.loads : Access → Bool
  | .request (.operate (.load _)) => true
  | _ => false

/-- The end of a tone is told. -/
def Reply.endsTone : Reply → Bool
  | .answer (.ticked ended) => ended
  | _ => false

/-- The instruction that set the sound timer, if one did. -/
def Reply.setSound? (reply : Reply) : Option Instruction :=
  reply.executed?.filter (·.op = .sstc)

namespace Moment

/-- The sound timer is set to something else than zero. -/
def startsTone (moment : Moment) : Bool :=
  moment.reply.setSound?.any fun ins => moment.found.reg ins.operands.x.toNat ≠ 0

/-- A program is loaded and accepted. -/
def StartsOver (moment : Moment) : Prop :=
  moment.access.loads = true ∧ moment.reply = .answer (.done (.ok ()))

instance : DecidablePred StartsOver :=
  fun _ => inferInstanceAs (Decidable (_ ∧ _))

/-- A tone sounds, and the sound timer is set or a program starts over. -/
def CutsTone (moment : Moment) : Prop :=
  moment.found.timers.sound ≠ 0 ∧ (moment.reply.setSound?.isSome = true ∨ moment.StartsOver)

instance : DecidablePred CutsTone :=
  fun _ => inferInstanceAs (Decidable (_ ∧ (_ ∨ _)))

/-- The ways in which an access changes the sound timer, from the machine that it
    finds to the machine behind it. -/
inductive SoundMove (moment : Moment) (behind : Machine) : Prop where
  /-- The timer counts down. -/
  | countdown (hreply : moment.reply = .answer (.ticked (moment.found.timers.sound = 1)))
      (hsound : behind.timers.sound = Timers.countDown moment.found.timers.sound)
  /-- The timer is set to what a register holds. -/
  | setting (ins : Instruction) (hset : moment.reply.setSound? = some ins)
      (hsound : behind.timers.sound = moment.found.reg ins.operands.x.toNat)
  /-- The timer is at rest at the start of a program. -/
  | restart (hover : moment.StartsOver) (hsound : behind.timers.sound = 0)
  /-- The timer stays as it is. -/
  | keep (hset : moment.reply.setSound? = none) (hend : moment.reply.endsTone = false)
      (hsound : behind.timers.sound = moment.found.timers.sound)

end Moment

/-! ## One access -/

theorem Reply.setSound?_eq_some_iff {reply : Reply} {ins : Instruction} :
    reply.setSound? = some ins ↔ reply.executed? = some ins ∧ ins.op = .sstc := by
  rw [setSound?, Option.filter_eq_some_iff, decide_eq_true_iff]

-- The reply to a step tells of no end.
theorem Reply.endsTone_of_setSound {reply : Reply} {ins : Instruction}
    (h : reply.setSound? = some ins) : reply.endsTone = false := by
  have hexecuted := (setSound?_eq_some_iff.mp h).1
  cases reply with
  | pixel => rfl
  | answer answer =>
      cases answer with
      | ticked => exact nomatch hexecuted
      | done | stepped | fetched | register | byte => rfl

open Moment (SoundMove)

variable {m : Machine}

theorem Machine.soundMove_step (access : Access) :
    SoundMove ⟨m, access, .answer (.stepped m.step.1)⟩ m.step.2 := by
  rcases hstep : m.step with ⟨result, m'⟩
  cases result with
  | error e =>
      rw [step_error hstep]
      exact .keep rfl rfl rfl
  | ok done =>
      rcases done with ⟨ins, effect⟩
      by_cases hop : ins.op = .sstc
      · have hexecute := (step_ok hstep).2
        simp only [execute, hop] at hexecute
        cases hexecute
        exact .setting ins (Reply.setSound?_eq_some_iff.mpr ⟨rfl, hop⟩) rfl
      · -- Any other instruction leaves the sound timer alone.
        refine .keep ?_ rfl ((step_confined hstep).sound hop)
        exact Option.filter_eq_none_iff.mpr fun found hfound =>
          Option.some.inj hfound ▸ decide_eq_true_iff.not.mpr hop

/-- Every access changes the sound timer in one of the four ways. -/
theorem Access.soundMove (fe : Frontend σ) (m : Machine) (shown : σ) (access : Access) :
    SoundMove ⟨m, access, (access.serve fe m shown).1⟩ (access.serve fe m shown).2.1 := by
  -- A step may set the timer, a tick counts it down, a load stops it, and the rest do not reach
  -- it.
  cases access with
  | pixel => exact .keep rfl rfl rfl
  | request made =>
      cases made with
      | stepWith =>
          rcases serve_stepWith fe m shown with ⟨shown', heq⟩
          rw [heq]
          exact Machine.soundMove_step _
      | fetch | register | readByte => exact .keep rfl rfl rfl
      | operate op =>
          cases op with
          | step => exact Machine.soundMove_step _
          | tick => exact .countdown rfl rfl
          | unload | press | release | setPixel => exact .keep rfl rfl rfl
          | load program =>
              simp only [serve, Request.serve, Operation.answer, Operation.apply, Machine.load]
              split
              · exact .restart ⟨rfl, rfl⟩ rfl
              · exact .keep rfl rfl rfl
          | setRegister number value =>
              rcases Machine.exists_setRegister_eq number value m with ⟨v, i, ip, heq⟩
              exact .keep rfl rfl (by simp only [serve, Request.serve, Operation.apply, heq])
          | writeByte address value =>
              rcases Machine.exists_writeByte_eq address value m with ⟨memory, heq⟩
              exact .keep rfl rfl (by simp only [serve, Request.serve, Operation.apply, heq])

/-- Whether a tone sounds. -/
def Machine.sounding (m : Machine) : Bool :=
  m.timers.sound ≠ 0

theorem toNat_eq_ite (b : Bool) : b.toNat = if b = true then 1 else 0 := by
  cases b <;> rfl

theorem Timers.toNat_countDown (t : UInt8) : (countDown t).toNat = t.toNat - 1 := by
  by_cases hzero : t = 0
  · subst hzero
    rfl
  · have hpos : t.toNat ≠ 0 := fun h => hzero (UInt8.toNat_inj.mp h)
    rw [countDown, if_neg hzero]
    exact UInt8.toNat_sub_of_le t 1 (UInt8.le_iff_toNat_le.mpr (Nat.one_le_iff_ne_zero.mpr hpos))

-- A tone that counts down to its end stops sounding as its end is told.
theorem Timers.countDown_balance (t : UInt8) :
    (decide (t = 1)).toNat + (decide (countDown t ≠ 0)).toNat = (decide (t ≠ 0)).toNat := by
  have hdown := toNat_countDown t
  simp only [toNat_eq_ite, decide_eq_true_eq, ne_eq, ← UInt8.toNat_inj, UInt8.toNat_zero,
    UInt8.toNat_one, hdown]
  split_ifs <;> omega

/-- One access keeps the balance. What a tone that sounds has to do with it is that
    its end is still to come, and that the access may cut it off. -/
theorem Moment.SoundMove.balance {moment : Moment} {behind : Machine}
    (h : SoundMove moment behind) :
    moment.reply.endsTone.toNat + behind.sounding.toNat
        ≤ moment.startsTone.toNat + moment.found.sounding.toNat ∧
      (¬moment.CutsTone → moment.reply.endsTone.toNat + behind.sounding.toNat
        = moment.startsTone.toNat + moment.found.sounding.toNat) := by
  cases h with
  | countdown hreply hsound =>
      have hbalance := Timers.countDown_balance moment.found.timers.sound
      have hsame : moment.reply.endsTone.toNat + behind.sounding.toNat
          = moment.startsTone.toNat + moment.found.sounding.toNat := by
        rw [startsTone, Machine.sounding, Machine.sounding, hreply, hsound]
        exact hbalance.trans (Nat.zero_add _).symm
      exact ⟨hsame.le, fun _ => hsame⟩
  | setting ins hset hsound =>
      -- A tone has started if and only if one sounds behind.
      have hsame : behind.sounding = moment.startsTone := by
        rw [Machine.sounding, startsTone, hset, hsound]
        rfl
      rw [Reply.endsTone_of_setSound hset, Bool.toNat_false, Nat.zero_add, hsame]
      refine ⟨Nat.le_add_right _ _, fun hcut => ?_⟩
      have hsilent : moment.found.sounding = false :=
        decide_eq_false fun hsounds => hcut ⟨hsounds, Or.inl (by rw [hset]; rfl)⟩
      rw [hsilent]
      rfl
  | restart hover hsound =>
      have hend : moment.reply.endsTone = false := by rw [hover.2]; rfl
      have hsilent : behind.sounding = false := decide_eq_false (not_not.mpr hsound)
      rw [hend, hsilent]
      refine ⟨Nat.zero_le _, fun hcut => ?_⟩
      have hsilent : moment.found.sounding = false :=
        decide_eq_false fun hsounds => hcut ⟨hsounds, Or.inr hover⟩
      have hstart : moment.startsTone = false := by rw [startsTone, hover.2]; rfl
      rw [hsilent, hstart]
  | keep hset hend hsound =>
      have hsame : moment.reply.endsTone.toNat + behind.sounding.toNat
          = moment.startsTone.toNat + moment.found.sounding.toNat := by
        rw [startsTone, Machine.sounding, Machine.sounding, hset, hend, hsound]
        rfl
      exact ⟨hsame.le, fun _ => hsame⟩

/-! ## Accesses one after another -/

theorem countP_cons_toNat {α : Type} (p : α → Bool) (a : α) (items : List α) :
    (a :: items).countP p = (p a).toNat + items.countP p := by
  rw [List.countP_cons, Nat.add_comm, toNat_eq_ite]

/-- Accesses one after another keep the balance. -/
theorem Machine.tones_balance (fe : Frontend σ) (accesses : List Access) (m : Machine)
    (shown : σ) :
    (m.access fe accesses shown).1.countP Reply.endsTone
          + (m.access fe accesses shown).2.1.sounding.toNat
        ≤ (m.moments fe accesses shown).countP Moment.startsTone + m.sounding.toNat ∧
      ((∀ moment ∈ m.moments fe accesses shown, ¬moment.CutsTone) →
        (m.access fe accesses shown).1.countP Reply.endsTone
            + (m.access fe accesses shown).2.1.sounding.toNat
          = (m.moments fe accesses shown).countP Moment.startsTone + m.sounding.toNat) := by
  induction accesses generalizing m shown with
  | nil => exact ⟨Nat.le_refl _, fun _ => rfl⟩
  | cons access accesses ih =>
      -- The balances of the first access and of the others add up.
      have hfirst := (Access.soundMove fe m shown access).balance
      have hlater := ih (access.serve fe m shown).2.1 (access.serve fe m shown).2.2
      dsimp only at hfirst
      simp only [Machine.access, Machine.moments, countP_cons_toNat, List.forall_mem_cons]
      refine ⟨by omega, fun hcut => ?_⟩
      have hfirst := hfirst.2 hcut.1
      have hlater := hlater.2 hcut.2
      omega

/-! ## Ticks in a row -/

theorem Machine.access_tick_cons (fe : Frontend σ) (accesses : List Access) (m : Machine)
    (shown : σ) :
    m.access fe (.tick :: accesses) shown
      = (.answer (.ticked m.tick.2) :: (m.tick.1.access fe accesses shown).1,
        (m.tick.1.access fe accesses shown).2) := rfl

/-- A number of ticks in a row take that number off both timers, down to zero. An
    end is told once, if the tone sounds and is over by then, and otherwise not at
    all. -/
theorem Machine.access_ticks (fe : Frontend σ) (k : Nat) (m : Machine) (shown : σ) :
    (m.access fe (List.replicate k .tick) shown).2.1.timers.delay.toNat
        = m.timers.delay.toNat - k ∧
      (m.access fe (List.replicate k .tick) shown).2.1.timers.sound.toNat
        = m.timers.sound.toNat - k ∧
      (m.access fe (List.replicate k .tick) shown).1.countP Reply.endsTone
        = if 1 ≤ m.timers.sound.toNat ∧ m.timers.sound.toNat ≤ k then 1 else 0 := by
  induction k generalizing m with
  | zero => exact ⟨rfl, rfl, (if_neg (by omega)).symm⟩
  | succ k ih =>
      have hdelay : m.tick.1.timers.delay.toNat = m.timers.delay.toNat - 1 :=
        Timers.toNat_countDown _
      have hsound : m.tick.1.timers.sound.toNat = m.timers.sound.toNat - 1 :=
        Timers.toNat_countDown _
      -- An end is told by the tick that finds the timer at one.
      have hend : (Reply.answer (.ticked m.tick.2)).endsTone.toNat
          = if m.timers.sound.toNat = 1 then 1 else 0 := by
        simp only [toNat_eq_ite, Reply.endsTone, tick, Timers.tick, decide_eq_true_eq,
          ← UInt8.toNat_inj, UInt8.toNat_one]
      rcases ih m.tick.1 with ⟨hdelays, hsounds, hends⟩
      rw [hdelay] at hdelays
      rw [hsound] at hsounds hends
      rw [List.replicate_succ, access_tick_cons]
      refine ⟨hdelays.trans (by omega), hsounds.trans (by omega), ?_⟩
      rw [countP_cons_toNat, hend, hends]
      split_ifs <;> omega

theorem Machine.tick_of_stopped {m : Machine} (h : m.timers = .stopped) : m.tick = (m, false) := by
  have hrest : m.timers.tick = (m.timers, false) := by
    rw [h]
    rfl
  rw [tick, hrest]

/-- Ticks that stop as soon as both timers are at rest come to the same. -/
theorem Machine.ticks_eq_access (fe : Frontend σ) (k : Nat) (m : Machine) (shown : σ) :
    m.ticks k = ((m.access fe (List.replicate k .tick) shown).2.1,
      (m.access fe (List.replicate k .tick) shown).1.countP Reply.endsTone) := by
  induction k generalizing m with
  | zero => rfl
  | succ k ih =>
      rw [List.replicate_succ, access_tick_cons, countP_cons_toNat]
      by_cases hstopped : m.timers = .stopped
      · -- At rest, a tick changes nothing and tells nothing, and the others may as well be left
        -- out.
        have hrest : m.ticks k = (m, 0) := by
          cases k with
          | zero => rfl
          | succ k => rw [ticks, if_pos hstopped]
        rw [ticks, if_pos hstopped, tick_of_stopped hstopped, ← hrest, ih, Reply.endsTone,
          Bool.toNat_false, Nat.zero_add]
      · rw [ticks, if_neg hstopped]
        simp only [ih m.tick.1, Reply.endsTone, toNat_eq_ite]

/-- The tones of a new machine. Along any accesses to it, the ends that are told,
    and the tone that still sounds if there is one, are no more than the tones that
    `sstc` has started; and they are just as many if no tone is cut off, by `sstc`
    or by a program that is loaded, while it sounds. A number of ticks in a row,
    on any machine, take that number off both timers, down to zero, and one end is
    told if the tone sounds and is over by then, and none otherwise. -/
theorem Machine.tones_idle (fe : Frontend σ) (seed : UInt64) (accesses : List Access)
    (shown : σ) :
    (((idle seed).access fe accesses shown).1.countP Reply.endsTone
          + ((idle seed).access fe accesses shown).2.1.sounding.toNat
        ≤ ((idle seed).moments fe accesses shown).countP Moment.startsTone ∧
      ((∀ moment ∈ (idle seed).moments fe accesses shown, ¬moment.CutsTone) →
        ((idle seed).access fe accesses shown).1.countP Reply.endsTone
            + ((idle seed).access fe accesses shown).2.1.sounding.toNat
          = ((idle seed).moments fe accesses shown).countP Moment.startsTone)) ∧
    ∀ (m : Machine) (k : Nat),
      (m.access fe (List.replicate k .tick) shown).2.1.timers.delay.toNat
          = m.timers.delay.toNat - k ∧
        (m.access fe (List.replicate k .tick) shown).2.1.timers.sound.toNat
          = m.timers.sound.toNat - k ∧
        (m.access fe (List.replicate k .tick) shown).1.countP Reply.endsTone
          = if 1 ≤ m.timers.sound.toNat ∧ m.timers.sound.toNat ≤ k then 1 else 0 := by
  -- A new machine owes no end.
  have hsilent : (idle seed).sounding.toNat = 0 := rfl
  have hbalance := tones_balance fe accesses (idle seed) shown
  rw [hsilent, Nat.add_zero] at hbalance
  exact ⟨hbalance, fun m k => access_ticks fe k m shown⟩

/-- A tone that is told to end, and another one that still sounds when the program
    is taken away. -/
theorem Machine.tones_idle_two :
    let step : Access := .request (.operate .step)
    let accesses : List Access :=
      [.request (.operate (.load [0x60, 0x02, 0xF0, 0x18, 0xF0, 0x18])), step, step, .tick,
        .tick, step, .tick, .request (.operate .unload)]
    (∀ moment ∈ (idle 0).moments .silent accesses (), ¬moment.CutsTone) ∧
      ((idle 0).access .silent accesses ()).2.1.sounding = true ∧
      ((idle 0).access .silent accesses ()).1.countP Reply.endsTone + 1
        = ((idle 0).moments .silent accesses ()).countP Moment.startsTone := by
  intro step accesses
  have hrun : (∀ moment ∈ (idle 0).moments .silent accesses (), ¬moment.CutsTone) ∧
      ((idle 0).access .silent accesses ()).2.1.sounding = true := by decide +kernel
  have hequal := (tones_idle .silent 0 accesses ()).1.2 hrun.1
  rw [hrun.2, Bool.toNat_true] at hequal
  exact ⟨hrun.1, hrun.2, hequal⟩

end

end Chip8
