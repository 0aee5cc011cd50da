import Chip8.Proofs.Machine.Fault
import Chip8.Proofs.Machine.Footprint
import Chip8.Proofs.Machine.Plotting

/-!
# Drawing Instructions

A drawing instruction takes its sprite from memory at the index register and
its position from two registers, all before the first pixel is flipped. What
the screen is like behind it can be told pixel by pixel: where a set bit of the
sprite lies the pixel is flipped, and everywhere else it is what it was. What
sticks out beyond an edge is lost and comes back nowhere, and the flag register
tells whether a flipped pixel was lit before.

The flag is written last, so even the flag register may hold a coordinate. But
then the same instruction draws somewhere else the next time. With other
registers it draws the same again, and that brings back the screen of before,
as long as there are only the two values on it that drawing knows. A program
makes no others; only a debugger can. Of two sprites it makes no difference
which comes first, whatever is on the screen.

## Main definitions

* `Machine.SpriteBit`: A set bit in memory that lies on a position.
* `Machine.DrawsSprite`: What an instruction draws on a machine.
* `Screen.Plain`: There are only fully lit and dark pixels.

## Theorems

* `DrawsSprite.execute_eq`: Drawing flips the positions of the sprite.
* `DrawsSprite.pixel_execute`, `DrawsSprite.flag_execute_iff`: The screen and
  the flag behind it.
* `step_draw`: The same for a step of the machine, in terms of memory.
* `plain_step`, `plain_after`: Screens on which nothing has been done from
  outside are plain.
* `draw_twice_or_swapped`: Drawing again, and drawing in another order.
-/

namespace Chip8

/-- Every pixel has one of the two values that drawing gives to pixels. -/
def Screen.Plain (s : Screen) : Prop :=
  ∀ x < screenWidth, ∀ y < screenHeight, s.pixel x y = pixelOn ∨ s.pixel x y = pixelOff

theorem Screen.plain_blank : blank.Plain := by
  intro x hx y hy
  right
  rw [pixel_of_lt blank hx hy]
  simp only [blank, Vector.getElem_replicate]

namespace Machine

/-- A bit is set where an instruction that draws would put it on a position. Its
    row is a byte of memory, counted from the index register. -/
def SpriteBit (m : Machine) (ins : Instruction) (px py : Nat) : Prop :=
  let x := (m.reg ins.operands.x.toNat).toNat
  let y := (m.reg ins.operands.y.toNat).toNat
  x ≤ px ∧ px - x < 8 ∧ y ≤ py ∧ py - y < ins.operands.n.toNat ∧
    (m.memory[m.i.toNat + (py - y)]?.getD 0).toNat.testBit (7 - (px - x)) = true

instance (m : Machine) (ins : Instruction) (px py : Nat) : Decidable (m.SpriteBit ins px py) :=
  inferInstanceAs (Decidable (_ ∧ _ ∧ _ ∧ _ ∧ _))

/-- An instruction draws a sprite on a machine, all of which lies in memory. -/
def DrawsSprite (m : Machine) (ins : Instruction) (s : Sprite) : Prop :=
  ins.op = .draw ∧ s.x = (m.reg ins.operands.x.toNat).toNat ∧
    s.y = (m.reg ins.operands.y.toNat).toNat ∧
    m.memory.block m.i.toNat ins.operands.n.toNat = .ok s.rows

instance (m : Machine) (ins : Instruction) (s : Sprite) : Decidable (m.DrawsSprite ins s) :=
  inferInstanceAs (Decidable (_ ∧ _ ∧ _ ∧ _))

variable {m : Machine} {ins : Instruction} {s : Sprite} {px py : Nat}

theorem screen_setIndex (value : UInt16) (m : Machine) : (m.setIndex value).screen = m.screen := rfl

theorem exists_drawsSprite (hop : ins.op = .draw)
    (hroom : m.i.toNat + ins.operands.n.toNat ≤ memorySize) : ∃ s, m.DrawsSprite ins s := by
  rcases Memory.exists_block_eq_ok m.memory hroom with ⟨rows, hrows⟩
  exact ⟨⟨_, _, rows⟩, hop, rfl, rfl, hrows⟩

namespace DrawsSprite

/-- The sprite has its set bits from memory. -/
theorem covers_iff (h : m.DrawsSprite ins s) (px py : Nat) :
    s.Covers px py ↔ m.SpriteBit ins px py := by
  rcases h with ⟨_, hx, hy, hrows⟩
  rw [Sprite.Covers, SpriteBit, ← hx, ← hy]
  refine and_congr_right fun _ => and_congr_right fun _ => and_congr_right fun _ => ?_
  by_cases hrow : py - s.y < ins.operands.n.toNat
  · -- A row of the sprite is a byte of the block.
    rw [and_iff_right hrow, List.getD_eq_getElem?_getD, Memory.getElem?_of_block hrows hrow]
  · -- Below the last row there are no bits.
    have hbelow : s.rows.length ≤ py - s.y := by
      rw [Memory.length_of_block hrows]
      omega
    rw [List.getD_eq_getElem?_getD, List.getElem?_eq_none hbelow, Option.getD_none,
      UInt8.toNat_zero, Nat.zero_testBit]
    exact iff_of_false Bool.false_ne_true (fun hbit => hrow hbit.1)

/-- The instruction succeeds. It flips the pixels at the positions of the sprite,
    and then sets the flag. -/
theorem execute_eq (h : m.DrawsSprite ins s) :
    m.execute ins = (.ok .redraw,
      ({ m with screen := (Drawing.plots s.positions ⟨m.screen, false⟩).screen }.setFlag
        (Drawing.plots s.positions ⟨m.screen, false⟩).collision).advance) := by
  rcases h with ⟨hop, hx, hy, hrows⟩
  simp only [execute, hop, hrows, ← hx, ← hy, drawSprite, Drawing.sprite_eq_plots]

theorem execute_ok (h : m.DrawsSprite ins s) :
    m.execute ins = (.ok .redraw, (m.execute ins).2) := by
  rw [h.execute_eq]

/-- A pixel is flipped once if the sprite covers it, and otherwise not at all. -/
theorem pixel_execute (h : m.DrawsSprite ins s) (hpx : px < screenWidth)
    (hpy : py < screenHeight) :
    (m.execute ins).2.screen.pixel px py
      = Screen.flipped^[if s.Covers px py then 1 else 0] (m.screen.pixel px py) := by
  have hscreen : (m.execute ins).2.screen
      = (Drawing.plots s.positions ⟨m.screen, false⟩).screen := by
    rw [h.execute_eq]
    rfl
  rw [hscreen, Drawing.pixel_plots _ _ hpx hpy, List.Nodup.count s.nodup_positions]
  simp only [Sprite.mem_positions]

theorem flag_execute (h : m.DrawsSprite ins s) :
    ((m.execute ins).2.reg flagRegister = 0 ∨ (m.execute ins).2.reg flagRegister = 1) ∧
      ((m.execute ins).2.reg flagRegister = 1 ↔
        (Drawing.plots s.positions ⟨m.screen, false⟩).collision = true) := by
  rw [h.execute_eq]
  exact flag_setFlag _ { m with screen := _ }

/-- The flag tells whether the sprite covers a pixel that was lit. -/
theorem flag_execute_iff (h : m.DrawsSprite ins s) :
    (m.execute ins).2.reg flagRegister = 1 ↔ ∃ px < screenWidth, ∃ py < screenHeight,
      s.Covers px py ∧ Screen.isLit (m.screen.pixel px py) = true := by
  rw [h.flag_execute.2, Drawing.collision_plots s.nodup_positions]
  constructor
  · rintro (hbefore | ⟨⟨px, py⟩, hmem, hlit⟩)
    · exact nomatch hbefore
    · rcases Screen.lt_of_isLit hlit with ⟨hpx, hpy⟩
      exact ⟨px, hpx, py, hpy, Sprite.mem_positions.mp hmem, hlit⟩
  · rintro ⟨px, _, py, _, hcovers, hlit⟩
    exact Or.inr ⟨(px, py), Sprite.mem_positions.mpr hcovers, hlit⟩

end DrawsSprite

/-- What a step does that executes a drawing instruction whose sprite lies in
    memory. It succeeds. On the screen, the pixels at the set bits of the sprite
    are flipped, and all others keep their values. The flag register is set
    exactly if one of the flipped pixels was lit. Registers are read as they
    were before, also the flag register. -/
theorem step_draw (hfetch : m.fetch = .ok ins) (hop : ins.op = .draw)
    (hroom : m.i.toNat + ins.operands.n.toNat ≤ memorySize) :
    ∃ m', m.step = (.ok (ins, .redraw), m') ∧
      (∀ px < screenWidth, ∀ py < screenHeight, m'.screen.pixel px py =
        if m.SpriteBit ins px py then
          if Screen.isLit (m.screen.pixel px py) then pixelOff else pixelOn
        else m.screen.pixel px py) ∧
      (m'.reg flagRegister = 0 ∨ m'.reg flagRegister = 1) ∧
      (m'.reg flagRegister = 1 ↔ ∃ px < screenWidth, ∃ py < screenHeight,
        m.SpriteBit ins px py ∧ Screen.isLit (m.screen.pixel px py) = true) := by
  rcases exists_drawsSprite hop hroom with ⟨s, hdraws⟩
  refine ⟨(m.execute ins).2, step_eq_of_execute hfetch hdraws.execute_ok, ?_,
    hdraws.flag_execute.1, ?_⟩
  · intro px hpx py hpy
    rw [hdraws.pixel_execute hpx hpy]
    by_cases hbit : m.SpriteBit ins px py
    · rw [if_pos hbit, if_pos ((hdraws.covers_iff px py).mpr hbit)]
      rfl
    · rw [if_neg hbit, if_neg (fun h => hbit ((hdraws.covers_iff px py).mp h))]
      rfl
  · rw [hdraws.flag_execute_iff]
    simp only [hdraws.covers_iff]

/-- A machine about to draw a zero that sticks out at the right of the screen, at
    a column which the flag register holds, and over a pixel of a dim colour. -/
def atEdge : Machine :=
  (idle 0).after [.load [0xDF, 0x15], .setRegister 15 62, .setRegister 1 30, .setPixel 62 30 1]

/-- The dim pixel is dark, the one beside it lit, and nothing comes back at the
    left. -/
theorem step_draw_edge :
    ∃ m', atEdge.step = (.ok (⟨.draw, .registerPairNibble 15 1 5, rfl⟩, .redraw), m') ∧
      m'.screen.pixel 62 30 = pixelOff ∧ m'.screen.pixel 63 30 = pixelOn ∧
      m'.screen.pixel 0 30 = pixelOff ∧ m'.reg flagRegister = 1 := by
  let zero : Instruction := ⟨.draw, .registerPairNibble 15 1 5, rfl⟩
  have hbefore : atEdge.fetch = .ok zero ∧ atEdge.i.toNat + 5 ≤ memorySize ∧
      atEdge.screen.pixel 62 30 = 1 ∧ atEdge.screen.pixel 63 30 = pixelOff ∧
      atEdge.screen.pixel 0 30 = pixelOff := by decide +kernel
  have hbits : atEdge.SpriteBit zero 62 30 ∧ atEdge.SpriteBit zero 63 30 ∧
      ¬atEdge.SpriteBit zero 0 30 := by decide +kernel
  rcases hbefore with ⟨hfetch, hroom, hdim, hdark, hleft⟩
  rcases hbits with ⟨hbit, hbeside, hnone⟩
  -- The instruction reads `v15` before the flag is in it.
  rcases step_draw hfetch rfl hroom with ⟨m', hstep, hscreen, _, hflag⟩
  refine ⟨m', hstep, ?_, ?_, ?_, ?_⟩
  · rw [hscreen 62 (by decide) 30 (by decide), if_pos hbit, hdim]
    rfl
  · rw [hscreen 63 (by decide) 30 (by decide), if_pos hbeside, hdark]
    rfl
  · rw [hscreen 0 (by decide) 30 (by decide), if_neg hnone, hleft]
  · exact hflag.mpr ⟨62, by decide, 30, by decide, hbit, by rw [hdim]; rfl⟩

/-! ## Plain screens -/

theorem DrawsSprite.plain (h : m.DrawsSprite ins s) (hplain : m.screen.Plain) :
    (m.execute ins).2.screen.Plain := by
  intro px hpx py hpy
  rw [h.pixel_execute hpx hpy]
  split
  · exact Screen.flipped_eq_or _
  · exact hplain px hpx py hpy

-- An instruction that has drawn has found all of its sprite in memory.
theorem exists_drawsSprite_of_execute {m' : Machine} {effect : Effect} (hop : ins.op = .draw)
    (h : m.execute ins = (.ok effect, m')) : ∃ s, m.DrawsSprite ins s := by
  by_cases hroom : m.i.toNat + ins.operands.n.toNat ≤ memorySize
  · exact exists_drawsSprite hop hroom
  · have hlength : ins.blockLength? = some ins.operands.n.toNat := by
      rw [Instruction.blockLength?, hop]
    have hrefused := execute_eq_error_iff.mpr ⟨_, hlength, Nat.lt_of_not_le hroom, rfl⟩
    rw [h] at hrefused
    cases hrefused

/-- A step keeps a plain screen plain. -/
theorem plain_step (hplain : m.screen.Plain) : m.step.2.screen.Plain := by
  rcases hstep : m.step with ⟨result, m'⟩
  cases result with
  | error e => rwa [step_error hstep]
  | ok done =>
      rcases done with ⟨ins, effect⟩
      have hexecute := (step_ok hstep).2
      -- Only two instructions reach the screen.
      by_cases hclear : ins.op = .clear
      · simp only [execute, hclear] at hexecute
        cases hexecute
        exact Screen.plain_blank
      · by_cases hdraw : ins.op = .draw
        · rcases exists_drawsSprite_of_execute hdraw hexecute with ⟨s, hdraws⟩
          have hbehind := hdraws.plain hplain
          rwa [hexecute] at hbehind
        · rwa [(step_confined hstep).screen hclear hdraw]

/-- So does everything else but a pixel that is set from outside. -/
theorem plain_apply {op : Operation} (hop : ∀ x y value, op ≠ .setPixel x y value)
    (hplain : m.screen.Plain) : (op.apply m).screen.Plain := by
  by_cases hkeeps : op.KeepsScreen
  · rwa [Operation.screen_apply hkeeps]
  · cases op with
    | step => exact plain_step hplain
    | load program =>
        change (m.load program).2.screen.Plain
        unfold load
        split
        · exact Screen.plain_blank
        · exact hplain
    | setPixel x y value => exact absurd rfl (hop x y value)
    | _ => exact absurd trivial hkeeps

/-- Programs alone only make plain screens, whatever else happens to the
    machine. -/
theorem plain_after {history : List Operation}
    (hhistory : ∀ op ∈ history, ∀ x y value, op ≠ .setPixel x y value)
    (hplain : m.screen.Plain) : (m.after history).screen.Plain := by
  induction history generalizing m with
  | nil => exact hplain
  | cons op history ih =>
      rw [List.forall_mem_cons] at hhistory
      rw [after_cons]
      exact ih hhistory.2 (plain_apply hhistory.1 hplain)

/-! ## Drawing more than once -/

namespace DrawsSprite

variable {t : Sprite} {m₁ m₂ n₁ n₂ : Machine} {i₁ i₂ j₁ j₂ : Instruction}

/-- An instruction draws the same again, unless it finds a coordinate in the
    flag register. -/
theorem again (h : m.DrawsSprite ins s)
    (hx : ins.operands.x.toNat % registerCount ≠ flagRegister)
    (hy : ins.operands.y.toNat % registerCount ≠ flagRegister) :
    (m.execute ins).2.DrawsSprite ins s := by
  rw [h.execute_eq]
  rcases h with ⟨hop, hsx, hsy, hrows⟩
  exact ⟨hop, hsx.trans (congrArg UInt8.toNat (reg_setReg_of_ne hx _ _).symm),
    hsy.trans (congrArg UInt8.toNat (reg_setReg_of_ne hy _ _).symm), hrows⟩

/-- A sprite that has been drawn is gone when it is drawn again. -/
theorem screen_twice (h₁ : m₁.DrawsSprite i₁ s) (h₂ : m₂.DrawsSprite i₂ s)
    (hscreen : m₂.screen = (m₁.execute i₁).2.screen) (hplain : m₁.screen.Plain) :
    (m₂.execute i₂).2.screen = m₁.screen := by
  refine Screen.ext_pixel fun px hpx py hpy => ?_
  rw [h₂.pixel_execute hpx hpy, hscreen, h₁.pixel_execute hpx hpy]
  split
  · exact Screen.flipped_flipped (hplain px hpx py hpy)
  · rfl

/-- One of the two times it collides, if any of it is on the screen: what is
    still dark the first time is lit the second. -/
theorem flag_twice (h₁ : m₁.DrawsSprite i₁ s) (h₂ : m₂.DrawsSprite i₂ s)
    (hscreen : m₂.screen = (m₁.execute i₁).2.screen) :
    (m₁.execute i₁).2.reg flagRegister = 1 ∨ (m₂.execute i₂).2.reg flagRegister = 1 ↔
      ∃ px < screenWidth, ∃ py < screenHeight, s.Covers px py := by
  rw [h₁.flag_execute_iff, h₂.flag_execute_iff, hscreen]
  constructor
  · rintro (⟨px, hpx, py, hpy, hcovers, _⟩ | ⟨px, hpx, py, hpy, hcovers, _⟩) <;>
      exact ⟨px, hpx, py, hpy, hcovers⟩
  · rintro ⟨px, hpx, py, hpy, hcovers⟩
    cases hlit : Screen.isLit (m₁.screen.pixel px py) with
    | true => exact Or.inl ⟨px, hpx, py, hpy, hcovers, hlit⟩
    | false =>
        -- What was dark is lit the second time.
        refine Or.inr ⟨px, hpx, py, hpy, hcovers, ?_⟩
        rw [h₁.pixel_execute hpx hpy, if_pos hcovers, Function.iterate_one, Screen.isLit_flipped,
          hlit]
        rfl

/-- Of two sprites, either may be drawn first: how often a pixel is flipped does
    not depend on it. -/
theorem screen_swapped (h₁ : m₁.DrawsSprite i₁ s) (h₂ : m₂.DrawsSprite i₂ t)
    (hm : m₂.screen = (m₁.execute i₁).2.screen) (k₁ : n₁.DrawsSprite j₁ t)
    (k₂ : n₂.DrawsSprite j₂ s) (hn : n₂.screen = (n₁.execute j₁).2.screen)
    (hstart : n₁.screen = m₁.screen) :
    (n₂.execute j₂).2.screen = (m₂.execute i₂).2.screen := by
  refine Screen.ext_pixel fun px hpx py hpy => ?_
  rw [h₂.pixel_execute hpx hpy, hm, h₁.pixel_execute hpx hpy, k₂.pixel_execute hpx hpy, hn,
    k₁.pixel_execute hpx hpy, hstart]
  exact Function.Commute.iterate_iterate_self _ _ _ _

end DrawsSprite

/-- Drawing is its own inverse, and does not depend on the order. An instruction
    that has no coordinate in the flag register may be executed twice in a row,
    and a screen of lit and dark pixels is what it was before; one of the two
    times there was a collision, if and only if a set bit lies on the screen. And
    on any screen two sprites look the same in either order, whatever is done
    besides drawing in between. -/
theorem draw_twice_or_swapped :
    (∀ (m : Machine) (ins : Instruction), ins.op = .draw →
      ins.operands.x.toNat % registerCount ≠ flagRegister →
      ins.operands.y.toNat % registerCount ≠ flagRegister →
      m.i.toNat + ins.operands.n.toNat ≤ memorySize → m.screen.Plain →
      ∃ m' m'', m.execute ins = (.ok .redraw, m') ∧ m'.execute ins = (.ok .redraw, m'') ∧
        m''.screen = m.screen ∧
        (m'.reg flagRegister = 1 ∨ m''.reg flagRegister = 1 ↔
          ∃ px < screenWidth, ∃ py < screenHeight, m.SpriteBit ins px py)) ∧
    ∀ (s t : Sprite) (m₁ m₂ n₁ n₂ : Machine) (i₁ i₂ j₁ j₂ : Instruction),
      m₁.DrawsSprite i₁ s → m₂.DrawsSprite i₂ t → m₂.screen = (m₁.execute i₁).2.screen →
      n₁.DrawsSprite j₁ t → n₂.DrawsSprite j₂ s → n₂.screen = (n₁.execute j₁).2.screen →
      n₁.screen = m₁.screen → (n₂.execute j₂).2.screen = (m₂.execute i₂).2.screen := by
  constructor
  · intro m ins hop hx hy hroom hplain
    rcases exists_drawsSprite hop hroom with ⟨s, hdraws⟩
    -- The coordinates are the same the second time, as neither is in the flag register.
    have hagain := hdraws.again hx hy
    have hcovers := hdraws.flag_twice hagain rfl
    simp only [hdraws.covers_iff] at hcovers
    exact ⟨(m.execute ins).2, ((m.execute ins).2.execute ins).2, hdraws.execute_ok,
      hagain.execute_ok, hdraws.screen_twice hagain rfl hplain, hcovers⟩
  · intro s t m₁ m₂ n₁ n₂ i₁ i₂ j₁ j₂ h₁ h₂ hm k₁ k₂ hn hstart
    exact DrawsSprite.screen_swapped h₁ h₂ hm k₁ k₂ hn hstart

/-- A machine with a place for a zero at a corner of the screen, and for a one
    that overlaps it. -/
def atCorner : Machine :=
  (idle 0).after [.load [], .setRegister 0 62, .setRegister 1 29, .setRegister 2 60,
    .setRegister 3 28]

/-- A zero is drawn twice, and a zero and a one in either order. -/
theorem draw_twice_or_swapped_corner :
    let zero : Instruction := ⟨.draw, .registerPairNibble 0 1 5, rfl⟩
    let one : Instruction := ⟨.draw, .registerPairNibble 2 3 5, rfl⟩
    (∃ m' m'', atCorner.execute zero = (.ok .redraw, m') ∧
      m'.execute zero = (.ok .redraw, m'') ∧ m''.screen = atCorner.screen ∧
      (m'.reg flagRegister = 1 ∨ m''.reg flagRegister = 1)) ∧
    ((((atCorner.setIndex 5).execute one).2.setIndex 0).execute zero).2.screen
      = (((atCorner.execute zero).2.setIndex 5).execute one).2.screen := by
  intro zero one
  have hplain : atCorner.screen.Plain := Screen.plain_blank
  have hzero : atCorner.i.toNat + 5 ≤ memorySize ∧ atCorner.SpriteBit zero 63 29 := by
    decide +kernel
  rcases draw_twice_or_swapped with ⟨htwice, hswapped⟩
  constructor
  · rcases htwice atCorner zero rfl (by decide) (by decide) hzero.1 hplain with
      ⟨m', m'', hfirst, hsecond, hscreen, hflag⟩
    exact ⟨m', m'', hfirst, hsecond, hscreen, hflag.mpr ⟨63, by decide, 29, by decide, hzero.2⟩⟩
  · exact hswapped ⟨62, 29, [0xF0, 0x90, 0x90, 0x90, 0xF0]⟩
      ⟨60, 28, [0x20, 0x60, 0x20, 0x20, 0x70]⟩ atCorner ((atCorner.execute zero).2.setIndex 5)
      (atCorner.setIndex 5) (((atCorner.setIndex 5).execute one).2.setIndex 0) zero one one zero
      (by decide +kernel) (by decide +kernel) (screen_setIndex _ _) (by decide +kernel)
      (by decide +kernel) (screen_setIndex _ _) (screen_setIndex _ _)

end Machine

end Chip8
