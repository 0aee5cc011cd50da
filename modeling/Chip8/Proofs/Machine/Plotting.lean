import Chip8.Proofs.Machine.Pixels
import Mathlib.Data.List.Nodup
import Mathlib.Logic.Function.Iterate

/-!
# Flipping Pixels

Drawing comes down to flipping pixels one after another, at the positions of a
list. Each flip reads the screen that the flips in front of it have left
behind, so what is read depends on how often a position comes up. A pixel is
flipped that many times, whatever happens at other positions in between; and
what lies beyond the edges is flipped into nothing.

The positions of a sprite are those of its set bits. They are all different,
since each belongs to one row and one column. So every pixel is flipped at most
once, and each of the flips finds its pixel as it was before the first of them.
Only for this reason a collision tells of the screen before the sprite.

## Main definitions

* `Screen.flipped`: The other value of a pixel.
* `Drawing.plots`: Flipping pixels in order.
* `Sprite`: The rows of a sprite, and where it is drawn.
* `Sprite.Covers`: A position with a set bit.
* `Sprite.positions`: All of these positions, in the order of drawing.

## Theorems

* `pixel_plots`: A pixel is flipped as often as its position comes up.
* `collision_plots`: Different positions collide with what was there before.
* `sprite_eq_plots`: Drawing a sprite flips its positions.
* `mem_positions`, `nodup_positions`: Which positions these are, each once.
-/

namespace Chip8

/-! ## Positions in order -/

namespace Screen

/-- What a pixel becomes when it is flipped. -/
def flipped (value : UInt32) : UInt32 :=
  if isLit value then pixelOff else pixelOn

theorem isLit_flipped (value : UInt32) : isLit (flipped value) = !isLit value := by
  unfold flipped
  cases isLit value <;> rfl

theorem flipped_eq_or (value : UInt32) :
    flipped value = pixelOn ∨ flipped value = pixelOff := by
  unfold flipped
  cases isLit value
  · exact Or.inl rfl
  · exact Or.inr rfl

/-- The two values that drawing gives to pixels are each other's opposites. -/
theorem flipped_flipped {value : UInt32} (h : value = pixelOn ∨ value = pixelOff) :
    flipped (flipped value) = value := by
  rcases h with rfl | rfl <;> rfl

-- Beyond the edges nothing is lit.
theorem lt_of_isLit {s : Screen} {x y : Nat} (h : isLit (s.pixel x y) = true) :
    x < screenWidth ∧ y < screenHeight := by
  by_cases hin : y < screenHeight ∧ x < screenWidth
  · exact hin.symm
  · rw [pixel, dif_neg hin] at h
    exact absurd h (by decide)

end Screen

namespace Drawing

open Screen

/-- Flips the pixels at some positions, in order. -/
def plots (positions : List (Nat × Nat)) (d : Drawing) : Drawing :=
  positions.foldl (fun d position => d.plot position.1 position.2) d

theorem plots_cons (position : Nat × Nat) (positions : List (Nat × Nat)) (d : Drawing) :
    d.plots (position :: positions) = (d.plot position.1 position.2).plots positions := rfl

theorem plots_append (positions later : List (Nat × Nat)) (d : Drawing) :
    d.plots (positions ++ later) = (d.plots positions).plots later :=
  List.foldl_append

variable {x y : Nat}

theorem pixel_plot_self (d : Drawing) (hx : x < screenWidth) (hy : y < screenHeight) :
    (d.plot x y).screen.pixel x y = flipped (d.screen.pixel x y) :=
  pixel_setPixel_self d.screen hx hy _

theorem pixel_plot_of_ne (d : Drawing) {position : Nat × Nat} (h : position ≠ (x, y)) :
    (d.plot position.1 position.2).screen.pixel x y = d.screen.pixel x y :=
  pixel_setPixel_of_ne d.screen (fun hsame => h (Prod.ext hsame.1 hsame.2)) _

/-- A pixel is flipped as often as its position comes up. -/
theorem pixel_plots (positions : List (Nat × Nat)) (d : Drawing) (hx : x < screenWidth)
    (hy : y < screenHeight) :
    (d.plots positions).screen.pixel x y
      = flipped^[positions.count (x, y)] (d.screen.pixel x y) := by
  induction positions generalizing d with
  | nil => rfl
  | cons position positions ih =>
      rw [plots_cons, ih]
      by_cases hposition : position = (x, y)
      · subst hposition
        rw [pixel_plot_self d hx hy, List.count_cons_self, Function.iterate_succ_apply]
      · rw [pixel_plot_of_ne d hposition, List.count_cons_of_ne hposition]

/-- Where all positions are different, a collision is a pixel that was lit before
    the first of them was flipped. -/
theorem collision_plots {positions : List (Nat × Nat)} (hnodup : positions.Nodup)
    (d : Drawing) :
    (d.plots positions).collision = true ↔ d.collision = true ∨
      ∃ position ∈ positions, isLit (d.screen.pixel position.1 position.2) = true := by
  induction positions generalizing d with
  | nil => simp only [plots, List.foldl_nil, List.not_mem_nil, false_and, exists_false, or_false]
  | cons position positions ih =>
      rcases List.nodup_cons.mp hnodup with ⟨hfirst, hrest⟩
      -- None of the later positions is the first, whose pixel alone has changed.
      have hsame : ∀ later ∈ positions,
          (d.plot position.1 position.2).screen.pixel later.1 later.2
            = d.screen.pixel later.1 later.2 := by
        intro later hlater
        exact pixel_plot_of_ne d (fun h => hfirst (h ▸ hlater))
      have hcollision : (d.plot position.1 position.2).collision
          = (d.collision || isLit (d.screen.pixel position.1 position.2)) := rfl
      rw [plots_cons, ih hrest, hcollision, Bool.or_eq_true, or_assoc, List.exists_mem_cons_iff]
      refine or_congr_right (or_congr_right (exists_congr fun later => and_congr_right ?_))
      intro hlater
      rw [hsame later hlater]

end Drawing

/-! ## Sprites -/

/-- The rows of a sprite, and the position of its upper left corner. -/
structure Sprite where
  x : Nat
  y : Nat
  rows : List UInt8
  deriving DecidableEq, Repr

namespace Sprite

/-- The columns of the bits that are set in a row, from the left. -/
def columns (bits : UInt8) : List Nat :=
  (List.range 8).filter fun column => bits.toNat.testBit (7 - column)

/-- The positions of the bits that are set in some rows, from the top. -/
def positionsFrom (x y : Nat) : List UInt8 → List (Nat × Nat)
  | [] => []
  | bits :: below =>
      (columns bits).map (fun column => (x + column, y)) ++ positionsFrom x (y + 1) below

/-- The positions of the bits that are set in a sprite. -/
def positions (s : Sprite) : List (Nat × Nat) :=
  positionsFrom s.x s.y s.rows

/-- A bit is set in the sprite where it lies on a position. -/
def Covers (s : Sprite) (px py : Nat) : Prop :=
  s.x ≤ px ∧ px - s.x < 8 ∧ s.y ≤ py ∧
    (s.rows.getD (py - s.y) 0).toNat.testBit (7 - (px - s.x)) = true

instance (s : Sprite) (px py : Nat) : Decidable (s.Covers px py) :=
  inferInstanceAs (Decidable (_ ∧ _ ∧ _ ∧ _))

variable {x y px py : Nat}

theorem mem_columns {bits : UInt8} {column : Nat} :
    column ∈ columns bits ↔ column < 8 ∧ bits.toNat.testBit (7 - column) = true := by
  rw [columns, List.mem_filter, List.mem_range]

theorem mem_row {bits : UInt8} :
    (px, py) ∈ (columns bits).map (fun column => (x + column, y)) ↔
      x ≤ px ∧ px - x < 8 ∧ py = y ∧ bits.toNat.testBit (7 - (px - x)) = true := by
  rw [List.mem_map]
  constructor
  · rintro ⟨column, hcolumn, heq⟩
    rcases mem_columns.mp hcolumn with ⟨hlt, hbit⟩
    rcases Prod.mk.inj heq with ⟨rfl, rfl⟩
    rw [Nat.add_sub_cancel_left]
    exact ⟨Nat.le_add_right _ _, hlt, rfl, hbit⟩
  · rintro ⟨hle, hlt, rfl, hbit⟩
    exact ⟨px - x, mem_columns.mpr ⟨hlt, hbit⟩, by rw [Nat.add_sub_cancel' hle]⟩

theorem mem_positionsFrom (rows : List UInt8) :
    (px, py) ∈ positionsFrom x y rows ↔ Covers ⟨x, y, rows⟩ px py := by
  induction rows generalizing y with
  | nil => simp only [positionsFrom, List.not_mem_nil, Covers, List.getD_nil, UInt8.toNat_zero,
      Nat.zero_testBit, Bool.false_eq_true, and_false]
  | cons bits below ih =>
      rw [positionsFrom, List.mem_append, mem_row, ih, Covers, Covers]
      -- The position lies above the first row, on it, or further down.
      rcases Nat.lt_trichotomy py y with hlt | rfl | hgt
      · simp only [show ¬py = y by omega, show ¬y ≤ py by omega, show ¬y + 1 ≤ py by omega,
          false_and, and_false, or_false]
      · simp only [Nat.sub_self, List.getD_cons_zero, Nat.le_refl, Nat.not_succ_le_self,
          true_and, false_and, and_false, or_false]
      · simp only [show ¬py = y by omega, show y ≤ py by omega, show y + 1 ≤ py by omega,
          show py - y = (py - (y + 1)) + 1 by omega, List.getD_cons_succ, false_and, and_false,
          false_or, true_and]

/-- The positions of a sprite are those that it covers. -/
theorem mem_positions {s : Sprite} : (px, py) ∈ s.positions ↔ s.Covers px py :=
  mem_positionsFrom s.rows

theorem nodup_positionsFrom (x y : Nat) (rows : List UInt8) : (positionsFrom x y rows).Nodup := by
  induction rows generalizing y with
  | nil => exact List.nodup_nil
  | cons bits below ih =>
      rw [positionsFrom, List.nodup_append]
      refine ⟨?_, ih (y + 1), ?_⟩
      · refine List.Nodup.map ?_ (List.Nodup.filter _ List.nodup_range)
        intro column column' h
        exact Nat.add_left_cancel (Prod.mk.inj h).1
      · -- What lies below is in other rows.
        rintro ⟨px, py⟩ hrow ⟨px', py'⟩ hbelow heq
        rcases Prod.mk.inj heq with ⟨rfl, rfl⟩
        have hrow := (mem_row.mp hrow).2.2.1
        have hbelow := ((mem_positionsFrom below).mp hbelow).2.2.1
        change y + 1 ≤ py at hbelow
        omega

/-- Every position of a sprite comes up once. -/
theorem nodup_positions (s : Sprite) : s.positions.Nodup :=
  nodup_positionsFrom s.x s.y s.rows

end Sprite

namespace Drawing

theorem byteRow_eq_plots (x y : Nat) (bits : UInt8) (d : Drawing) :
    d.byteRow x y bits
      = d.plots ((Sprite.columns bits).map fun column => (x + column, y)) := by
  rw [plots, List.foldl_map, Sprite.columns, List.foldl_filter]
  rfl

theorem sprite_eq_plots_from (x y : Nat) (rows : List UInt8) (d : Drawing) :
    sprite x y rows d = d.plots (Sprite.positionsFrom x y rows) := by
  induction rows generalizing y d with
  | nil => rfl
  | cons bits below ih =>
      rw [sprite, ih, byteRow_eq_plots, Sprite.positionsFrom, plots_append]

/-- Drawing a sprite flips the pixels at its positions. -/
theorem sprite_eq_plots (s : Sprite) (d : Drawing) :
    sprite s.x s.y s.rows d = d.plots s.positions :=
  sprite_eq_plots_from s.x s.y s.rows d

end Drawing

end Chip8
