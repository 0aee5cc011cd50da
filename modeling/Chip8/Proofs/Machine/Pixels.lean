import Chip8.Screen

/-!
# Screens Pixel by Pixel

A screen is known by its pixels. Writing one changes no other, and beyond the
edges there is nothing to write to and nothing to see.

Whoever is shown a screen pixel by pixel and writes down what is shown ends up
with that screen, whatever was there before. Two things make it so, and both
are kept by every pixel that is written: the pixel itself is right from then
on, and so is every other that was right already.

## Main definitions

* `Screen.Shows`: Two screens have the same pixel at a position.

## Theorems

* `ext_pixel`: Screens with the same pixels are equal.
* `pixel_setPixel_self`, `pixel_setPixel_of_ne`: What writing a pixel changes.
* `foldPixels_setPixel`: A screen is copied by writing down every pixel.
-/

namespace Chip8

namespace Screen

variable {s t : Screen} {x y x' y' : Nat}

theorem pixel_of_lt (s : Screen) (hx : x < screenWidth) (hy : y < screenHeight) :
    s.pixel x y = s.rows[y][x] :=
  dif_pos ⟨hy, hx⟩

/-- Screens with the same pixels are equal. -/
theorem ext_pixel (h : ∀ x < screenWidth, ∀ y < screenHeight, s.pixel x y = t.pixel x y) :
    s = t := by
  rcases s with ⟨rows⟩
  rcases t with ⟨rows'⟩
  congr 1
  refine Vector.ext fun y hy => Vector.ext fun x hx => ?_
  have hpixel := h x hx y hy
  rw [pixel_of_lt _ hx hy, pixel_of_lt _ hx hy] at hpixel
  exact hpixel

theorem pixel_setPixel_self (s : Screen) (hx : x < screenWidth) (hy : y < screenHeight)
    (value : UInt32) : (s.setPixel x y value).pixel x y = value := by
  rw [pixel_of_lt _ hx hy]
  simp [setPixel, hx, hy]

theorem pixel_setPixel_of_ne (s : Screen) (h : ¬(x = x' ∧ y = y')) (value : UInt32) :
    (s.setPixel x y value).pixel x' y' = s.pixel x' y' := by
  unfold setPixel
  split
  · rename_i hin
    unfold pixel
    split
    · -- In the same row it is another place, and in another row nothing is written.
      by_cases hy : y = y'
      · subst hy
        have hx : x ≠ x' := fun hx => h ⟨hx, rfl⟩
        simp [hx]
      · simp [hy]
    · rfl
  · rfl

/-- Two screens have the same pixel at a position. -/
def Shows (s t : Screen) (x y : Nat) : Prop :=
  t.pixel x y = s.pixel x y

-- A pixel that is copied is right, and leaves those right that were.
theorem shows_copy_self (s t : Screen) (hx : x < screenWidth) (hy : y < screenHeight) :
    s.Shows (t.setPixel x y (s.pixel x y)) x y :=
  pixel_setPixel_self t hx hy (s.pixel x y)

theorem Shows.copy (h : s.Shows t x' y') (hx : x < screenWidth) (hy : y < screenHeight) :
    s.Shows (t.setPixel x y (s.pixel x y)) x' y' := by
  by_cases hsame : x = x' ∧ y = y'
  · rcases hsame with ⟨rfl, rfl⟩
    exact shows_copy_self s t hx hy
  · rwa [Shows, pixel_setPixel_of_ne t hsame]

/-- Some pixels of a row are copied from the left. -/
def copyRow (s : Screen) (y : Fin screenHeight) (xs : List (Fin screenWidth)) (t : Screen) :
    Screen :=
  xs.foldl (fun t (x : Fin screenWidth) => t.setPixel x y (s.pixel x y)) t

theorem Shows.copyRow (h : s.Shows t x' y') (y : Fin screenHeight) (xs : List (Fin screenWidth)) :
    s.Shows (s.copyRow y xs t) x' y' := by
  induction xs generalizing t with
  | nil => exact h
  | cons x xs ih => exact ih (h.copy x.isLt y.isLt)

theorem shows_copyRow {y : Fin screenHeight} {x : Fin screenWidth} {xs : List (Fin screenWidth)}
    (hx : x ∈ xs) : s.Shows (s.copyRow y xs t) x y := by
  induction xs generalizing t with
  | nil => exact nomatch hx
  | cons first xs ih =>
      rcases List.mem_cons.mp hx with rfl | hx
      · exact (shows_copy_self s t x.isLt y.isLt).copyRow y xs
      · exact ih hx

/-- Some rows are copied from the top. -/
def copyRows (s : Screen) (ys : List (Fin screenHeight)) (t : Screen) : Screen :=
  ys.foldl (fun t (y : Fin screenHeight) => s.copyRow y (List.finRange screenWidth) t) t

theorem Shows.copyRows (h : s.Shows t x' y') (ys : List (Fin screenHeight)) :
    s.Shows (s.copyRows ys t) x' y' := by
  induction ys generalizing t with
  | nil => exact h
  | cons y ys ih => exact ih (h.copyRow y _)

theorem shows_copyRows {y : Fin screenHeight} {ys : List (Fin screenHeight)} (hy : y ∈ ys)
    (x : Fin screenWidth) : s.Shows (s.copyRows ys t) x y := by
  induction ys generalizing t with
  | nil => exact nomatch hy
  | cons first ys ih =>
      rcases List.mem_cons.mp hy with rfl | hy
      · exact (shows_copyRow (List.mem_finRange x)).copyRows ys
      · exact ih hy

/-- A screen is copied by writing down every pixel that is shown, whatever was
    there before. -/
theorem foldPixels_setPixel (s t : Screen) :
    s.foldPixels (fun x y value t => t.setPixel x y value) t = s := by
  have hvalue : ∀ (y : Fin screenHeight) (x : Fin screenWidth), s.rows[y][x] = s.pixel x y :=
    fun y x => (pixel_of_lt s x.isLt y.isLt).symm
  simp only [foldPixels, hvalue]
  change s.copyRows (List.finRange screenHeight) t = s
  refine ext_pixel fun x hx y hy => ?_
  exact shows_copyRows (List.mem_finRange (⟨y, hy⟩ : Fin screenHeight)) ⟨x, hx⟩

end Screen

end Chip8
