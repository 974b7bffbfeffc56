import CE213Lab.Foundation.RowMajor
import CE213Lab.ImageProcessing.MedianFilter

/-!
# The driver of the median filter

`tb_median_filter.v`: the test bench reads an image from `img_mem`, pushes the window of every
inner pixel through the pipelined filter, waits for its median and writes it to the output file; a
border pixel is written as it is. The main theorem is `median_of_every_frame`.
-/

namespace CE213Lab.ImageProcessing

open Foundation

/-- The memory of an image, row after row. -/
abbrev Image (WIDTH HEIGHT : ℕ) := Vector Byte (WIDTH * HEIGHT)

namespace TbMedianFilter

variable {WIDTH HEIGHT : ℕ}

/-- The registers `p1` to `p9`, the filter and the lines written to the output file so far. -/
structure State where
  p : Window
  uut : MedianFilter.State
  file : List Byte

/-- `img_mem[i]`, an integer index. Outside the memory there is no value. -/
def imgMem (img : Image WIDTH HEIGHT) (i : ℤ) : Option Byte :=
  if 0 ≤ i then img[i.toNat]? else none

/-- `@(posedge clk)`: the filter takes the edge with the inputs as they stand. -/
def posedge (rstN : Bool) (s : State) : State :=
  { s with uut := MedianFilter.step ⟨rstN, s.p⟩ s.uut }

/-- `$fwrite` of a pixel. -/
def fwrite (pixel : Byte) (s : State) : State :=
  { s with file := s.file ++ [pixel] }

/-- The file is opened empty, and `rst_n` is low for two rising edges. -/
def reset (s : State) : State :=
  posedge false (posedge false { s with file := [] })

/-- Case 1 of the loop body: borders. -/
def OnBorder (WIDTH HEIGHT : ℕ) (y x : ℤ) : Prop :=
  x = 0 ∨ x = WIDTH - 1 ∨ y = 0 ∨ y = HEIGHT - 1

instance (y x : ℤ) : Decidable (OnBorder WIDTH HEIGHT y x) :=
  inferInstanceAs (Decidable (_ ∨ _))

/-- The nine assignments of case 2. -/
def setup (img : Image WIDTH HEIGHT) (y x : ℤ) : Option Window := do
  let p1 ← imgMem img ((y - 1) * WIDTH + (x - 1))
  let p2 ← imgMem img ((y - 1) * WIDTH + x)
  let p3 ← imgMem img ((y - 1) * WIDTH + (x + 1))
  let p4 ← imgMem img (y * WIDTH + (x - 1))
  let p5 ← imgMem img (y * WIDTH + x)
  let p6 ← imgMem img (y * WIDTH + (x + 1))
  let p7 ← imgMem img ((y + 1) * WIDTH + (x - 1))
  let p8 ← imgMem img ((y + 1) * WIDTH + x)
  let p9 ← imgMem img ((y + 1) * WIDTH + (x + 1))
  pure ⟨p1, p2, p3, p4, p5, p6, p7, p8, p9⟩

/-- The body of the loop. An inner pixel takes one edge to enter and three to wait for. -/
def body (img : Image WIDTH HEIGHT) (y x : ℕ) (s : State) : Option State :=
  if OnBorder WIDTH HEIGHT y x then do
    let pixel ← imgMem img (y * WIDTH + x)
    pure (fwrite pixel s)
  else do
    let p ← setup img y x
    let entered := posedge true { s with p := p }
    let waited := posedge true (posedge true (posedge true entered))
    pure (fwrite waited.uut.medianOut waited)

/-- The main process, from registers that may hold anything. -/
def main (img : Image WIDTH HEIGHT) (s : State) : Option State :=
  scan WIDTH HEIGHT (body img) (reset s)

/-! ## Pixels and neighbourhoods -/

/-- The pixel in column `x` and row `y`, if they are inside the image. -/
def pixelAt (img : Image WIDTH HEIGHT) (x y : ℤ) : Option Byte :=
  if 0 ≤ x ∧ x < WIDTH ∧ 0 ≤ y ∧ y < HEIGHT then img[(y * WIDTH + x).toNat]? else none

/-- The nine pixels around column `x` and row `y`, if `pixel` gives all of them. -/
def windowAround (pixel : ℤ → ℤ → Option Byte) (x y : ℤ) : Option Window := do
  let p1 ← pixel (x - 1) (y - 1)
  let p2 ← pixel x (y - 1)
  let p3 ← pixel (x + 1) (y - 1)
  let p4 ← pixel (x - 1) y
  let p5 ← pixel x y
  let p6 ← pixel (x + 1) y
  let p7 ← pixel (x - 1) (y + 1)
  let p8 ← pixel x (y + 1)
  let p9 ← pixel (x + 1) (y + 1)
  pure ⟨p1, p2, p3, p4, p5, p6, p7, p8, p9⟩

/-- The coordinates around `x`. -/
def Near (x u : ℤ) : Prop :=
  x - 1 ≤ u ∧ u ≤ x + 1

/-- A window depends on the nine pixels around its centre only. -/
theorem window_around_congr {pixel pixel' : ℤ → ℤ → Option Byte} {x y : ℤ}
    (h : ∀ u v, Near x u → Near y v → pixel u v = pixel' u v) :
    windowAround pixel x y = windowAround pixel' x y := by
  have hleft : ∀ z, Near z (z - 1) := fun z => ⟨le_rfl, by omega⟩
  have hmiddle : ∀ z, Near z z := fun z => ⟨by omega, by omega⟩
  have hright : ∀ z, Near z (z + 1) := fun z => ⟨by omega, le_rfl⟩
  unfold windowAround
  rw [h _ _ (hleft x) (hleft y), h _ _ (hmiddle x) (hleft y), h _ _ (hright x) (hleft y),
    h _ _ (hleft x) (hmiddle y), h _ _ (hmiddle x) (hmiddle y), h _ _ (hright x) (hmiddle y),
    h _ _ (hleft x) (hright y), h _ _ (hmiddle x) (hright y), h _ _ (hright x) (hright y)]

/-- Where all nine pixels are given, so is the window. -/
theorem exists_window_around {pixel : ℤ → ℤ → Option Byte} {x y : ℤ}
    (h : ∀ u v, Near x u → Near y v → ∃ w, pixel u v = some w) :
    ∃ p, windowAround pixel x y = some p := by
  have hvalue : windowAround pixel x y =
      windowAround (fun u v => some ((pixel u v).getD 0)) x y :=
    window_around_congr fun u v hu hv => by
      obtain ⟨w, hw⟩ := h u v hu hv
      rw [hw]
      rfl
  exact ⟨_, hvalue⟩

/-- The 3x3 neighbourhood of a pixel, if all of it is inside the image. -/
def neighbourhood (img : Image WIDTH HEIGHT) : ℤ → ℤ → Option Window :=
  windowAround (pixelAt img)

/-- A pixel all of whose neighbours are inside the image. The others make up the border. -/
def Inside (WIDTH HEIGHT x y : ℕ) : Prop :=
  (0 < x ∧ x + 1 < WIDTH) ∧ 0 < y ∧ y + 1 < HEIGHT

instance (x y : ℕ) : Decidable (Inside WIDTH HEIGHT x y) :=
  inferInstanceAs (Decidable (_ ∧ _))

/-- The pixel the filtered image has in column `x` and row `y`: the median of its neighbourhood
inside, its own on the border. -/
def filtered (img : Image WIDTH HEIGHT) (x y : ℕ) : Option Byte :=
  if Inside WIDTH HEIGHT x y then do
    let p ← neighbourhood img x y
    select p.pixels 4
  else pixelAt img x y

theorem pixel_at_eq (img : Image WIDTH HEIGHT) {x y : ℕ} (hx : x < WIDTH) (hy : y < HEIGHT) :
    pixelAt img x y = img[y * WIDTH + x]? := by
  have hindex : (y : ℤ) * WIDTH + x = ((y * WIDTH + x : ℕ) : ℤ) := by
    rw [Int.natCast_add, Int.natCast_mul]
  rw [pixelAt, if_pos (by omega), hindex, Int.toNat_natCast]

/-- A column and a row of the image have a pixel, and the driver's index finds it. -/
theorem exists_pixel (img : Image WIDTH HEIGHT) {x y : ℤ} (hx : 0 ≤ x ∧ x < WIDTH)
    (hy : 0 ≤ y ∧ y < HEIGHT) :
    ∃ v, pixelAt img x y = some v ∧ imgMem img (y * WIDTH + x) = some v := by
  obtain ⟨x, rfl⟩ := Int.eq_ofNat_of_zero_le hx.1
  obtain ⟨y, rfl⟩ := Int.eq_ofNat_of_zero_le hy.1
  have hlt : y * WIDTH + x < WIDTH * HEIGHT := row_major_lt (by omega) (by omega)
  have hindex : (y : ℤ) * WIDTH + x = ((y * WIDTH + x : ℕ) : ℤ) := by
    rw [Int.natCast_add, Int.natCast_mul]
  have hread : img[y * WIDTH + x]? = some img[y * WIDTH + x] := Vector.getElem?_eq_getElem hlt
  refine ⟨img[y * WIDTH + x], ?_, ?_⟩
  · rw [← hread]
    exact pixel_at_eq img (by omega) (by omega)
  · rw [imgMem, hindex, if_pos (Int.natCast_nonneg _), Int.toNat_natCast, hread]

/-- Inside the image the nine assignments find the neighbourhood. -/
theorem exists_neighbourhood (img : Image WIDTH HEIGHT) {x y : ℕ}
    (h : Inside WIDTH HEIGHT x y) :
    ∃ p, neighbourhood img x y = some p ∧ setup img y x = some p := by
  obtain ⟨hx, hy⟩ := h
  have hpixel : ∀ u v, Near x u → Near y v →
      ∃ w, pixelAt img u v = some w ∧ imgMem img (v * WIDTH + u) = some w :=
    fun u v ⟨_, _⟩ ⟨_, _⟩ => exists_pixel img (by omega) (by omega)
  obtain ⟨p, hp⟩ := exists_window_around fun u v hu hv =>
    (hpixel u v hu hv).imp fun _ => And.left
  refine ⟨p, hp, ?_⟩
  -- the source's indices are those of the nine pixels around `x` and `y`
  have hsetup : setup img y x = windowAround (fun u v => imgMem img (v * WIDTH + u)) x y := rfl
  rw [hsetup, ← hp]
  refine window_around_congr fun u v hu hv => ?_
  obtain ⟨w, hw, hread⟩ := hpixel u v hu hv
  rw [hread, hw]

/-! ## The loop -/

/-- The driver's test for the border. -/
theorem on_border_iff {x y : ℕ} (hx : x < WIDTH) (hy : y < HEIGHT) :
    OnBorder WIDTH HEIGHT y x ↔ ¬ Inside WIDTH HEIGHT x y := by
  unfold OnBorder Inside
  omega

/-- One round of the loop writes the filtered pixel, whatever the pipeline holds before it. -/
theorem body_writes (img : Image WIDTH HEIGHT) {x y : ℕ} (hx : x < WIDTH) (hy : y < HEIGHT) :
    ∃ v, filtered img x y = some v ∧
      ∀ s, ∃ s', body img y x s = some s' ∧ s'.file = s.file ++ [v] := by
  by_cases hinside : Inside WIDTH HEIGHT x y
  · have hborder : ¬ OnBorder WIDTH HEIGHT y x := fun h => (on_border_iff hx hy).mp h hinside
    obtain ⟨p, hneighbours, hsetup⟩ := exists_neighbourhood img hinside
    -- the fourth edge finds the inputs unchanged and takes the window's median in again
    have hmedian : ∀ s : MedianFilter.State, select p.pixels 4 =
        some (MedianFilter.step ⟨true, p⟩ (MedianFilter.step ⟨true, p⟩
          (MedianFilter.step ⟨true, p⟩ s))).medianOut := fun s =>
      MedianFilter.median_after_three (i := ⟨true, p⟩) rfl rfl rfl s
    obtain ⟨v, hv⟩ := exists_select (l := p.pixels) (k := 4) (by simp [Window.pixels])
    refine ⟨v, ?_, ?_⟩
    · rw [filtered, if_pos hinside, hneighbours]
      exact hv
    · intro s
      rw [body, if_neg hborder, hsetup]
      refine ⟨_, rfl, ?_⟩
      have hout := (hmedian (MedianFilter.step ⟨true, p⟩ s.uut)).symm.trans hv
      show s.file ++ [_] = s.file ++ [v]
      rw [← Option.some.inj hout]
      rfl
  · have hborder : OnBorder WIDTH HEIGHT y x := (on_border_iff hx hy).mpr hinside
    obtain ⟨v, hpixel, hread⟩ := exists_pixel img (x := x) (y := y) (by omega) (by omega)
    refine ⟨v, by rw [filtered, if_neg hinside, hpixel], fun s => ⟨fwrite v s, ?_, rfl⟩⟩
    rw [body, if_pos hborder, hread]
    rfl

/-- The driver runs to its end without leaving the image memory and writes the filtered image row by
row. -/
theorem main_writes (img : Image WIDTH HEIGHT) (s : State) :
    ∃ s', main img s = some s' ∧ s'.file.length = WIDTH * HEIGHT ∧
      ∀ x y, x < WIDTH → y < HEIGHT → s'.file[y * WIDTH + x]? = filtered img x y := by
  have hround : ∀ x y, x < WIDTH → y < HEIGHT → ∀ s, ∃ s', body img y x s = some s' ∧
      s'.file = s.file ++ [(filtered img x y).getD 0] := fun x y hx hy s => by
    obtain ⟨v, hv, hbody⟩ := body_writes img hx hy
    rw [hv]
    exact hbody s
  obtain ⟨s', hmain, hfile⟩ := scan_appends State.file hround (reset s)
  have hfile : s'.file = rowMajor WIDTH HEIGHT fun x y => (filtered img x y).getD 0 := hfile
  refine ⟨s', hmain, by rw [hfile, length_rowMajor], fun x y hx hy => ?_⟩
  obtain ⟨v, hv, _⟩ := body_writes img hx hy
  rw [hfile, getElem?_rowMajor hx hy, hv]
  rfl

/-- Every frame is filtered, from any registers, and what a round of the loop writes does not depend
on what earlier ones have left in the pipeline. -/
theorem median_of_every_frame (img : Image WIDTH HEIGHT) (s : State) :
    (∃ s', main img s = some s' ∧ s'.file.length = WIDTH * HEIGHT ∧
      ∀ x y, x < WIDTH → y < HEIGHT → s'.file[y * WIDTH + x]? = filtered img x y) ∧
    ∀ x y, x < WIDTH → y < HEIGHT →
      ∃ v, ∀ s, ∃ s', body img y x s = some s' ∧ s'.file = s.file ++ [v] := by
  refine ⟨main_writes img s, fun x y hx hy => ?_⟩
  obtain ⟨v, _, hbody⟩ := body_writes img hx hy
  exact ⟨v, hbody⟩

end TbMedianFilter

end CE213Lab.ImageProcessing
