import CE213Lab.ImageProcessing.TbMedianFilter

/-!
# The golden model of the median filter

`median_filter.py`: the image is converted to grayscale and filtered by PIL, which extends it
beyond its edges by repeating the edge pixels. The driver copies the border instead, so the two
images agree inside, and on the border exactly where a pixel is the median of its own extended
window. The main theorem is `agrees_inside`.
-/

namespace CE213Lab.ImageProcessing

open Foundation TbMedianFilter

variable {WIDTH HEIGHT : ℕ}

/-- What the script calls of PIL, on grayscale images: `convert('L')` and
`filter(ImageFilter.MedianFilter(size))`, which may raise an exception. -/
structure PIL where
  convertL : ∀ {WIDTH HEIGHT : ℕ}, Image WIDTH HEIGHT → Image WIDTH HEIGHT
  medianFilter : ℕ → ∀ {WIDTH HEIGHT : ℕ}, Image WIDTH HEIGHT → Option (Image WIDTH HEIGHT)

/-- `apply_median_filter`: the image it saves. `input` is the image at the input path; without
one, or after an exception, the script exits with status 1 and saves nothing. -/
def applyMedianFilter (pil : PIL) (input : Option (Image WIDTH HEIGHT)) (kernelSize : ℕ) :
    Option (Image WIDTH HEIGHT) := do
  let img ← input
  let grayImg := pil.convertL img
  pil.medianFilter kernelSize grayImg

/-! ## The documented behaviour of PIL -/

/-- The nearest coordinate inside `0` to `n - 1`. -/
def clamp (n : ℕ) (i : ℤ) : ℤ :=
  max 0 (min i (n - 1))

/-- The pixel of the image extended by repeating its edge pixels. -/
def extendedAt (img : Image WIDTH HEIGHT) (x y : ℤ) : Option Byte :=
  pixelAt img (clamp WIDTH x) (clamp HEIGHT y)

/-- The median of a pixel's 3x3 window over the extended image. -/
def extendedMedian (img : Image WIDTH HEIGHT) (x y : ℕ) : Option Byte := do
  let p ← windowAround (extendedAt img) x y
  select p.pixels 4

/-- A grayscale image is left as it is, and `MedianFilter(3)` takes the median of every window over
the extended image. -/
structure PIL.Documented (pil : PIL) : Prop where
  convertL : ∀ {WIDTH HEIGHT : ℕ} (img : Image WIDTH HEIGHT), pil.convertL img = img
  medianFilter : ∀ {WIDTH HEIGHT : ℕ} (img : Image WIDTH HEIGHT),
    ∃ out, pil.medianFilter 3 img = some out ∧
      ∀ x y, x < WIDTH → y < HEIGHT → out[y * WIDTH + x]? = extendedMedian img x y

/-- Inside the image the extension does not matter. -/
theorem extended_median_inside (img : Image WIDTH HEIGHT) {x y : ℕ}
    (h : Inside WIDTH HEIGHT x y) : extendedMedian img x y = filtered img x y := by
  have hclamp : ∀ {n i : ℕ} {u : ℤ}, 0 < i → i + 1 < n → Near i u → clamp n u = u := by
    intro n i u _ _ ⟨_, _⟩
    unfold clamp
    omega
  have hwindow : windowAround (extendedAt img) x y = neighbourhood img x y :=
    window_around_congr fun u v hu hv => by
      rw [extendedAt, hclamp h.1.1 h.1.2 hu, hclamp h.2.1 h.2.2 hv]
  rw [extendedMedian, filtered, if_pos h, hwindow]

/-! ## The two images -/

/-- The driver and the golden model make the same image of `img`. -/
def Agrees (pil : PIL) (img : Image WIDTH HEIGHT) : Prop :=
  ∀ s, ∃ s' out, main img s = some s' ∧ applyMedianFilter pil (some img) 3 = some out ∧
    s'.file = out.toList

/-- The image `file` of the driver against the golden model's `out`: equal inside, a copy of the
input on the border, and so equal everywhere exactly when the golden model keeps the border. -/
structure AgreesInside (img : Image WIDTH HEIGHT) (file : List Byte) (out : Image WIDTH HEIGHT) :
    Prop where
  inside : ∀ x y, x < WIDTH → y < HEIGHT → Inside WIDTH HEIGHT x y →
    file[y * WIDTH + x]? = out[y * WIDTH + x]?
  border : ∀ x y, x < WIDTH → y < HEIGHT → ¬ Inside WIDTH HEIGHT x y →
    file[y * WIDTH + x]? = img[y * WIDTH + x]?
  everywhere : file = out.toList ↔ ∀ x y, x < WIDTH → y < HEIGHT → ¬ Inside WIDTH HEIGHT x y →
    img[y * WIDTH + x]? = out[y * WIDTH + x]?

/-- For every image both sides produce one, and the two agree inside. -/
theorem agrees_inside {pil : PIL} (hpil : pil.Documented) (img : Image WIDTH HEIGHT) (s : State) :
    ∃ s' out, main img s = some s' ∧ applyMedianFilter pil (some img) 3 = some out ∧
      AgreesInside img s'.file out := by
  obtain ⟨s', hmain, hlength, hfile⟩ := main_writes img s
  obtain ⟨out, hfilter, hout⟩ := hpil.medianFilter img
  have hinside : ∀ x y, x < WIDTH → y < HEIGHT → Inside WIDTH HEIGHT x y →
      s'.file[y * WIDTH + x]? = out[y * WIDTH + x]? := fun x y hx hy h => by
    rw [hfile x y hx hy, hout x y hx hy, extended_median_inside img h]
  have hborder : ∀ x y, x < WIDTH → y < HEIGHT → ¬ Inside WIDTH HEIGHT x y →
      s'.file[y * WIDTH + x]? = img[y * WIDTH + x]? := fun x y hx hy h => by
    rw [hfile x y hx hy, filtered, if_neg h, pixel_at_eq img hx hy]
  refine ⟨s', out, hmain, ?_, hinside, hborder, ⟨?_, ?_⟩⟩
  · show pil.medianFilter 3 (pil.convertL img) = some out
    rw [hpil.convertL, hfilter]
  · intro heq x y hx hy h
    rw [← hborder x y hx hy h, heq, Vector.getElem?_toList]
  · intro hgolden
    refine eq_of_row_major hlength (Vector.length_toList ..) fun x y hx hy => ?_
    rw [Vector.getElem?_toList]
    by_cases h : Inside WIDTH HEIGHT x y
    · exact hinside x y hx hy h
    · rw [hborder x y hx hy h, hgolden x y hx hy h]

/-! ## A PIL that behaves as documented -/

/-- Every pixel of an image has a median over the extended image. -/
theorem exists_extended_median (img : Image WIDTH HEIGHT) {x y : ℕ} (hx : x < WIDTH)
    (hy : y < HEIGHT) : ∃ v, extendedMedian img x y = some v := by
  have hpixel : ∀ x y, ∃ v, extendedAt img x y = some v := fun x y => by
    have hclamp : ∀ {n : ℕ} (i : ℤ), 0 < n → 0 ≤ clamp n i ∧ clamp n i < n := by
      intro n i _
      unfold clamp
      omega
    obtain ⟨v, hv, _⟩ := exists_pixel img (hclamp x (by omega)) (hclamp y (by omega))
    exact ⟨v, hv⟩
  obtain ⟨p, hp⟩ := exists_window_around (x := x) (y := y) fun u v _ _ => hpixel u v
  obtain ⟨v, hv⟩ := exists_select (l := p.pixels) (k := 4) (by simp [Window.pixels])
  exact ⟨v, by rw [extendedMedian, hp]; exact hv⟩

/-- The documented filter for windows of size three. -/
def edgeReplicating : PIL where
  convertL img := img
  medianFilter size WIDTH _ img :=
    if size = 3 then
      some (Vector.ofFn fun i => (extendedMedian img (i % WIDTH) (i / WIDTH)).getD 0)
    else none

theorem edge_replicating_documented : edgeReplicating.Documented where
  convertL _ := rfl
  medianFilter := by
    intro WIDTH HEIGHT img
    refine ⟨_, rfl, fun x y hx hy => ?_⟩
    obtain ⟨v, hv⟩ := exists_extended_median img hx hy
    have hwidth : 0 < WIDTH := by omega
    have hcolumn : (y * WIDTH + x) % WIDTH = x := by
      rw [Nat.add_comm, Nat.add_mul_mod_self_right, Nat.mod_eq_of_lt hx]
    have hrow : (y * WIDTH + x) / WIDTH = y := by
      rw [Nat.add_comm, Nat.add_mul_div_right _ _ hwidth, Nat.div_eq_of_lt hx, Nat.zero_add]
    rw [Vector.getElem?_eq_getElem (row_major_lt hx hy), Vector.getElem_ofFn]
    simp only [hcolumn, hrow, hv]
    rfl

/-- All registers zero and nothing written. -/
def powerUp : State :=
  ⟨⟨0, 0, 0, 0, 0, 0, 0, 0, 0⟩, ⟨0, 0, 0, 0, 0, 0, 0, 0, 0, 0, 0, 0, 0⟩, []⟩

/-- An image of four columns and three rows, brightest in the middle. -/
def brightCentre : Image 4 3 :=
  #v[10, 20, 30, 40, 50, 200, 250, 80, 90, 100, 110, 120]

theorem bright_centre_agrees :
    ∃ s' out, main brightCentre powerUp = some s' ∧
      applyMedianFilter edgeReplicating (some brightCentre) 3 = some out ∧
      AgreesInside brightCentre s'.file out :=
  agrees_inside edge_replicating_documented brightCentre powerUp

/-- One bright pixel in a row of three. -/
def brightRow : Image 3 1 := #v[0, 255, 0]

/-- The golden model removes the bright pixel, the driver copies it. -/
theorem bright_row_disagrees :
    edgeReplicating.Documented ∧ ¬ Agrees edgeReplicating brightRow := by
  refine ⟨edge_replicating_documented, fun hagrees => ?_⟩
  have hcopied : filtered brightRow 1 0 = some 255 := by decide
  have hwindow : windowAround (extendedAt brightRow) (1 : ℕ) (0 : ℕ) =
      some ⟨0, 255, 0, 0, 255, 0, 0, 255, 0⟩ := by decide
  have hremoved : extendedMedian brightRow 1 0 = some 0 := by
    rw [extendedMedian, hwindow]
    have hsorted := nth_largest_of_sorted (l := ([0, 0, 0, 0, 0, 0, 255, 255, 255] : List Byte))
      (k := 4) (by decide) (by decide)
    exact select_eq_some (by decide) (hsorted.perm (by decide))
  obtain ⟨s', out, hmain, hgolden, heq⟩ := hagrees powerUp
  obtain ⟨s'', hmain', _, hfile⟩ := main_writes brightRow powerUp
  obtain ⟨out', hfilter, hout⟩ := edge_replicating_documented.medianFilter brightRow
  have hsame : s'' = s' := Option.some.inj (hmain'.symm.trans hmain)
  have hsame' : out' = out := Option.some.inj (hfilter.symm.trans hgolden)
  have hentry := hfile 1 0 (by decide) (by decide)
  rw [hsame, heq, Vector.getElem?_toList, ← hsame', hout 1 0 (by decide) (by decide), hcopied,
    hremoved] at hentry
  exact absurd hentry (by decide)

end CE213Lab.ImageProcessing
