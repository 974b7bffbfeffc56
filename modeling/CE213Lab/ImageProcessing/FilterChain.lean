import CE213Lab.ImageProcessing.BitmapToHex
import CE213Lab.ImageProcessing.CompareImage
import CE213Lab.ImageProcessing.GoldenModel

/-!
# Filtering an image through files

The scripts and the test bench meet in text files. `bitmap_to_hex.py` writes the file which
`tb_median_filter.v` loads with `$readmemh`, and `hex_to_bmp.py` reads the file which the test bench
writes. `compare_image.py` compares the image with the one of the golden model. The main theorems
are `image_filtered` and `perfect_iff`.
-/

namespace CE213Lab.ImageProcessing

open Foundation TbMedianFilter

namespace FilterChain

variable {WIDTH HEIGHT : ℕ}

/-- `$readmemh` into `img_mem`: an image if all of its words are known. -/
def loadImgMem (file : Text) : Option (Image WIDTH HEIGHT) :=
  let word := SimulatorFile.readmemh 8 (WIDTH * HEIGHT) file
  if h : ∀ i : Fin (WIDTH * HEIGHT), (word i).isSome then
    some (Vector.ofFn fun i => (word i).get (h i))
  else none

/-- The file at the output path. `"%2h\n"` prints a byte as the script prints it, in two digits. -/
def outputFile (lineEnd : TextFile.LineEnd) (s : State) : Text :=
  BitmapToHex.writePixels lineEnd s.file

/-- The test bench on the file at its input path, from registers that may hold anything. -/
def simulate (WIDTH HEIGHT : ℕ) (lineEnd : TextFile.LineEnd) (s : State) (file : Text) :
    Option Text := do
  let img : Image WIDTH HEIGHT ← loadImgMem file
  let s ← main img s
  return outputFile lineEnd s

/-- The image at the input path of `bitmap_to_hex.py` on its way to the result of `hex_to_bmp.py`.
Script and simulator may write different line ends. -/
def filterImage (lib : BitmapToHex.Library) (rt : Runtime) (lineEnd lineEnd' : TextFile.LineEnd)
    (s : State) (img : Image WIDTH HEIGHT) (width height : Option ℤ) :
    HexToBmp.Outcome WIDTH HEIGHT :=
  let file := do
    let file ← BitmapToHex.convertToTxt lib lineEnd (some img) width height
    simulate WIDTH HEIGHT lineEnd' s file
  HexToBmp.loadTxtToImage rt file WIDTH HEIGHT true

/-! ## Pixels through files -/

variable {lib : BitmapToHex.Library} {rt : Runtime} {lineEnd lineEnd' : TextFile.LineEnd}
  {img : Image WIDTH HEIGHT}

/-- The test bench loads the image that was written. -/
theorem load_write_pixels : loadImgMem (BitmapToHex.writePixels lineEnd img.toList) = some img := by
  have htext : (img.toList.flatMap fun pixel => BitmapToHex.hexDigits pixel ++ ['\n']) =
      TextFile.unlines (img.toList.map BitmapToHex.hexDigits) := by
    rw [TextFile.unlines, List.flatMap_map]
  have hdigits : ∀ line ∈ img.toList.map BitmapToHex.hexDigits, SimulatorFile.Digits line := by
    intro line hline
    obtain ⟨pixel, -, rfl⟩ := List.mem_map.mp hline
    exact BitmapToHex.digits_hex_digits pixel
  have hword : ∀ i : Fin (WIDTH * HEIGHT), SimulatorFile.readmemh 8 (WIDTH * HEIGHT)
      (BitmapToHex.writePixels lineEnd img.toList) i = some img[i] := by
    intro i
    rw [BitmapToHex.writePixels, htext, SimulatorFile.readmemh_lines hdigits (by simp),
      List.getElem?_map, Vector.getElem?_toList, Vector.getElem?_eq_getElem i.isLt, Option.map_some,
      Option.bind_some, BitmapToHex.scanned_hex_digits, Option.map_some, BitVec.ofNat_toNat,
      BitVec.setWidth_eq]
    rfl
  rw [loadImgMem, dif_pos fun i => by rw [hword i]; rfl]
  refine congrArg some (Vector.ext fun i hi => ?_)
  rw [Vector.getElem_ofFn]
  exact Option.get_of_eq_some _ (hword ⟨i, hi⟩)

/-- The result is the image of what the test bench writes. -/
theorem filter_image_eq (hlib : lib.Documented) (hrt : rt.Documented) {width height : Option ℤ}
    (hsize : width = none ∨ height = none) {s s' : State} (hmain : main img s = some s')
    (hlength : s'.file.length = WIDTH * HEIGHT) :
    ∃ out, filterImage lib rt lineEnd lineEnd' s img width height = .image out ∧
      out.toList = s'.file := by
  obtain ⟨out, hload, hout⟩ := BitmapToHex.load_written hrt hlength
  refine ⟨out, ?_, hout⟩
  rw [filterImage, BitmapToHex.convert_eq hlib hsize]
  simp only [Option.bind_eq_bind, Option.bind_some, simulate, load_write_pixels, hmain]
  exact hload

/-- Without resizing, the files carry the image through the filter: what comes back is the filtered
image, whatever line ends the platforms write and whatever the registers hold at first. -/
theorem image_filtered (hlib : lib.Documented) (hrt : rt.Documented)
    (lineEnd lineEnd' : TextFile.LineEnd) {width height : Option ℤ}
    (hsize : width = none ∨ height = none) (s : State) (img : Image WIDTH HEIGHT) :
    ∃ out, filterImage lib rt lineEnd lineEnd' s img width height = .image out ∧
      ∀ x y, x < WIDTH → y < HEIGHT → out[y * WIDTH + x]? = filtered img x y := by
  obtain ⟨s', hmain, hlength, hfile⟩ := main_writes img s
  obtain ⟨out, hfilter, hout⟩ := filter_image_eq hlib hrt hsize hmain hlength
  refine ⟨out, hfilter, fun x y hx hy => ?_⟩
  rw [← Vector.getElem?_toList, hout, hfile x y hx hy]

/-- An image of two columns and two rows. -/
def corners : Image 2 2 :=
  #v[15, 165, 0, 255]

theorem image_filtered_corners :
    ∃ out, filterImage BitmapToHex.grayscale HexToBmp.ascii .crlf .lf powerUp corners none none =
        .image out ∧
      ∀ x y, x < 2 → y < 2 → out[y * 2 + x]? = filtered corners x y :=
  image_filtered (fun _ => rfl) HexToBmp.ascii_documented .crlf .lf (Or.inl rfl) powerUp corners

/-! ## The score of the result -/

/-- What the comparison cannot tell apart on the border: the pixel, which the test bench copies, and
the median over the extended image differ by a multiple of 16. -/
def BorderScored (img : Image WIDTH HEIGHT) : Prop :=
  ∀ x y, x < WIDTH → y < HEIGHT → ¬ Inside WIDTH HEIGHT x y →
    ∀ p v, pixelAt img x y = some p → extendedMedian img x y = some v →
      16 ∣ CompareImage.difference v p

/-- The result scores as a perfect match with the golden model's image exactly when the border
does. -/
theorem perfect_iff {pil : PIL} {np : CompareImage.Numpy} (hlib : lib.Documented)
    (hrt : rt.Documented) (hpil : pil.Documented) (hnp : np.Documented)
    (lineEnd lineEnd' : TextFile.LineEnd) {width height : Option ℤ}
    (hsize : width = none ∨ height = none) (hpassed : CompareImage.Passed WIDTH HEIGHT) (s : State)
    (img : Image WIDTH HEIGHT) :
    ∃ out golden, filterImage lib rt lineEnd lineEnd' s img width height = .image out ∧
      applyMedianFilter pil (some img) 3 = some golden ∧
        (CompareImage.calculatePsnr np golden out = .int 100 ↔ BorderScored img) := by
  obtain ⟨s', hmain, hlength, hfile⟩ := main_writes img s
  obtain ⟨out, hfilter, hout⟩ := filter_image_eq hlib hrt hsize hmain hlength
  obtain ⟨golden, hmedian, hgolden⟩ := hpil.medianFilter img
  have hgray : applyMedianFilter pil (some img) 3 = some golden := by
    show pil.medianFilter 3 (pil.convertL img) = some golden
    rw [hpil.convertL, hmedian]
  have hpixel : ∀ x y, x < WIDTH → y < HEIGHT → out[y * WIDTH + x]? = filtered img x y :=
    fun x y hx hy => by rw [← Vector.getElem?_toList, hout, hfile x y hx hy]
  refine ⟨out, golden, hfilter, hgray, ?_⟩
  rw [CompareImage.calculate_psnr_eq_iff, CompareImage.mse_eq_zero_iff hnp hpassed]
  constructor
  · intro h x y hx hy hborder p v hp hv
    have hlt := row_major_lt hx hy
    have hdvd := h _ hlt
    have hg := hgolden x y hx hy
    have ho := hpixel x y hx hy
    rw [Vector.getElem?_eq_getElem hlt, hv] at hg
    rw [Vector.getElem?_eq_getElem hlt, filtered, if_neg hborder, hp] at ho
    rwa [Option.some.inj hg, Option.some.inj ho] at hdvd
  · intro h i hi
    obtain ⟨x, y, hx, hy, rfl⟩ := exists_row_major hi
    have hg := hgolden x y hx hy
    have ho := hpixel x y hx hy
    rw [Vector.getElem?_eq_getElem hi] at hg ho
    by_cases hinside : Inside WIDTH HEIGHT x y
    · -- inside the two pixels are the same
      rw [extended_median_inside img hinside, ← ho] at hg
      rw [Option.some.inj hg, CompareImage.difference, sub_self]
      exact dvd_zero 16
    · rw [filtered, if_neg hinside] at ho
      exact h x y hx hy hinside _ _ ho.symm hg.symm

theorem perfect_iff_corners : ∃ out golden,
    filterImage BitmapToHex.grayscale HexToBmp.ascii .crlf .lf powerUp corners none none =
        .image out ∧
      applyMedianFilter edgeReplicating (some corners) 3 = some golden ∧
        (CompareImage.calculatePsnr CompareImage.exactNumpy golden out = .int 100 ↔
          BorderScored corners) :=
  perfect_iff (fun _ => rfl) HexToBmp.ascii_documented edge_replicating_documented
    CompareImage.exact_numpy_documented .crlf .lf (Or.inl rfl) ⟨by decide, by decide⟩ powerUp
    corners

end FilterChain

end CE213Lab.ImageProcessing
