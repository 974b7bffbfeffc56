import CE213Lab.Foundation.SimulatorFile
import CE213Lab.ImageProcessing.TbImageToGrayscale

/-!
# Converting an image through files

`img_to_hex.py`: the pixels of an RGB image, row by row, are written to a text file as three
hexadecimal numbers a line. The test bench of the grayscale converter scans that file, and
`hex_to_bmp.py` reads the file which the test bench writes. The main theorem is `image_converted`.
-/

namespace CE213Lab.ImageProcessing

open Foundation

/-- The pixels of an RGB image, row after row. -/
abbrev ColourImage (WIDTH HEIGHT : ℕ) := Vector Pixel (WIDTH * HEIGHT)

namespace ImgToHex

variable {WIDTH HEIGHT : ℕ}

/-- What the script calls of PIL, on RGB images: `resize` with the LANCZOS filter, which may raise
an exception, and `convert('RGB')`. -/
structure Library where
  resize : ∀ {WIDTH HEIGHT : ℕ} (width height : ℤ), ColourImage WIDTH HEIGHT →
    Option (ColourImage width.toNat height.toNat)
  convertRGB : ∀ {WIDTH HEIGHT : ℕ}, ColourImage WIDTH HEIGHT → ColourImage WIDTH HEIGHT

/-- An RGB image is left as it is. -/
def Library.Documented (lib : Library) : Prop :=
  ∀ {WIDTH HEIGHT : ℕ} (img : ColourImage WIDTH HEIGHT), lib.convertRGB img = img

/-- The three numbers of a line. -/
def row (p : Pixel) : Text × Text × Text :=
  (BitmapToHex.hexDigits p.r, BitmapToHex.hexDigits p.g, BitmapToHex.hexDigits p.b)

/-- The file after the loop over the pixels. -/
def writePixels (lineEnd : TextFile.LineEnd) (pixels : List Pixel) : Text :=
  TextFile.written lineEnd (pixels.flatMap fun p => SimulatorFile.rowText (row p) ++ ['\n'])

/-- An option counts as given unless it is 0. -/
def given : Option ℤ → Bool
  | none => false
  | some n => n ≠ 0

/-- `input` is the image at the input path, if there is one. The result is the output file; without
an input, or after an exception, the script exits with status 1 and writes none. -/
def convertImageToHex (lib : Library) (lineEnd : TextFile.LineEnd)
    (input : Option (ColourImage WIDTH HEIGHT)) (resizeW resizeH : Option ℤ) : Option Text := do
  let img ← input
  let img := lib.convertRGB img
  match resizeW, resizeH with
  | some width, some height =>
      if width ≠ 0 ∧ height ≠ 0 then
        let img ← lib.resize width height img
        return writePixels lineEnd img.toList
      else return writePixels lineEnd img.toList
  | _, _ => return writePixels lineEnd img.toList

/-- The script: both sizes or none. -/
def main (lib : Library) (lineEnd : TextFile.LineEnd)
    (input : Option (ColourImage WIDTH HEIGHT)) (width height : Option ℤ) : Option Text :=
  if (given width && !given height) || (!given width && given height) then none
  else convertImageToHex lib lineEnd input width height

/-! ## The test bench on a file -/

/-- The pixel of a scan that returns 3, the lowest byte of each number. A number with unknown digits
has none. -/
def pixelOf (numbers : Text × Text × Text) : Option Pixel := do
  let r ← SimulatorFile.value 0 numbers.1
  let g ← SimulatorFile.value 0 numbers.2.1
  let b ← SimulatorFile.value 0 numbers.2.2
  return ⟨BitVec.ofNat 8 r, BitVec.ofNat 8 g, BitVec.ofNat 8 b⟩

/-- What the scans of the test bench give, if its loop ends and all digits are known. -/
def scanPixels (file : Text) : Option (List (Option Pixel)) := do
  let results ← SimulatorFile.scanAll file
  results.mapM fun
    | none => some none
    | some numbers => (pixelOf numbers).map some

/-- The test bench on the file at its input path. -/
def simulate (lineEnd : TextFile.LineEnd) (order : ℕ → TbImageToGrayscale.Order) (file : Text) :
    Option Text := do
  let scans ← scanPixels file
  return TbImageToGrayscale.outputFile lineEnd (TbImageToGrayscale.inOrder scans order)

/-- The image at the input path of `img_to_hex.py` on its way to the result of `hex_to_bmp.py`. -/
def convertImage (lib : Library) (rt : Runtime) (lineEnd lineEnd' : TextFile.LineEnd)
    (order : ℕ → TbImageToGrayscale.Order) (img : ColourImage WIDTH HEIGHT)
    (width height : Option ℤ) : HexToBmp.Outcome WIDTH HEIGHT :=
  let file := do
    let file ← main lib lineEnd (some img) width height
    simulate lineEnd' order file
  HexToBmp.loadTxtToImage rt file WIDTH HEIGHT true

/-! ## Rows of digits -/

variable {lib : Library} {rt : Runtime} {lineEnd lineEnd' : TextFile.LineEnd}

theorem digit_row (p : Pixel) : SimulatorFile.DigitRow (row p) :=
  ⟨BitmapToHex.digits_hex_digits _, BitmapToHex.digits_hex_digits _,
    BitmapToHex.digits_hex_digits _⟩

theorem pixel_of_row (p : Pixel) : pixelOf (row p) = some p := by
  simp [pixelOf, row, BitmapToHex.scanned_hex_digits]

theorem mapM_rows (pixels : List Pixel) :
    ((pixels.map row).map some).mapM (fun
      | none => some none
      | some numbers => (pixelOf numbers).map some) = some (pixels.map some) := by
  induction pixels with
  | nil => rfl
  | cons p pixels ih =>
      rw [List.map_cons, List.map_cons, List.mapM_cons, ih]
      simp only [pixel_of_row, Option.map_some]
      rfl

/-- The scans find the pixels that were written. Without a pixel the one scan fails. -/
theorem scan_pixels (pixels : List Pixel) : scanPixels (writePixels lineEnd pixels) =
    some (if pixels = [] then [none] else pixels.map some) := by
  by_cases hempty : pixels = []
  · subst hempty
    rfl
  · have htext : (pixels.flatMap fun p => SimulatorFile.rowText (row p) ++ ['\n']) =
        TextFile.unlines ((pixels.map row).map SimulatorFile.rowText) := by
      rw [TextFile.unlines, List.flatMap_map, List.flatMap_map]
    have hrows : ∀ numbers ∈ pixels.map row, SimulatorFile.DigitRow numbers := by
      intro numbers hnumbers
      obtain ⟨p, -, rfl⟩ := List.mem_map.mp hnumbers
      exact digit_row p
    rw [scanPixels, writePixels, htext, SimulatorFile.scan_rows hrows (by simpa using hempty)]
    exact (mapM_rows pixels).trans (by rw [if_neg hempty])

/-- What is driven when the file of the pixels is scanned. -/
theorem presented_scanned (pixels : List Pixel) :
    TbImageToGrayscale.presented (if pixels = [] then [none] else pixels.map some) =
      pixels.map fun p => ⟨p.r, p.g, p.b, true⟩ := by
  by_cases hempty : pixels = []
  · rw [if_pos hempty, hempty]
    rfl
  · rw [if_neg hempty, TbImageToGrayscale.presented_pixels]

/-- The byte the converter makes of a pixel. -/
def gray (p : Pixel) : Byte :=
  ImageToGrayscale.grayFinal ⟨true, p.r, p.g, p.b, true, 80⟩

/-- A simulator that keeps its order writes the gray value of every pixel. -/
theorem simulate_pixels (benchFirst : Bool) (pixels : List Pixel) :
    simulate lineEnd' (fun _ => .all benchFirst) (writePixels lineEnd pixels) =
      some (BitmapToHex.writePixels lineEnd' (pixels.map gray)) := by
  have hlines : ∀ pixels : List Pixel, (pixels.map fun p =>
      (⟨p.r, p.g, p.b, true⟩ : TbImageToGrayscale.Drive)).flatMap TbImageToGrayscale.lineOf =
        pixels.map gray := by
    intro pixels
    rw [List.flatMap_map, List.map_eq_flatMap]
    rfl
  rw [simulate, scan_pixels]
  simp only [Option.bind_eq_bind, Option.bind_some, TbImageToGrayscale.outputFile]
  rw [TbImageToGrayscale.Run.one_order _ (fun _ => rfl) (by omega), presented_scanned, hlines]
  rfl

theorem main_unresized (hlib : lib.Documented) (lineEnd : TextFile.LineEnd)
    {width height : Option ℤ} (hwidth : given width = false) (hheight : given height = false)
    (img : ColourImage WIDTH HEIGHT) :
    main lib lineEnd (some img) width height = some (writePixels lineEnd img.toList) := by
  rw [main, hwidth, hheight, if_neg (by decide), convertImageToHex]
  simp only [Option.bind_eq_bind, Option.bind_some, hlib img]
  cases width with
  | none => rfl
  | some w =>
      cases height with
      | none => rfl
      | some h =>
          have hw : w = 0 := by simpa [given] using hwidth
          exact if_neg fun hboth => hboth.1 hw

/-- Without resizing, and in a simulator that keeps its order, the files carry the image through the
converter: every pixel comes back as its own weighted sum, brighter by 80 and saturated. -/
theorem image_converted (hlib : lib.Documented) (hrt : rt.Documented)
    (lineEnd lineEnd' : TextFile.LineEnd) (benchFirst : Bool) {width height : Option ℤ}
    (hwidth : given width = false) (hheight : given height = false)
    (img : ColourImage WIDTH HEIGHT) :
    ∃ out : Image WIDTH HEIGHT,
      convertImage lib rt lineEnd lineEnd' (fun _ => .all benchFirst) img width height =
          .image out ∧
        ∀ (i : ℕ) (hi : i < WIDTH * HEIGHT), out[i].toNat = min 255 ((77 * img[i].r.toNat +
          150 * img[i].g.toNat + 29 * img[i].b.toNat + 128) / 1024 + 80) := by
  have hwritten := main_unresized hlib lineEnd hwidth hheight img
  obtain ⟨out, hload, hout⟩ : ∃ out : Image WIDTH HEIGHT, HexToBmp.loadTxtToImage rt
      (some (BitmapToHex.writePixels lineEnd' (img.toList.map gray))) WIDTH HEIGHT true =
        .image out ∧ out.toList = img.toList.map gray :=
    BitmapToHex.load_written hrt (by simp)
  refine ⟨out, ?_, fun i hi => ?_⟩
  · rw [convertImage, hwritten]
    simp only [Option.bind_eq_bind, Option.bind_some, simulate_pixels]
    exact hload
  · have hpixel : out[i] = gray img[i] := by
      have hget : out.toList[i]? = (img.toList.map gray)[i]? := by rw [hout]
      rw [List.getElem?_map, Vector.getElem?_toList, Vector.getElem?_toList,
        Vector.getElem?_eq_getElem hi, Vector.getElem?_eq_getElem hi] at hget
      exact Option.some.inj hget
    rw [hpixel, gray, ImageToGrayscale.toNat_grayFinal]
    rfl

/-- PIL on an RGB image that is not resized. -/
def coloured : Library where
  resize _ _ _ := none
  convertRGB img := img

/-- A black pixel and a white one. -/
def blackWhite : ColourImage 2 1 :=
  #v[⟨0, 0, 0⟩, ⟨255, 255, 255⟩]

theorem image_converted_black_white : ∃ out : Image 2 1,
    convertImage coloured HexToBmp.ascii .crlf .lf (fun _ => .all true) blackWhite none none =
        .image out ∧
      ∀ (i : ℕ) (hi : i < 2 * 1), out[i].toNat = min 255 ((77 * blackWhite[i].r.toNat +
        150 * blackWhite[i].g.toNat + 29 * blackWhite[i].b.toNat + 128) / 1024 + 80) :=
  image_converted (fun _ => rfl) HexToBmp.ascii_documented .crlf .lf true rfl rfl blackWhite

end ImgToHex

end CE213Lab.ImageProcessing
