import CE213Lab.Foundation.SimulatorFile
import CE213Lab.ImageProcessing.HexToBmp

/-!
# From image to text

`bitmap_to_hex.py`: the pixels of a grayscale image, row by row, are written to a text file as two
hexadecimal digits a line. Without resizing, `hex_to_bmp.py` reads the same image from that file.
The main theorem is `image_read_back`.
-/

namespace CE213Lab.ImageProcessing

open Foundation

namespace BitmapToHex

variable {WIDTH HEIGHT : ℕ}

/-- What the script calls of PIL, on grayscale images: `resize` with the LANCZOS filter, which may
raise an exception, and `convert('L')`. -/
structure Library where
  resize : ∀ {WIDTH HEIGHT : ℕ} (width height : ℤ), Image WIDTH HEIGHT →
    Option (Image width.toNat height.toNat)
  convertL : ∀ {WIDTH HEIGHT : ℕ}, Image WIDTH HEIGHT → Image WIDTH HEIGHT

/-- A grayscale image is left as it is. -/
def Library.Documented (lib : Library) : Prop :=
  ∀ {WIDTH HEIGHT : ℕ} (img : Image WIDTH HEIGHT), lib.convertL img = img

/-- The two digits of a pixel. -/
def hexDigits (pixel : Byte) : Text :=
  TextFile.formatHex 2 pixel.toNat

/-- The file after the loop over the pixels. -/
def writePixels (lineEnd : TextFile.LineEnd) (pixels : List Byte) : Text :=
  TextFile.written lineEnd (pixels.flatMap fun pixel => hexDigits pixel ++ ['\n'])

/-- `input` is the image at the input path, if there is one. The result is the output file; without
an input, or after an exception, the script exits with status 1 and writes none. -/
def convertToTxt (lib : Library) (lineEnd : TextFile.LineEnd)
    (input : Option (Image WIDTH HEIGHT)) (width height : Option ℤ) : Option Text := do
  let img ← input
  match width, height with
  | some width, some height =>
      let img ← lib.resize width height img
      return writePixels lineEnd (lib.convertL img).toList
  | _, _ => return writePixels lineEnd (lib.convertL img).toList

/-! ## One line for each pixel -/

variable {lib : Library} {rt : Runtime} {lineEnd : TextFile.LineEnd}

theorem exists_hex_digits (pixel : Byte) : ∃ a b x y, hexDigits pixel = [a, b] ∧
    TextFile.digitValue 16 a = some x ∧ TextFile.digitValue 16 b = some y ∧
      16 * x + y = pixel.toNat := by
  have hlt : pixel.toNat < 256 := pixel.isLt
  exact ⟨_, _, pixel.toNat / 16, pixel.toNat % 16, TextFile.format_two_digits hlt,
    TextFile.digitValue_digitChar (by omega), TextFile.digitValue_digitChar (by omega), by omega⟩

/-- No character of a line is white space. -/
theorem isSpace_hex_digits {pixel : Byte} {c : Char} (hc : c ∈ hexDigits pixel) :
    TextFile.isSpace c = false := by
  obtain ⟨a, b, x, y, hdigits, ha, hb, -⟩ := exists_hex_digits pixel
  rw [hdigits] at hc
  rcases List.mem_pair.mp hc with rfl | rfl
  · exact TextFile.isSpace_digit ha
  · exact TextFile.isSpace_digit hb

/-- `int(line, 16)` of the digits of a pixel. -/
theorem value_hex_digits (pixel : Byte) :
    HexToBmp.value rt (hexDigits pixel) = some (pixel.toNat : ℤ) := by
  obtain ⟨a, b, x, y, hdigits, ha, hb, hvalue⟩ := exists_hex_digits pixel
  rw [HexToBmp.value, hdigits, TextFile.parse_two_digits ha hb, hvalue]

theorem digits_hex_digits (pixel : Byte) : SimulatorFile.Digits (hexDigits pixel) := by
  obtain ⟨a, b, x, y, hdigits, ha, hb, -⟩ := exists_hex_digits pixel
  rw [hdigits]
  refine ⟨List.cons_ne_nil a [b], fun c hc => ?_⟩
  rcases List.mem_pair.mp hc with rfl | rfl
  · rw [ha]
    rfl
  · rw [hb]
    rfl

/-- What `%h` and `$readmemh` make of the digits of a pixel. -/
theorem scanned_hex_digits (pixel : Byte) :
    SimulatorFile.value 0 (hexDigits pixel) = some pixel.toNat := by
  have hlt : pixel.toNat < 256 := pixel.isLt
  rw [hexDigits, TextFile.format_two_digits hlt,
    SimulatorFile.value_two_digits (by omega) (by omega), Nat.div_add_mod]

/-- The lines of the file are the digits of the pixels. -/
theorem contents_write_pixels (pixels : List Byte) :
    HexToBmp.contents (writePixels lineEnd pixels) = pixels.map hexDigits := by
  have htext : (pixels.flatMap fun pixel => hexDigits pixel ++ ['\n']) =
      TextFile.unlines (pixels.map hexDigits) := by
    rw [TextFile.unlines, List.flatMap_map]
  have hspace : ∀ line ∈ pixels.map hexDigits, ∀ c ∈ line, TextFile.isSpace c = false := by
    intro line hline c hc
    obtain ⟨pixel, -, rfl⟩ := List.mem_map.mp hline
    exact isSpace_hex_digits hc
  have hblank : ∀ line ∈ pixels.map hexDigits, line ≠ [] := by
    intro line hline
    obtain ⟨pixel, -, rfl⟩ := List.mem_map.mp hline
    obtain ⟨a, b, x, y, hdigits, -⟩ := exists_hex_digits pixel
    rw [hdigits]
    exact List.cons_ne_nil a [b]
  rw [HexToBmp.contents, writePixels, htext, TextFile.read_lines_back hspace, List.filter_eq_self]
  exact fun line hline => decide_eq_true (hblank line hline)

/-- The writer's file is one the reader takes for an image of the same size. -/
theorem pixel_file_written (img : Image WIDTH HEIGHT) :
    HexToBmp.PixelFile rt WIDTH HEIGHT (writePixels lineEnd img.toList) where
  count := by rw [contents_write_pixels, List.length_map, Vector.length_toList]
  lines := by
    rw [contents_write_pixels]
    intro line hline
    obtain ⟨pixel, -, rfl⟩ := List.mem_map.mp hline
    obtain ⟨a, b, x, y, hdigits, ha, hb, -⟩ := exists_hex_digits pixel
    exact Or.inl ⟨a, b, x, y, hdigits, ha, hb⟩

theorem bytes_hex_digits (pixels : List Byte) :
    HexToBmp.bytes rt (pixels.map hexDigits) = pixels := by
  induction pixels with
  | nil => rfl
  | cons pixel pixels ih =>
      have hbyte : BitVec.ofInt 8 (pixel.toNat : ℤ) = pixel := by
        rw [BitVec.ofInt_natCast, BitVec.ofNat_toNat, BitVec.setWidth_eq]
      rw [List.map_cons, HexToBmp.bytes, List.filterMap_cons_some (value_hex_digits pixel),
        List.map_cons, hbyte]
      exact congrArg (pixel :: ·) ih

/-- Written pixels are read back into an image of as many pixels. -/
theorem load_written (hrt : rt.Documented) {pixels : List Byte}
    (hlength : pixels.length = WIDTH * HEIGHT) : ∃ out : Image WIDTH HEIGHT,
      HexToBmp.loadTxtToImage rt (some (writePixels lineEnd pixels)) WIDTH HEIGHT true =
          .image out ∧
        out.toList = pixels := by
  obtain ⟨img, rfl⟩ : ∃ img : Image WIDTH HEIGHT, img.toList = pixels :=
    ⟨⟨pixels.toArray, by simpa using hlength⟩, rfl⟩
  have hfile : HexToBmp.PixelFile rt WIDTH HEIGHT (writePixels lineEnd img.toList) :=
    pixel_file_written img
  obtain ⟨out, hload, hout⟩ := HexToBmp.load_lines WIDTH HEIGHT hrt hfile.lines
  refine ⟨out, hload, hout.trans ?_⟩
  rw [contents_write_pixels, bytes_hex_digits, HexToBmp.fit_of_le hlength.le, hlength, Nat.sub_self,
    List.replicate_zero, List.append_nil]

/-- Without resizing the pixels are written. -/
theorem convert_eq (hlib : lib.Documented) {width height : Option ℤ}
    (hsize : width = none ∨ height = none) {img : Image WIDTH HEIGHT} :
    convertToTxt lib lineEnd (some img) width height = some (writePixels lineEnd img.toList) := by
  rcases hsize with rfl | rfl
  · simp [convertToTxt, hlib img]
  · cases width <;> simp [convertToTxt, hlib img]

/-- The image that is written without resizing is the image that is read. -/
theorem image_read_back (hlib : lib.Documented) (hrt : rt.Documented) (lineEnd : TextFile.LineEnd)
    {width height : Option ℤ} (hsize : width = none ∨ height = none) (img : Image WIDTH HEIGHT) :
    ∃ file, convertToTxt lib lineEnd (some img) width height = some file ∧
      HexToBmp.loadTxtToImage rt (some file) WIDTH HEIGHT true = .image img := by
  obtain ⟨out, hload, hout⟩ : ∃ out : Image WIDTH HEIGHT,
      HexToBmp.loadTxtToImage rt (some (writePixels lineEnd img.toList)) WIDTH HEIGHT true =
          .image out ∧
        out.toList = img.toList := load_written hrt Vector.length_toList
  rw [Vector.toList_inj.mp hout] at hload
  exact ⟨writePixels lineEnd img.toList, convert_eq hlib hsize, hload⟩

/-- PIL on a grayscale image that is not resized. -/
def grayscale : Library where
  resize _ _ _ := none
  convertL img := img

def row : Image 2 1 :=
  #v[15, 165]

/-- A row of two pixels through a file with carriage returns. -/
theorem image_read_back_row : ∃ file,
    convertToTxt grayscale .crlf (some row) none none = some file ∧
      HexToBmp.loadTxtToImage HexToBmp.ascii (some file) 2 1 true = .image row :=
  image_read_back (fun _ => rfl) HexToBmp.ascii_documented .crlf (Or.inl rfl) row

end BitmapToHex

end CE213Lab.ImageProcessing
