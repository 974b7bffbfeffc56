import CE213Lab.Foundation.TextFile
import CE213Lab.ImageProcessing.TbMedianFilter
import Mathlib.Data.BitVec

/-!
# From text to image

`hex_to_bmp.py`: a text file of one pixel a line is read into an image. Blank lines and lines that
are no numbers are skipped, and the pixels that are then missing at the end are black. So a line
that does not parse moves up all pixels behind it. The main theorem is `skipped_line`.
-/

namespace CE213Lab.ImageProcessing

open Foundation

/-- What the script uses of Python and numpy: the values of the decimal digits outside ASCII, and
the conversion of an integer to a byte, which may raise an exception. -/
structure Runtime where
  decimal : Char → Option (Fin 10)
  uint8 : ℤ → Option Byte

/-- An integer that is a byte is kept. -/
def Runtime.Documented (rt : Runtime) : Prop :=
  ∀ b : Byte, rt.uint8 b.toNat = some b

namespace HexToBmp

variable {WIDTH HEIGHT : ℕ}

/-- How `load_txt_to_image` ends: with an image, with None for a file that is not there, or with an
exception of numpy. -/
inductive Outcome (WIDTH HEIGHT : ℕ) where
  | image (img : Image WIDTH HEIGHT)
  | notFound
  | raised

/-- The body of the loop over the lines: the value appended, if there is one. -/
def convert (rt : Runtime) (isHex : Bool) (line : Text) : Option ℤ :=
  let line := TextFile.strip line
  if line = [] then none
  else TextFile.parseInt rt.decimal (if isHex then 16 else 10) line

/-- Cropping or padding to the declared size. -/
def fit {α : Type*} [Zero α] (expectedSize : ℕ) (pixels : List α) : List α :=
  if pixels.length ≠ expectedSize then
    if pixels.length > expectedSize then pixels.take expectedSize
    else pixels ++ List.replicate (expectedSize - pixels.length) 0
  else pixels

/-- `file` is the content of the file at the path, if there is one. -/
def loadTxtToImage (rt : Runtime) (file : Option Text) (width height : ℕ) (isHex : Bool) :
    Outcome width height :=
  match file with
  | none => .notFound
  | some file =>
      let lines := TextFile.readlines (TextFile.read file)
      let pixels := fit (width * height) (lines.filterMap (convert rt isHex))
      match pixels.mapM rt.uint8 with
      | none => .raised
      | some arr =>
          if h : arr.length = width * height then .image ⟨arr.toArray, by simpa using h⟩
          else .raised

/-! ## Cropping and padding -/

theorem fit_eq {α : Type*} [Zero α] {n : ℕ} {l : List α} :
    fit n l = (l ++ List.replicate n 0).take n := by
  unfold fit
  split_ifs with hne hgt
  · rw [List.take_append_of_le_length (by omega)]
  · rw [List.take_append, List.take_of_length_le (by omega), List.take_replicate,
      Nat.min_eq_left (by omega)]
  · rw [List.take_append_of_le_length (by omega), List.take_of_length_le (by omega)]

theorem fit_of_le {α : Type*} [Zero α] {n : ℕ} {l : List α} (hle : l.length ≤ n) :
    fit n l = l ++ List.replicate (n - l.length) 0 := by
  rw [fit_eq, List.take_append, List.take_of_length_le hle, List.take_replicate,
    Nat.min_eq_left (by omega)]

@[simp] theorem length_fit {α : Type*} [Zero α] {n : ℕ} {l : List α} : (fit n l).length = n := by
  simp [fit_eq]

theorem fit_map {α β : Type*} [Zero α] [Zero β] {f : α → β} (hf : f 0 = 0) {n : ℕ} {l : List α} :
    fit n (l.map f) = (fit n l).map f := by
  simp [fit_eq, List.map_take, hf]

/-- Two lists of one length that differ in entry `j` only are fitted to two such lists. -/
theorem fit_replace {α : Type*} [Zero α] {n : ℕ} {before after : List α} {v v' : α} {p : ℕ}
    (hp : p ≠ before.length) :
    (fit n (before ++ v :: after))[p]? = (fit n (before ++ v' :: after))[p]? := by
  have hentry : ∀ w : α, (before ++ w :: after ++ List.replicate n 0)[p]? =
      if p < before.length then before[p]?
      else (after ++ List.replicate n 0)[p - before.length - 1]? := by
    intro w
    rw [List.append_assoc]
    split
    · next hlt => rw [List.getElem?_append_left hlt]
    · next hge =>
        rw [List.getElem?_append_right (by omega), List.cons_append,
          List.getElem?_cons, if_neg (by omega)]
  rw [fit_eq, fit_eq, List.getElem?_take, List.getElem?_take, hentry, hentry]

/-- An entry taken out of a list that fits moves up what follows it, and a zero fills the end. -/
theorem fit_omit {α : Type*} [Zero α] {n : ℕ} {before after : List α} {v : α}
    (hle : (before ++ v :: after).length ≤ n) :
    fit n (before ++ after) = (fit n (before ++ v :: after)).eraseIdx before.length ++ [0] := by
  have hcount : n - (before ++ after).length = n - (before ++ v :: after).length + 1 := by
    simp only [List.length_append, List.length_cons] at hle ⊢
    omega
  have herase : ∀ m, (before ++ v :: after ++ List.replicate m 0).eraseIdx before.length =
      before ++ after ++ List.replicate m 0 := by
    intro m
    rw [List.append_assoc, List.cons_append, List.eraseIdx_append_of_length_le le_rfl,
      Nat.sub_self, List.eraseIdx_cons_zero, List.append_assoc]
  rw [fit_of_le hle, fit_of_le (by simp at hle ⊢; omega), hcount, herase, List.replicate_succ',
    ← List.append_assoc]

/-! ## The image of a file of bytes -/

theorem mapM_uint8 {rt : Runtime} (hrt : rt.Documented) (bytes : List Byte) :
    (bytes.map fun b => (b.toNat : ℤ)).mapM rt.uint8 = some bytes := by
  induction bytes with
  | nil => rfl
  | cons b bytes ih => simp [List.mapM_cons, hrt b, ih]

/-- If the values read are bytes, the result is the image of these bytes, cropped or padded. -/
theorem load_of_bytes {rt : Runtime} (hrt : rt.Documented) {file : Text} {isHex : Bool}
    {bytes : List Byte}
    (hvalues : (TextFile.readlines (TextFile.read file)).filterMap (convert rt isHex) =
      bytes.map fun b => (b.toNat : ℤ)) :
    ∃ img : Image WIDTH HEIGHT,
      loadTxtToImage rt (some file) WIDTH HEIGHT isHex = .image img ∧
        img.toList = fit (WIDTH * HEIGHT) bytes := by
  have hlength := length_fit (n := WIDTH * HEIGHT) (l := bytes)
  refine ⟨⟨(fit (WIDTH * HEIGHT) bytes).toArray, by simp⟩, ?_, rfl⟩
  simp only [loadTxtToImage, hvalues]
  rw [fit_map rfl, mapM_uint8 hrt]
  simp only [hlength, dif_pos]

/-! ## Lines -/

/-- The lines of a file that are not blank. -/
def contents (file : Text) : List Text :=
  ((TextFile.readlines (TextFile.read file)).map TextFile.strip).filter (· ≠ [])

/-- Two hexadecimal digits. -/
def TwoDigits (line : Text) : Prop :=
  ∃ a b x y, line = [a, b] ∧ TextFile.digitValue 16 a = some x ∧ TextFile.digitValue 16 b = some y

/-- `int(line, 16)`. -/
def value (rt : Runtime) (line : Text) : Option ℤ :=
  TextFile.parseInt rt.decimal 16 line

/-- A pixel of the file: two digits, or no number at all. -/
def PixelLine (rt : Runtime) (line : Text) : Prop :=
  TwoDigits line ∨ value rt line = none

variable {rt : Runtime} {file : Text} {lines lines' : List Text} {k : ℕ}

theorem filterMap_convert : (TextFile.readlines (TextFile.read file)).filterMap (convert rt true) =
    (contents file).filterMap (value rt) := by
  rw [contents, List.filterMap_filter, List.filterMap_map]
  refine List.filterMap_congr fun line _ => ?_
  by_cases hblank : TextFile.strip line = [] <;> simp [convert, value, hblank]

/-- The bytes of the lines that parse. -/
def bytes (rt : Runtime) (lines : List Text) : List Byte :=
  (lines.filterMap (value rt)).map (BitVec.ofInt 8)

/-- What parses in a file of pixels is a byte. -/
theorem values_eq_bytes (hlines : ∀ line ∈ lines, PixelLine rt line) :
    lines.filterMap (value rt) = (bytes rt lines).map fun b => (b.toNat : ℤ) := by
  have hbyte : ∀ n ∈ lines.filterMap (value rt), ((BitVec.ofInt 8 n).toNat : ℤ) = n := by
    intro n hn
    obtain ⟨line, hline, hvalue⟩ := List.mem_filterMap.mp hn
    rcases hlines line hline with ⟨a, b, x, y, rfl, ha, hb⟩ | hnone
    · rw [value, TextFile.parse_two_digits ha hb] at hvalue
      have hx := TextFile.digit_lt ha
      have hy := TextFile.digit_lt hb
      rw [← Option.some.inj hvalue, BitVec.ofInt_natCast, BitVec.toNat_ofNat,
        Nat.mod_eq_of_lt (by omega)]
    · simp [hnone] at hvalue
  rw [bytes, List.map_map]
  exact ((List.map_congr_left hbyte).trans (List.map_id _)).symm

/-- A file of pixels is read into the bytes of the lines that parse. -/
theorem load_lines (WIDTH HEIGHT : ℕ) (hrt : rt.Documented)
    (hlines : ∀ line ∈ contents file, PixelLine rt line) :
    ∃ img : Image WIDTH HEIGHT,
      loadTxtToImage rt (some file) WIDTH HEIGHT true = .image img ∧
        img.toList = fit (WIDTH * HEIGHT) (bytes rt (contents file)) :=
  load_of_bytes hrt (filterMap_convert.trans (values_eq_bytes hlines))

/-! ## One line changed -/

/-- The number of lines before line `k` that parse, which is the number of its pixel. -/
def position (rt : Runtime) (lines : List Text) (k : ℕ) : ℕ :=
  ((lines.take k).filterMap (value rt)).length

/-- The value of line `k`, if there is one and it parses. -/
def valueAt (rt : Runtime) (lines : List Text) (k : ℕ) : Option ℤ :=
  lines[k]?.bind (value rt)

theorem position_of_parses (hlt : k < lines.length)
    (hparses : ∀ line ∈ lines.take k, (value rt line).isSome) : position rt lines k = k := by
  have hlength : ∀ l : List Text, (∀ line ∈ l, (value rt line).isSome) →
      (l.filterMap (value rt)).length = l.length := by
    intro l hl
    induction l with
    | nil => rfl
    | cons line l ih =>
        obtain ⟨n, hn⟩ := Option.isSome_iff_exists.mp (hl line List.mem_cons_self)
        rw [List.filterMap_cons_some hn, List.length_cons, List.length_cons,
          ih fun line' h => hl line' (List.mem_cons_of_mem line h)]
  rw [position, hlength _ hparses, List.length_take, Nat.min_eq_left hlt.le]

/-- The bytes before line `k`, its own and those behind it. -/
theorem bytes_split (k : ℕ) : bytes rt lines = bytes rt (lines.take k) ++
    (((valueAt rt lines k).map (BitVec.ofInt 8)).toList ++ bytes rt (lines.drop (k + 1))) := by
  have hdrop : (lines.drop k).filterMap (value rt) =
      (valueAt rt lines k).toList ++ (lines.drop (k + 1)).filterMap (value rt) := by
    rcases Nat.lt_or_ge k lines.length with hlt | hge
    · rw [List.drop_eq_getElem_cons hlt, valueAt, List.getElem?_eq_getElem hlt,
        List.filterMap_cons, Option.bind_some]
      cases value rt lines[k] <;> rfl
    · rw [List.drop_eq_nil_of_le hge, List.drop_eq_nil_of_le (by omega), valueAt,
        List.getElem?_eq_none hge]
      rfl
  have hall : lines.filterMap (value rt) = (lines.take k).filterMap (value rt) ++
      ((valueAt rt lines k).toList ++ (lines.drop (k + 1)).filterMap (value rt)) := by
    rw [← hdrop, ← List.filterMap_append, List.take_append_drop]
  rw [bytes, hall, List.map_append, List.map_append]
  cases valueAt rt lines k <;> rfl

theorem bytes_at {v : ℤ} (hvalue : valueAt rt lines k = some v) : bytes rt lines =
    bytes rt (lines.take k) ++ BitVec.ofInt 8 v :: bytes rt (lines.drop (k + 1)) := by
  rw [bytes_split k, hvalue]
  rfl

theorem bytes_skip (hskip : valueAt rt lines k = none) :
    bytes rt lines = bytes rt (lines.take k) ++ bytes rt (lines.drop (k + 1)) := by
  rw [bytes_split k, hskip]
  rfl

theorem length_bytes_take : (bytes rt (lines.take k)).length = position rt lines k := by
  rw [bytes, List.length_map, position]

theorem length_bytes_le : (bytes rt lines).length ≤ lines.length := by
  rw [bytes, List.length_map]
  exact List.length_filterMap_le ..

theorem same_before (hsame : ∀ i, i ≠ k → lines[i]? = lines'[i]?) :
    lines.take k = lines'.take k := by
  refine List.ext_getElem? fun i => ?_
  rw [List.getElem?_take, List.getElem?_take]
  split
  · next hlt => exact hsame i (by omega)
  · rfl

theorem same_behind (hsame : ∀ i, i ≠ k → lines[i]? = lines'[i]?) :
    lines.drop (k + 1) = lines'.drop (k + 1) := by
  refine List.ext_getElem? fun i => ?_
  rw [List.getElem?_drop, List.getElem?_drop, hsame _ (by omega)]

/-- Without line `k` there is one pixel less, and a black one at the end. -/
theorem fit_bytes_skipped {n : ℕ} (hsame : ∀ i, i ≠ k → lines[i]? = lines'[i]?)
    (hlength : lines.length ≤ n) (hvalue : (valueAt rt lines k).isSome)
    (hskip : valueAt rt lines' k = none) : fit n (bytes rt lines') =
      (fit n (bytes rt lines)).eraseIdx (position rt lines k) ++ [0] := by
  obtain ⟨v, hv⟩ := Option.isSome_iff_exists.mp hvalue
  have hle : (bytes rt lines).length ≤ n := length_bytes_le.trans hlength
  rw [bytes_at hv] at hle ⊢
  rw [bytes_skip hskip, ← same_before hsame, ← same_behind hsame, fit_omit hle, length_bytes_take]

/-- Two values for line `k` make a difference in its pixel only. -/
theorem fit_bytes_replaced {n p : ℕ} (hsame : ∀ i, i ≠ k → lines[i]? = lines'[i]?)
    (hvalue : (valueAt rt lines k).isSome) (hvalue' : (valueAt rt lines' k).isSome)
    (hp : p ≠ position rt lines k) :
    (fit n (bytes rt lines))[p]? = (fit n (bytes rt lines'))[p]? := by
  obtain ⟨v, hv⟩ := Option.isSome_iff_exists.mp hvalue
  obtain ⟨v', hv'⟩ := Option.isSome_iff_exists.mp hvalue'
  rw [bytes_at hv, bytes_at hv', ← same_before hsame, ← same_behind hsame]
  exact fit_replace (by rwa [length_bytes_take])

/-- A file of `WIDTH * HEIGHT` pixels. -/
structure PixelFile (rt : Runtime) (WIDTH HEIGHT : ℕ) (file : Text) : Prop where
  count : (contents file).length = WIDTH * HEIGHT
  lines : ∀ line ∈ contents file, PixelLine rt line

/-- What a change of line `k` does to the image. The line is pixel `k` if all lines before it
parse. A line that does not parse takes its pixel out, and the pixels behind it move up. -/
structure LineEffect (rt : Runtime) (lines lines' : List Text) (k : ℕ)
    (img img' : Image WIDTH HEIGHT) : Prop where
  own : k < lines.length → (∀ line ∈ lines.take k, (value rt line).isSome) →
    position rt lines k = k
  both : (valueAt rt lines k).isSome → (valueAt rt lines' k).isSome →
    ∀ p, p ≠ position rt lines k → img[p]? = img'[p]?
  neither : valueAt rt lines k = none → valueAt rt lines' k = none → img = img'
  second : (valueAt rt lines k).isSome → valueAt rt lines' k = none →
    img'.toList = img.toList.eraseIdx (position rt lines k) ++ [0]
  first : valueAt rt lines k = none → (valueAt rt lines' k).isSome →
    img.toList = img'.toList.eraseIdx (position rt lines k) ++ [0]

/-- Two files that agree on every line except line `k` give two images, and the difference is what
the effect of line `k` says. -/
theorem skipped_line {file' : Text} (hrt : rt.Documented) (hfile : PixelFile rt WIDTH HEIGHT file)
    (hfile' : PixelFile rt WIDTH HEIGHT file')
    (hsame : ∀ i, i ≠ k → (contents file)[i]? = (contents file')[i]?) :
    ∃ img img' : Image WIDTH HEIGHT,
      loadTxtToImage rt (some file) WIDTH HEIGHT true = .image img ∧
        loadTxtToImage rt (some file') WIDTH HEIGHT true = .image img' ∧
          LineEffect rt (contents file) (contents file') k img img' := by
  obtain ⟨img, hload, himg⟩ := load_lines WIDTH HEIGHT hrt hfile.lines
  obtain ⟨img', hload', himg'⟩ := load_lines WIDTH HEIGHT hrt hfile'.lines
  have hsame' : ∀ i, i ≠ k → (contents file')[i]? = (contents file)[i]? :=
    fun i hi => (hsame i hi).symm
  refine ⟨img, img', hload, hload', ?_, ?_, ?_, ?_, ?_⟩
  · exact position_of_parses
  · intro hvalue hvalue' p hp
    rw [← Vector.getElem?_toList, ← Vector.getElem?_toList, himg, himg']
    exact fit_bytes_replaced hsame hvalue hvalue' hp
  · intro hskip hskip'
    rw [← Vector.toList_inj, himg, himg', bytes_skip hskip, bytes_skip hskip', same_before hsame,
      same_behind hsame]
  · intro hvalue hskip'
    rw [himg, himg']
    exact fit_bytes_skipped hsame hfile.count.le hvalue hskip'
  · intro hskip hvalue'
    have hposition : position rt (contents file) k = position rt (contents file') k := by
      rw [position, position, same_before hsame]
    rw [himg, himg', hposition]
    exact fit_bytes_skipped hsame' hfile'.count.le hvalue' hskip

/-! ## A row of two pixels -/

/-- numpy on integers: what is no byte raises an exception. No digit but the ASCII ones. -/
def ascii : Runtime where
  decimal _ := none
  uint8 n := if 0 ≤ n ∧ n < 256 then some (BitVec.ofInt 8 n) else none

theorem ascii_documented : ascii.Documented := by
  intro b
  have hb : (b.toNat : ℤ) < 256 := by
    have := b.isLt
    omega
  simp only [ascii]
  rw [if_pos ⟨by omega, hb⟩, BitVec.ofInt_natCast, BitVec.ofNat_toNat, BitVec.setWidth_eq]

/-- The simulator has printed the first of two bytes. -/
def known : Text := ['0', '1', '\n', '0', '5', '\n']

/-- The first byte is unknown. -/
def unknown : Text := ['x', 'x', '\n', '0', '5', '\n']

theorem pixel_file_known : PixelFile ascii 2 1 known where
  count := rfl
  lines := by
    have hlines : contents known = [['0', '1'], ['0', '5']] := rfl
    rw [hlines]
    intro line hline
    rcases List.mem_pair.mp hline with rfl | rfl
    · exact Or.inl ⟨'0', '1', 0, 1, rfl, rfl, rfl⟩
    · exact Or.inl ⟨'0', '5', 0, 5, rfl, rfl, rfl⟩

theorem pixel_file_unknown : PixelFile ascii 2 1 unknown where
  count := rfl
  lines := by
    have hlines : contents unknown = [['x', 'x'], ['0', '5']] := rfl
    rw [hlines]
    intro line hline
    rcases List.mem_pair.mp hline with rfl | rfl
    · exact Or.inr rfl
    · exact Or.inl ⟨'0', '5', 0, 5, rfl, rfl, rfl⟩

theorem known_except_first {i : ℕ} (hi : i ≠ 0) :
    (contents known)[i]? = (contents unknown)[i]? := by
  obtain ⟨i, rfl⟩ := Nat.exists_eq_succ_of_ne_zero hi
  have hlines : contents known = ['0', '1'] :: [['0', '5']] := rfl
  have hlines' : contents unknown = ['x', 'x'] :: [['0', '5']] := rfl
  rw [hlines, hlines', List.getElem?_cons_succ, List.getElem?_cons_succ]

/-- The unknown byte takes its pixel out. -/
theorem skipped_line_first : ∃ img img' : Image 2 1,
    loadTxtToImage ascii (some known) 2 1 true = .image img ∧
      loadTxtToImage ascii (some unknown) 2 1 true = .image img' ∧
        img'.toList = img.toList.eraseIdx 0 ++ [0] := by
  obtain ⟨img, img', hload, hload', heffect⟩ := skipped_line ascii_documented pixel_file_known
    pixel_file_unknown (fun _ hi => known_except_first hi)
  exact ⟨img, img', hload, hload', heffect.second rfl rfl⟩

/-- A bad line affects only its own pixel. -/
def OwnPixelOnly : Prop :=
  ∀ rt : Runtime, rt.Documented → ∀ WIDTH HEIGHT : ℕ, 1 ≤ WIDTH → 1 ≤ HEIGHT →
    ∀ (file file' : Text) (k : ℕ), PixelFile rt WIDTH HEIGHT file →
      PixelFile rt WIDTH HEIGHT file' →
      (∀ i, i ≠ k → (contents file)[i]? = (contents file')[i]?) →
      ∃ img img' : Image WIDTH HEIGHT,
        loadTxtToImage rt (some file) WIDTH HEIGHT true = .image img ∧
          loadTxtToImage rt (some file') WIDTH HEIGHT true = .image img' ∧
            ∀ p, p ≠ k → img[p]? = img'[p]?

/-- The second pixel is 5 with the first byte and black without it. -/
theorem own_pixel_only_fails : ¬ OwnPixelOnly := by
  intro h
  obtain ⟨img, img', hload, hload', hsame⟩ := h ascii ascii_documented 2 1 (Nat.le_succ 1) le_rfl
    known unknown 0 pixel_file_known pixel_file_unknown fun _ hi => known_except_first hi
  have himage : loadTxtToImage ascii (some known) 2 1 true = .image #v[1, 5] := rfl
  have himage' : loadTxtToImage ascii (some unknown) 2 1 true = .image #v[5, 0] := rfl
  cases himage.symm.trans hload
  cases himage'.symm.trans hload'
  exact absurd (hsame 1 (by decide)) (by decide)

end HexToBmp

end CE213Lab.ImageProcessing
