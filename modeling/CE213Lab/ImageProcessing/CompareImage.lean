import CE213Lab.ImageProcessing.TbMedianFilter
import Mathlib.Algebra.BigOperators.Fin
import Mathlib.Algebra.Order.BigOperators.Group.Finset
import Mathlib.Data.BitVec
import Mathlib.Algebra.Order.Field.Basic
import Mathlib.Algebra.Order.Ring.Abs
import Mathlib.Data.Int.ModEq
import Mathlib.Tactic.Ring
import Mathlib.Tactic.Linarith
import Mathlib.Tactic.NormNum

/-!
# The score of two images

`compare_image.py`: the peak signal-to-noise ratio of two grayscale images. They come as arrays of
bytes, and numpy takes the differences of bytes and their squares modulo 256, so a difference of 16
counts nothing. The main theorem is `true_error_iff`.
-/

namespace CE213Lab.ImageProcessing

namespace CompareImage

variable {WIDTH HEIGHT : ℕ}

/-- What the script calls of numpy, on arrays of natural numbers: `np.mean`, the value of the float
it returns, or nothing for nan. -/
structure Numpy where
  mean : ∀ {n : ℕ}, Vector ℕ n → Option ℚ

/-- What `calculate_psnr` returns, an `int` or a `float`. -/
inductive Score where
  | int (n : ℤ)
  | float (x : Float)

/-- `(img1_arr - img2_arr) ** 2`, entry by entry in bytes. -/
def squares (img1Arr img2Arr : Image WIDTH HEIGHT) : Image WIDTH HEIGHT :=
  Vector.zipWith (fun p q => (p - q) ^ 2) img1Arr img2Arr

def mse (np : Numpy) (img1Arr img2Arr : Image WIDTH HEIGHT) : Option ℚ :=
  np.mean ((squares img1Arr img2Arr).map BitVec.toNat)

def toFloat : Option ℚ → Float
  | some q => Float.ofInt q.num / Float.ofNat q.den
  | none => 0.0 / 0.0

def calculatePsnr (np : Numpy) (img1Arr img2Arr : Image WIDTH HEIGHT) : Score :=
  let mse := mse np img1Arr img2Arr
  if mse = some 0 then .int 100
  else
    let pixelMax := 255.0
    .float (20 * Float.log10 (pixelMax / Float.sqrt (toFloat mse)))

/-! ## The documented behaviour of numpy -/

section Mean

variable {n : ℕ}

def total (arr : Vector ℕ n) : ℕ :=
  ∑ i : Fin n, arr[i]

def exactMean (arr : Vector ℕ n) : ℚ :=
  total arr / n

/-- The mean of integers is taken in floats of 53 bits. Where these hold the sum and the count, only
the quotient is rounded, to the nearest float. -/
structure Numpy.Documented (np : Numpy) : Prop where
  mean : ∀ {n : ℕ} (arr : Vector ℕ n), 0 < n → n < 2 ^ 53 → total arr < 2 ^ 53 →
    ∃ q, np.mean arr = some q ∧ |q - exactMean arr| ≤ exactMean arr / 2 ^ 53

variable {np : Numpy} {arr arr' : Vector ℕ n}

theorem total_le {bound : ℕ} (h : ∀ i : Fin n, arr[i] ≤ bound) : total arr ≤ n * bound := by
  have hsum := Finset.sum_le_card_nsmul Finset.univ (fun i : Fin n => arr[i]) bound fun i _ => h i
  rwa [Finset.card_univ, Fintype.card_fin, smul_eq_mul] at hsum

theorem exact_mean_nonneg (arr : Vector ℕ n) : 0 ≤ exactMean arr :=
  div_nonneg (Nat.cast_nonneg _) (Nat.cast_nonneg _)

theorem exact_mean_eq_zero_iff (hn : 0 < n) : exactMean arr = 0 ↔ total arr = 0 := by
  have hcount : (n : ℚ) ≠ 0 := Nat.cast_ne_zero.mpr hn.ne'
  rw [exactMean, div_eq_zero_iff, or_iff_left hcount, Nat.cast_eq_zero]

/-- A mean of zero is not rounded, and no other mean is rounded to zero. -/
theorem mean_eq_zero_iff (hnp : np.Documented) (hn : 0 < n) (hcount : n < 2 ^ 53)
    (htotal : total arr < 2 ^ 52) : np.mean arr = some 0 ↔ total arr = 0 := by
  obtain ⟨q, hmean, hnear⟩ := hnp.mean arr hn hcount (by omega)
  have hnonneg := exact_mean_nonneg arr
  rw [hmean, Option.some_inj, ← exact_mean_eq_zero_iff hn]
  rw [abs_le] at hnear
  constructor
  · rintro rfl
    linarith
  · intro hzero
    rw [hzero] at hnear
    linarith

/-- Rounding keeps different sums apart as long as they are small. -/
theorem total_eq_of_mean_eq (hnp : np.Documented) (hn : 0 < n) (hcount : n < 2 ^ 53)
    (htotal : total arr < 2 ^ 52) (htotal' : total arr' < 2 ^ 52)
    (heq : np.mean arr = np.mean arr') : total arr = total arr' := by
  obtain ⟨q, hmean, hnear⟩ := hnp.mean arr hn hcount (by omega)
  obtain ⟨q', hmean', hnear'⟩ := hnp.mean arr' hn hcount (by omega)
  obtain rfl : q = q' := Option.some.inj (hmean.symm.trans (heq.trans hmean'))
  have hpos : (0 : ℚ) < n := Nat.cast_pos.mpr hn
  have hsum : exactMean arr * n = total arr := div_mul_cancel₀ _ hpos.ne'
  have hsum' : exactMean arr' * n = total arr' := div_mul_cancel₀ _ hpos.ne'
  have hlt : ((total arr + total arr' : ℕ) : ℚ) < 2 ^ 53 := by exact_mod_cast (by omega)
  -- the two exact means are at most the two roundings apart
  have hapart : |exactMean arr - exactMean arr'| ≤ (exactMean arr + exactMean arr') / 2 ^ 53 := by
    rw [abs_le] at hnear hnear' ⊢
    constructor <;> linarith
  have hone : |(total arr : ℚ) - total arr'| < 1 := by
    calc |(total arr : ℚ) - total arr'|
        = |exactMean arr - exactMean arr'| * n := by
          rw [← hsum, ← hsum', ← sub_mul, abs_mul, abs_of_pos hpos]
      _ ≤ (exactMean arr + exactMean arr') / 2 ^ 53 * n :=
          mul_le_mul_of_nonneg_right hapart hpos.le
      _ = ((total arr + total arr' : ℕ) : ℚ) / 2 ^ 53 := by
          rw [Nat.cast_add, ← hsum, ← hsum']
          ring
      _ < 1 := (div_lt_one (by norm_num)).mpr hlt
  have hint : |(total arr : ℤ) - total arr'| < 1 := by exact_mod_cast hone
  rw [Int.abs_lt_one_iff] at hint
  omega

end Mean

/-! ## The error in bytes -/

/-- The difference of two pixels. -/
def difference (p q : Byte) : ℤ :=
  p.toNat - q.toNat

def trueSquare (p q : Byte) : ℕ :=
  (difference p q).natAbs ^ 2

/-- The squared differences of the pixels as integers. -/
def trueSquares (img1 img2 : Image WIDTH HEIGHT) : Vector ℕ (WIDTH * HEIGHT) :=
  Vector.zipWith trueSquare img1 img2

def meanSquaredError (img1 img2 : Image WIDTH HEIGHT) : ℚ :=
  exactMean (trueSquares img1 img2)

/-- The square of the byte difference is the square of the difference modulo 256. -/
theorem toNat_square (p q : Byte) : ((p - q) ^ 2).toNat = trueSquare p q % 256 := by
  have hle : q.toNat ≤ 256 := q.isLt.le
  have hmod : ((256 - q.toNat + p.toNat : ℕ) : ℤ) % 256 ≡ difference p q [ZMOD 256] := by
    rw [Nat.cast_add, Nat.cast_sub hle, difference, Int.ModEq]
    omega
  have hsquare : (p - q) ^ 2 = (p - q) * (p - q) := by
    simp [BitVec.pow_succ]
  have hcast : (((p - q) ^ 2).toNat : ℤ) = difference p q ^ 2 % 256 := by
    rw [hsquare, BitVec.toNat_mul, BitVec.toNat_sub, sq]
    push_cast
    exact hmod.mul hmod
  rw [← Int.natAbs_sq] at hcast
  exact_mod_cast hcast

/-- It is the true square when the two pixels are close. -/
theorem toNat_square_eq_iff (p q : Byte) :
    ((p - q) ^ 2).toNat = trueSquare p q ↔ |difference p q| ≤ 15 := by
  have hfits : trueSquare p q < 16 ^ 2 ↔ (difference p q).natAbs < 16 :=
    Nat.pow_lt_pow_iff_left two_ne_zero
  rw [toNat_square, Int.abs_eq_natAbs]
  omega

theorem toNat_square_eq_zero_iff (p q : Byte) :
    ((p - q) ^ 2).toNat = 0 ↔ 16 ∣ difference p q := by
  have hdvd : 16 ^ 2 ∣ trueSquare p q ↔ 16 ∣ (difference p q).natAbs :=
    Nat.pow_dvd_pow_iff two_ne_zero
  rw [toNat_square]
  omega

theorem true_square_le (p q : Byte) : trueSquare p q ≤ 255 ^ 2 := by
  have hp := p.isLt
  have hq := q.isLt
  exact Nat.pow_le_pow_left (by unfold difference; omega) 2

theorem true_square_eq_zero_iff (p q : Byte) : trueSquare p q = 0 ↔ p = q := by
  rw [trueSquare, sq_eq_zero_iff, Int.natAbs_eq_zero, difference, sub_eq_zero, Nat.cast_inj,
    BitVec.toNat_inj]

/-! ## The score -/

/-- The error is the mean numpy finds of the true squares, exact but for one rounding, and the score
of a perfect match is kept for equal images. -/
structure TrueError (np : Numpy) (img1 img2 : Image WIDTH HEIGHT) : Prop where
  mse : mse np img1 img2 = np.mean (trueSquares img1 img2)
  rounded : ∃ q, np.mean (trueSquares img1 img2) = some q ∧
    |q - meanSquaredError img1 img2| ≤ meanSquaredError img1 img2 / 2 ^ 53
  perfect : calculatePsnr np img1 img2 = .int 100 ↔ img1 = img2

/-- What is known of the sizes of images that are compared. `Image.open` of PIL raises an exception
for an image of more than 178956970 pixels, so the bound holds by far. -/
structure Passed (WIDTH HEIGHT : ℕ) : Prop where
  nonempty : 0 < WIDTH * HEIGHT
  bounded : WIDTH * HEIGHT ≤ 2 ^ 36

variable {np : Numpy} {img1 img2 : Image WIDTH HEIGHT}

theorem calculate_psnr_eq_iff :
    calculatePsnr np img1 img2 = .int 100 ↔ mse np img1 img2 = some 0 := by
  unfold calculatePsnr
  by_cases hzero : mse np img1 img2 = some 0 <;> simp [hzero]

theorem squares_getElem (i : Fin (WIDTH * HEIGHT)) :
    ((squares img1 img2).map BitVec.toNat)[i] = ((img1[i] - img2[i]) ^ 2).toNat := by
  simp [squares]

theorem true_squares_getElem (i : Fin (WIDTH * HEIGHT)) :
    (trueSquares img1 img2)[i] = trueSquare img1[i] img2[i] := by
  simp [trueSquares]

/-- The squares in bytes are never larger than the true ones. -/
theorem squares_le (i : Fin (WIDTH * HEIGHT)) :
    ((squares img1 img2).map BitVec.toNat)[i] ≤ (trueSquares img1 img2)[i] := by
  rw [squares_getElem, true_squares_getElem, toNat_square]
  exact Nat.mod_le _ _

/-- The sums of the squares are small enough for floats. -/
theorem Passed.true_squares_lt (hpassed : Passed WIDTH HEIGHT) (img1 img2 : Image WIDTH HEIGHT) :
    total (trueSquares img1 img2) < 2 ^ 52 := by
  have hbounded := hpassed.bounded
  have htotal : total (trueSquares img1 img2) ≤ WIDTH * HEIGHT * 255 ^ 2 :=
    total_le fun i => (true_squares_getElem i).trans_le (true_square_le _ _)
  omega

theorem Passed.squares_lt (hpassed : Passed WIDTH HEIGHT) (img1 img2 : Image WIDTH HEIGHT) :
    total ((squares img1 img2).map BitVec.toNat) < 2 ^ 52 :=
  (Finset.sum_le_sum fun i _ => squares_le i).trans_lt (hpassed.true_squares_lt img1 img2)

theorem Passed.count_lt (hpassed : Passed WIDTH HEIGHT) : WIDTH * HEIGHT < 2 ^ 53 :=
  hpassed.bounded.trans_lt (by norm_num)

/-- The error computed is the true one exactly when all pixels are close. -/
theorem mse_eq_iff (hnp : np.Documented) (hpassed : Passed WIDTH HEIGHT) :
    mse np img1 img2 = np.mean (trueSquares img1 img2) ↔
      ∀ (i : ℕ) (hi : i < WIDTH * HEIGHT), |difference img1[i] img2[i]| ≤ 15 := by
  have hentry : ∀ i : Fin (WIDTH * HEIGHT),
      ((squares img1 img2).map BitVec.toNat)[i] = (trueSquares img1 img2)[i] ↔
        |difference img1[i] img2[i]| ≤ 15 := by
    intro i
    rw [squares_getElem, true_squares_getElem, toNat_square_eq_iff]
  constructor
  · intro hmse i hi
    have htotal := total_eq_of_mean_eq hnp hpassed.nonempty hpassed.count_lt
      (hpassed.squares_lt img1 img2) (hpassed.true_squares_lt img1 img2) hmse
    exact (hentry ⟨i, hi⟩).mp
      ((Finset.sum_eq_sum_iff_of_le fun i _ => squares_le i).mp htotal ⟨i, hi⟩ (Finset.mem_univ _))
  · intro hclose
    exact congrArg np.mean (Vector.ext fun i hi => (hentry ⟨i, hi⟩).mpr (hclose i hi))

/-- Two images whose pixels all differ by multiples of 16 have no error for the script. -/
theorem mse_eq_zero_iff (hnp : np.Documented) (hpassed : Passed WIDTH HEIGHT) :
    mse np img1 img2 = some 0 ↔
      ∀ (i : ℕ) (hi : i < WIDTH * HEIGHT), 16 ∣ difference img1[i] img2[i] := by
  rw [mse, mean_eq_zero_iff hnp hpassed.nonempty hpassed.count_lt (hpassed.squares_lt img1 img2),
    total, Finset.sum_eq_zero_iff]
  refine ⟨fun h i hi => ?_, fun h i _ => ?_⟩
  · rw [← toNat_square_eq_zero_iff]
    exact (squares_getElem ⟨i, hi⟩).symm.trans (h ⟨i, hi⟩ (Finset.mem_univ _))
  · rw [squares_getElem]
    exact (toNat_square_eq_zero_iff _ _).mpr (h i i.isLt)

/-- Only equal images have no true error. -/
theorem mean_true_squares_eq_zero_iff (hnp : np.Documented) (hpassed : Passed WIDTH HEIGHT) :
    np.mean (trueSquares img1 img2) = some 0 ↔ img1 = img2 := by
  rw [mean_eq_zero_iff hnp hpassed.nonempty hpassed.count_lt (hpassed.true_squares_lt img1 img2),
    total, Finset.sum_eq_zero_iff]
  refine ⟨fun h => Vector.ext fun i hi => ?_, ?_⟩
  · rw [← true_square_eq_zero_iff]
    exact (true_squares_getElem ⟨i, hi⟩).symm.trans (h ⟨i, hi⟩ (Finset.mem_univ _))
  · rintro rfl i _
    rw [true_squares_getElem]
    exact (true_square_eq_zero_iff _ _).mpr rfl

/-- The score is computed from the true error exactly when every two corresponding pixels differ by
15 at most. -/
theorem true_error_iff (hnp : np.Documented) (hpassed : Passed WIDTH HEIGHT) :
    TrueError np img1 img2 ↔
      ∀ (i : ℕ) (hi : i < WIDTH * HEIGHT), |difference img1[i] img2[i]| ≤ 15 := by
  refine ⟨fun h => (mse_eq_iff hnp hpassed).mp h.mse, fun hclose => ?_⟩
  have hmse := (mse_eq_iff hnp hpassed).mpr hclose
  have hlt := hpassed.true_squares_lt img1 img2
  refine ⟨hmse, hnp.mean _ hpassed.nonempty hpassed.count_lt (by omega), ?_⟩
  rw [calculate_psnr_eq_iff, hmse]
  exact mean_true_squares_eq_zero_iff hnp hpassed

/-- The mean without rounding. -/
def exactNumpy : Numpy where
  mean arr := some (exactMean arr)

theorem exact_numpy_documented : exactNumpy.Documented where
  mean arr _ _ _ := by
    refine ⟨exactMean arr, rfl, ?_⟩
    rw [sub_self, abs_zero]
    exact div_nonneg (exact_mean_nonneg arr) (by norm_num)

/-- A row of two pixels. -/
def row (p q : Byte) : Image 2 1 := #v[p, q]

theorem true_error_row :
    TrueError exactNumpy (row 10 20) (row 25 5) ↔
      ∀ (i : ℕ) (hi : i < 2 * 1), |difference (row 10 20)[i] (row 25 5)[i]| ≤ 15 :=
  true_error_iff exact_numpy_documented ⟨by decide, by decide⟩

/-- Sixteen apart in both pixels, and scored as a perfect match. -/
theorem perfect_match_sixteen_apart :
    exactNumpy.Documented ∧ calculatePsnr exactNumpy (row 0 100) (row 16 84) = .int 100 ∧
      meanSquaredError (row 0 100) (row 16 84) = 256 ∧
        ¬ TrueError exactNumpy (row 0 100) (row 16 84) := by
  have hpassed : Passed 2 1 := ⟨by decide, by decide⟩
  have hperfect : calculatePsnr exactNumpy (row 0 100) (row 16 84) = .int 100 := by
    rw [calculate_psnr_eq_iff, mse_eq_zero_iff exact_numpy_documented hpassed]
    decide
  refine ⟨exact_numpy_documented, hperfect, ?_, fun htrue => ?_⟩
  · have htotal : total (trueSquares (row 0 100) (row 16 84)) = 512 := by decide +kernel
    rw [meanSquaredError, exactMean, htotal]
    norm_num
  · exact absurd (htrue.perfect.mp hperfect) (by decide)

end CompareImage

end CE213Lab.ImageProcessing
