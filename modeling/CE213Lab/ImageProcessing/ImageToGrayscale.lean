import CE213Lab.ImageProcessing.MedianFilter
import Mathlib.Algebra.Order.Ring.Rat
import Mathlib.Tactic.Linarith

/-!
# The grayscale converter

`image_to_grayscale.v`: the weighted sum of the three colours, scaled by 256 and rounded, plus a
brightness, saturated. Every width holds its value, but the slice that takes the result out of the
sum begins at bit 10 and so divides it by 1024. The main theorem is `converts_iff`.
-/

namespace CE213Lab.ImageProcessing

open Foundation

namespace ImageToGrayscale

structure State where
  grayOut : Byte
  outValid : Bool

structure Inputs where
  rstN : Bool
  rIn : Byte
  gIn : Byte
  bIn : Byte
  inValid : Bool
  brightness : Byte

/-! ## Wires -/

/-- `0.299 * 256 ≈ 77`. -/
def rMul (i : Inputs) : BitVec 16 :=
  i.rIn.setWidth 16 * 77

/-- `0.587 * 256 ≈ 150`. -/
def gMul (i : Inputs) : BitVec 16 :=
  i.gIn.setWidth 16 * 150

/-- `0.114 * 256 ≈ 29`. -/
def bMul (i : Inputs) : BitVec 16 :=
  i.bIn.setWidth 16 * 29

def acc (i : Inputs) : BitVec 18 :=
  (0#2 ++ rMul i) + (0#2 ++ gMul i) + (0#2 ++ bMul i)

def accRounded (i : Inputs) : BitVec 18 :=
  acc i + 128

def grayBase (i : Inputs) : Byte :=
  (accRounded i).extractLsb 17 10

def grayBright (i : Inputs) : BitVec 10 :=
  (0#2 ++ grayBase i) + (0#2 ++ i.brightness)

/-- Clamping: what exceeds 255 is held at 255. -/
def grayFinal (i : Inputs) : Byte :=
  if grayBright i > 255 then 255 else (grayBright i).extractLsb 7 0

/-! ## Clock edge -/

def step (i : Inputs) (_ : State) : State :=
  if !i.rstN then ⟨0, false⟩ else ⟨grayFinal i, i.inValid⟩

/-! ## Exact values of the wires -/

/-- The sum of the colours with the scaled weights, over the integers. -/
def weighted (i : Inputs) : ℕ :=
  77 * i.rIn.toNat + 150 * i.gIn.toNat + 29 * i.bIn.toNat

variable {i : Inputs} {s : State}

theorem toNat_widen {v w : ℕ} (x : BitVec w) : (0#v ++ x).toNat = x.toNat := by
  simp [BitVec.toNat_append]

/-- A product with a weight below 256 fits into 16 bits. -/
theorem toNat_product (x : Byte) {weight : ℕ} (hweight : weight < 256) :
    (x.setWidth 16 * BitVec.ofNat 16 weight).toNat = weight * x.toNat := by
  have hlt := x.isLt
  have hle : weight * x.toNat ≤ 255 * 255 := Nat.mul_le_mul (by omega) (by omega)
  have hx : (x.setWidth 16).toNat = x.toNat := by
    rw [BitVec.toNat_setWidth, Nat.mod_eq_of_lt (by omega)]
  have hw : (BitVec.ofNat 16 weight).toNat = weight := by
    rw [BitVec.toNat_ofNat, Nat.mod_eq_of_lt (by omega)]
  rw [BitVec.toNat_mul, hx, hw, Nat.mul_comm, Nat.mod_eq_of_lt (by omega)]

/-- No wire up to the rounded sum truncates. -/
theorem toNat_accRounded : (accRounded i).toNat = weighted i + 128 := by
  have hr : (rMul i).toNat = 77 * i.rIn.toNat := toNat_product _ (by decide)
  have hg : (gMul i).toNat = 150 * i.gIn.toNat := toNat_product _ (by decide)
  have hb : (bMul i).toNat = 29 * i.bIn.toNat := toNat_product _ (by decide)
  simp only [accRounded, acc, BitVec.toNat_add, toNat_widen, hr, hg, hb, weighted]
  have := i.rIn.isLt
  have := i.gIn.isLt
  have := i.bIn.isLt
  simp
  omega

/-- The slice keeps the sum divided by 1024. -/
theorem toNat_grayBase : (grayBase i).toNat = (weighted i + 128) / 1024 := by
  have hlt := (accRounded i).isLt
  rw [toNat_accRounded] at hlt
  rw [grayBase, BitVec.extractLsb_toNat, toNat_accRounded, Nat.shiftRight_eq_div_pow]
  omega

theorem toNat_grayFinal :
    (grayFinal i).toNat = min 255 ((weighted i + 128) / 1024 + i.brightness.toNat) := by
  have hbright : (grayBright i).toNat = (weighted i + 128) / 1024 + i.brightness.toNat := by
    have hbase := (grayBase i).isLt
    have hbrightness := i.brightness.isLt
    rw [grayBright, BitVec.toNat_add, toNat_widen, toNat_widen, Nat.mod_eq_of_lt (by omega),
      toNat_grayBase]
  have hgt : grayBright i > 255 ↔ 255 < (grayBright i).toNat := BitVec.lt_def
  rw [← hbright, grayFinal]
  split
  · next hclamp =>
      rw [hgt] at hclamp
      rw [Nat.min_eq_left hclamp.le]
      rfl
  · next hfits =>
      rw [hgt] at hfits
      rw [Nat.min_eq_right (by omega), BitVec.extractLsb_toNat]
      simp
      omega

/-! ## The conversion -/

/-- The distance of `gray` from `0.299 * R + 0.587 * G + 0.114 * B`. -/
def luminanceError (i : Inputs) (gray : Byte) : ℚ :=
  |(gray.toNat : ℚ) -
    (0.299 * i.rIn.toNat + 0.587 * i.gIn.toNat + 0.114 * i.bIn.toNat)|

/-- `gray` is the rounded 256th of the weighted sum plus the brightness, saturated. So without
brightness it is the luminance up to 1.5, and a gray pixel is kept. -/
structure Converts (i : Inputs) (gray : Byte) : Prop where
  formula : gray.toNat = min 255 ((weighted i + 128) / 256 + i.brightness.toNat)
  luminance : i.brightness = 0 → luminanceError i gray ≤ 1.5
  gray_pixel : i.brightness = 0 → ∀ v, i.rIn = v → i.gIn = v → i.bIn = v → gray = v

/-- Rounding is off by a half at most, the weights by less than one for all three colours. -/
theorem luminance_of_rounded {gray : Byte} (hbelow : 256 * gray.toNat ≤ weighted i + 128)
    (habove : weighted i + 128 < 256 * gray.toNat + 256) : luminanceError i gray ≤ 1.5 := by
  have hcolour : ∀ x : Byte, (0 : ℚ) ≤ x.toNat ∧ (x.toNat : ℚ) ≤ 255 := fun x =>
    ⟨Nat.cast_nonneg _, by exact_mod_cast Nat.le_of_lt_succ x.isLt⟩
  obtain ⟨hr0, hr⟩ := hcolour i.rIn
  obtain ⟨hg0, hg⟩ := hcolour i.gIn
  obtain ⟨hb0, hb⟩ := hcolour i.bIn
  have hbelow : (256 : ℚ) * gray.toNat ≤
      77 * i.rIn.toNat + 150 * i.gIn.toNat + 29 * i.bIn.toNat + 128 := by
    exact_mod_cast hbelow
  have habove : (77 : ℚ) * i.rIn.toNat + 150 * i.gIn.toNat + 29 * i.bIn.toNat + 128 <
      256 * gray.toNat + 256 := by
    exact_mod_cast habove
  rw [luminanceError, abs_le]
  constructor <;> linarith

/-- The formula gives the other two. -/
theorem converts_of_formula {gray : Byte}
    (h : gray.toNat = min 255 ((weighted i + 128) / 256 + i.brightness.toNat)) :
    Converts i gray := by
  have hunlit : i.brightness = 0 → gray.toNat = (weighted i + 128) / 256 := fun hzero => by
    have hr := i.rIn.isLt
    have hg := i.gIn.isLt
    have hb := i.bIn.isLt
    have hbrightness : i.brightness.toNat = 0 := by
      rw [hzero]
      rfl
    simp only [weighted] at h ⊢
    omega
  refine ⟨h, fun hzero => ?_, fun hzero v hrv hgv hbv => ?_⟩
  · have heq := hunlit hzero
    exact luminance_of_rounded (by omega) (by omega)
  · have heq := hunlit hzero
    simp only [weighted, hrv, hgv, hbv] at heq
    exact BitVec.eq_of_toNat_eq (by omega)

/-- The pixel is converted exactly when the slice loses nothing: the rounded sum is below 256, or
the brightness saturates the pixel all the same. -/
theorem converts_iff (hrst : i.rstN = true) :
    Converts i (step i s).grayOut ↔
      weighted i < 128 ∨ 1024 * 255 ≤ weighted i + 128 + 1024 * i.brightness.toNat := by
  have hgray : (step i s).grayOut.toNat =
      min 255 ((weighted i + 128) / 1024 + i.brightness.toNat) := by
    simp only [step, hrst, Bool.not_true, Bool.false_eq_true, if_false]
    exact toNat_grayFinal
  refine ⟨fun h => ?_, fun h => converts_of_formula ?_⟩
  · have hformula := h.formula
    rw [hgray] at hformula
    omega
  · rw [hgray]
    omega

/-- A pixel of colours 10, 20 and 30 made as bright as can be. -/
def overexposed : Inputs :=
  ⟨true, 10, 20, 30, true, 255⟩

theorem converts_overexposed :
    Converts overexposed (step overexposed ⟨0, false⟩).grayOut ↔
      weighted overexposed < 128 ∨
        1024 * 255 ≤ weighted overexposed + 128 + 1024 * overexposed.brightness.toNat :=
  converts_iff rfl

/-- A white pixel without brightness. -/
def white : Inputs :=
  ⟨true, 255, 255, 255, true, 0⟩

/-- White becomes dark gray. -/
theorem white_darkened :
    (step white ⟨0, false⟩).grayOut = 63 ∧ ¬ Converts white (step white ⟨0, false⟩).grayOut := by
  have hgray : (step white ⟨0, false⟩).grayOut = 63 := by decide
  refine ⟨hgray, fun hconverts => ?_⟩
  have hwhite := hconverts.gray_pixel rfl 255 rfl rfl rfl
  rw [hgray] at hwhite
  exact absurd hwhite (by decide)

end ImageToGrayscale

end CE213Lab.ImageProcessing
