import CE213Lab.Foundation.Machine
import CE213Lab.Foundation.Selection

/-!
# The pipelined median filter

`median_filter.v`: nine pixels enter at every clock edge. The first stage sorts the three rows, the
second finds three candidates, the third takes their median. `median_after_three` is the value a
window has become two edges after the one that sampled it, whatever the pipeline held before and
whatever follows the window; `pipelined_median` reads it off every run.
-/

namespace CE213Lab.ImageProcessing

open Foundation

/-- A pixel, `[7:0]`. -/
abbrev Byte := BitVec 8

/-- Pixels are compared as unsigned numbers. -/
instance linearOrderBitVec {w : ℕ} : LinearOrder (BitVec w) where
  le_refl := BitVec.le_refl
  le_trans _ _ _ := BitVec.le_trans
  le_antisymm _ _ := BitVec.le_antisymm
  le_total := BitVec.le_total
  lt_iff_le_not_ge x y := by
    rw [BitVec.not_le]
    exact ⟨fun h => ⟨BitVec.le_of_lt h, h⟩, And.right⟩
  toDecidableLE := inferInstance
  toDecidableLT := inferInstance
  toDecidableEq := inferInstance

/-- The nine pixel inputs, row by row. -/
structure Window where
  p1 : Byte
  p2 : Byte
  p3 : Byte
  p4 : Byte
  p5 : Byte
  p6 : Byte
  p7 : Byte
  p8 : Byte
  p9 : Byte
  deriving DecidableEq

def Window.pixels (p : Window) : List Byte :=
  [p.p1, p.p2, p.p3, p.p4, p.p5, p.p6, p.p7, p.p8, p.p9]

namespace MedianFilter

/-- The result of `sort3_func`, `{Max, Med, Min}`. -/
structure Sorted where
  max : Byte
  med : Byte
  min : Byte

/-- Three compare-swap steps. -/
def sort3Func (a b c : Byte) : Sorted :=
  let (sA, sB) := if a > b then (b, a) else (a, b)
  let (sB, sC) := if sB > c then (c, sB) else (sB, c)
  let (sA, sB) := if sA > sB then (sB, sA) else (sA, sB)
  ⟨sC, sB, sA⟩

/-- The maximum of the row minima. -/
def maxOfMins (r1Min r2Min r3Min : Byte) : Byte :=
  if r1Min ≥ r2Min ∧ r1Min ≥ r3Min then r1Min
  else if r2Min ≥ r1Min ∧ r2Min ≥ r3Min then r2Min
  else r3Min

/-- The minimum of the row maxima. -/
def minOfMaxs (r1Max r2Max r3Max : Byte) : Byte :=
  if r1Max ≤ r2Max ∧ r1Max ≤ r3Max then r1Max
  else if r2Max ≤ r1Max ∧ r2Max ≤ r3Max then r2Max
  else r3Max

/-- The registers of the three stages. -/
structure State where
  r1Min : Byte
  r1Med : Byte
  r1Max : Byte
  r2Min : Byte
  r2Med : Byte
  r2Max : Byte
  r3Min : Byte
  r3Med : Byte
  r3Max : Byte
  cand1 : Byte
  cand2 : Byte
  cand3 : Byte
  medianOut : Byte

structure Inputs where
  rstN : Bool
  p : Window

/-- A rising clock edge. The stages read the registers before it. -/
def step (i : Inputs) (s : State) : State :=
  if !i.rstN then
    { r1Min := 0, r1Med := 0, r1Max := 0
      r2Min := 0, r2Med := 0, r2Max := 0
      r3Min := 0, r3Med := 0, r3Max := 0
      cand1 := 0, cand2 := 0, cand3 := 0
      medianOut := 0 }
  else
    { r1Min := (sort3Func i.p.p1 i.p.p2 i.p.p3).min
      r1Med := (sort3Func i.p.p1 i.p.p2 i.p.p3).med
      r1Max := (sort3Func i.p.p1 i.p.p2 i.p.p3).max
      r2Min := (sort3Func i.p.p4 i.p.p5 i.p.p6).min
      r2Med := (sort3Func i.p.p4 i.p.p5 i.p.p6).med
      r2Max := (sort3Func i.p.p4 i.p.p5 i.p.p6).max
      r3Min := (sort3Func i.p.p7 i.p.p8 i.p.p9).min
      r3Med := (sort3Func i.p.p7 i.p.p8 i.p.p9).med
      r3Max := (sort3Func i.p.p7 i.p.p8 i.p.p9).max
      cand1 := (sort3Func s.r1Med s.r2Med s.r3Med).med
      cand2 := maxOfMins s.r1Min s.r2Min s.r3Min
      cand3 := minOfMaxs s.r1Max s.r2Max s.r3Max
      medianOut := (sort3Func s.cand1 s.cand2 s.cand3).med }

/-- The filter as a clocked machine. -/
def machine : Machine Inputs State := ⟨step⟩

/-! ## The comparators -/

theorem sort3_func_ranked (a b c : Byte) :
    Ranked [a, b, c] (sort3Func a b c).max (sort3Func a b c).med (sort3Func a b c).min := by
  refine ranked_of_perm ?_ ?_ ?_
  · unfold sort3Func
    grind
  · unfold sort3Func
    grind
  · unfold sort3Func
    grind

theorem max_of_mins_largest (a b c : Byte) : NthLargest [a, b, c] 1 (maxOfMins a b c) := by
  refine nth_largest_one fun t => ?_
  unfold maxOfMins
  grind

theorem min_of_maxs_smallest (a b c : Byte) : NthLargest [a, b, c] 3 (minOfMaxs a b c) := by
  refine nth_largest_three fun t => ?_
  unfold minOfMaxs
  grind

/-! ## The pipeline -/

/-- The median comes out with the second edge after the one that sampled the window, whatever the
registers held before it and whatever the two later edges sample. -/
theorem median_after_three {i i' i'' : Inputs} (hrst : i.rstN = true) (hrst' : i'.rstN = true)
    (hrst'' : i''.rstN = true) (s : State) :
    select i.p.pixels 4 = some (step i'' (step i' (step i s))).medianOut := by
  have hrow₁ := sort3_func_ranked i.p.p1 i.p.p2 i.p.p3
  have hrow₂ := sort3_func_ranked i.p.p4 i.p.p5 i.p.p6
  have hrow₃ := sort3_func_ranked i.p.p7 i.p.p8 i.p.p9
  refine select_eq_some (by simp [Window.pixels]) ?_
  show NthLargest ([i.p.p1, i.p.p2, i.p.p3] ++ [i.p.p4, i.p.p5, i.p.p6] ++
    [i.p.p7, i.p.p8, i.p.p9]) 5 _
  -- each stage hands its registers to the next edge
  simp only [step, hrst, hrst', hrst'', Bool.not_true, Bool.false_eq_true, if_false]
  exact nth_largest_of_rows rfl rfl rfl hrow₁ hrow₂ hrow₃ (sort3_func_ranked _ _ _).med
    (max_of_mins_largest _ _ _) (min_of_maxs_smallest _ _ _) (sort3_func_ranked _ _ _).med

/-- An execution of the filter after a reset, with `rst_n` high from then on. -/
structure Run extends Execution machine where
  reset : ∃ i s, i.rstN = false ∧ state 0 = step i s
  rstN : ∀ t, (input t).rstN = true

/-- Every window's median, the fifth smallest of its pixels, is at the output after the third edge
counted from the one that samples the window. -/
theorem pipelined_median (r : Run) (k : ℕ) :
    select (r.input k).p.pixels 4 = some (r.state (k + 3)).medianOut := by
  rw [r.state_succ, r.state_succ, r.state_succ]
  exact median_after_three (r.rstN k) (r.rstN (k + 1)) (r.rstN (k + 2)) (r.state k)

end MedianFilter

end CE213Lab.ImageProcessing
