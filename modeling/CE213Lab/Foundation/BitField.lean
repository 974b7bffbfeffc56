import Mathlib.Data.BitVec

/-!
# Fields of a word

A packet of a bus is one wide word, and its fields are ranges of bits. `getField` reads the `w` bits
from bit `lo` on, `setField` replaces them. A field reads back what it was set to, and setting one
leaves every field beside it alone.
-/

namespace CE213Lab.Foundation

variable {n w w' : ℕ}

def getField (lo w : ℕ) (x : BitVec n) : BitVec w :=
  x.extractLsb' lo w

def setField (lo : ℕ) (v : BitVec w) (x : BitVec n) : BitVec n :=
  (x &&& ~~~((BitVec.allOnes w).setWidth n <<< lo)) ||| v.setWidth n <<< lo

/-- A field of one bit. -/
def setBit (lo : ℕ) (v : Bool) (x : BitVec n) : BitVec n :=
  setField lo (BitVec.ofBool v) x

theorem getLsbD_setField (lo : ℕ) (v : BitVec w) (x : BitVec n) {i : ℕ} (hi : i < n) :
    (setField lo v x).getLsbD i =
      if lo ≤ i ∧ i < lo + w then v.getLsbD (i - lo) else x.getLsbD i := by
  simp only [setField, BitVec.getLsbD_or, BitVec.getLsbD_and, BitVec.getLsbD_not,
    BitVec.getLsbD_shiftLeft, BitVec.getLsbD_setWidth, BitVec.getLsbD_allOnes, hi, decide_true,
    Bool.true_and]
  by_cases hlow : i < lo
  · rw [if_neg (by omega)]
    simp [hlow]
  · rw [decide_eq_false hlow, decide_eq_true (show i - lo < n by omega)]
    by_cases hhigh : i < lo + w
    · rw [if_pos ⟨by omega, hhigh⟩, decide_eq_true (show i - lo < w by omega)]
      simp
    · rw [if_neg (by omega), decide_eq_false (show ¬ i - lo < w by omega),
        BitVec.getLsbD_of_ge v _ (by omega)]
      simp

theorem getLsbD_setBit (lo : ℕ) (v : Bool) (x : BitVec n) {i : ℕ} (hi : i < n) :
    (setBit lo v x).getLsbD i = if i = lo then v else x.getLsbD i := by
  rw [setBit, getLsbD_setField lo _ x hi]
  by_cases heq : i = lo
  · rw [if_pos (by omega), if_pos heq, heq, Nat.sub_self]
    cases v <;> rfl
  · rw [if_neg (by omega), if_neg heq]

/-- A field reads back what it was set to. -/
theorem getField_setField {lo : ℕ} (v : BitVec w) (x : BitVec n) (h : lo + w ≤ n) :
    getField lo w (setField lo v x) = v := by
  refine BitVec.eq_of_getLsbD_eq fun i hi => ?_
  rw [getField, BitVec.getLsbD_extractLsb', decide_eq_true hi, Bool.true_and,
    getLsbD_setField lo v x (by omega), if_pos (by omega), Nat.add_sub_cancel_left]

/-- Setting a field leaves a field beside it alone. -/
theorem getField_setField_of_disjoint {lo lo' : ℕ} (v : BitVec w) (x : BitVec n)
    (h : lo' + w' ≤ lo ∨ lo + w ≤ lo') (hn : lo' + w' ≤ n) :
    getField lo' w' (setField lo v x) = getField lo' w' x := by
  refine BitVec.eq_of_getLsbD_eq fun i hi => ?_
  rw [getField, getField, BitVec.getLsbD_extractLsb', BitVec.getLsbD_extractLsb',
    getLsbD_setField lo v x (by omega), if_neg (by omega)]

end CE213Lab.Foundation
