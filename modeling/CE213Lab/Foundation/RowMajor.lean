import Mathlib.Data.List.Range

/-!
# Row-major scans

A frame of `width` columns and `height` rows stored row after row, and the nested loop that visits
it in this order. `scan_appends` is the rule for a loop whose body appends one entry in every
round: the loop appends the whole frame.
-/

namespace CE213Lab.Foundation

variable {State α : Type*} {width height x y : ℕ}

/-- The rows of `f` one after the other, where `f x y` is the entry in column `x` and row `y`. -/
def rowMajor (width height : ℕ) (f : ℕ → ℕ → α) : List α :=
  (List.range height).flatMap fun y => (List.range width).map fun x => f x y

/-- The loop `for y < height, for x < width`, whose body may fail. -/
def scan (width height : ℕ) (body : ℕ → ℕ → State → Option State) (s : State) : Option State :=
  (List.range height).foldlM (fun s y => (List.range width).foldlM (fun s x => body y x s) s) s

/-! ## Positions -/

theorem row_major_lt (hx : x < width) (hy : y < height) : y * width + x < width * height := by
  have hrow : (y + 1) * width ≤ height * width := Nat.mul_le_mul_right width hy
  rw [Nat.succ_mul, Nat.mul_comm height] at hrow
  omega

/-- Every position of the frame is that of a column and a row. -/
theorem exists_row_major {i : ℕ} (hi : i < width * height) :
    ∃ x y, x < width ∧ y < height ∧ i = y * width + x := by
  have hwidth : 0 < width := Nat.pos_of_ne_zero fun h => by simp [h] at hi
  refine ⟨i % width, i / width, Nat.mod_lt i hwidth, Nat.div_lt_of_lt_mul hi, ?_⟩
  rw [Nat.mul_comm, Nat.div_add_mod]

@[simp] theorem length_rowMajor {f : ℕ → ℕ → α} :
    (rowMajor width height f).length = width * height := by
  simp [rowMajor, List.length_flatMap, Nat.mul_comm]

theorem row_major_succ {f : ℕ → ℕ → α} : rowMajor width (height + 1) f =
    rowMajor width height f ++ (List.range width).map fun x => f x height := by
  simp [rowMajor, List.range_succ]

/-- The entry of a column and a row stands at its position. -/
theorem getElem?_rowMajor {f : ℕ → ℕ → α} (hx : x < width) (hy : y < height) :
    (rowMajor width height f)[y * width + x]? = some (f x y) := by
  induction height with
  | zero => omega
  | succ height ih =>
      rw [row_major_succ]
      rcases Nat.lt_succ_iff_lt_or_eq.mp hy with hlt | rfl
      · rw [List.getElem?_append_left (by simpa using row_major_lt hx hlt)]
        exact ih hlt
      · rw [List.getElem?_append_right (by simp [Nat.mul_comm]), length_rowMajor, Nat.mul_comm y,
          Nat.add_sub_cancel_left]
        simp [hx]

/-- Two lists of the size of the frame are equal when they agree at every column and row. -/
theorem eq_of_row_major {l l' : List α} (hl : l.length = width * height)
    (hl' : l'.length = width * height)
    (h : ∀ x y, x < width → y < height → l[y * width + x]? = l'[y * width + x]?) : l = l' := by
  refine List.ext_getElem? fun i => ?_
  rcases Nat.lt_or_ge i (width * height) with hi | hi
  · obtain ⟨x, y, hx, hy, rfl⟩ := exists_row_major hi
    exact h x y hx hy
  · rw [List.getElem?_eq_none (by omega), List.getElem?_eq_none (by omega)]

/-! ## The loop -/

/-- A loop whose body succeeds and appends appends what its rounds append. -/
theorem foldlM_appends {ι : Type*} (output : State → List α) {body : ι → State → Option State}
    {g : ι → List α} {l : List ι}
    (hbody : ∀ i ∈ l, ∀ s, ∃ s', body i s = some s' ∧ output s' = output s ++ g i) (s : State) :
    ∃ s', l.foldlM (fun s i => body i s) s = some s' ∧ output s' = output s ++ l.flatMap g := by
  induction l generalizing s with
  | nil => exact ⟨s, rfl, by simp⟩
  | cons i l ih =>
      obtain ⟨s₁, hfirst, hout₁⟩ := hbody i List.mem_cons_self s
      obtain ⟨s₂, hrest, hout₂⟩ := ih (fun j hj => hbody j (List.mem_cons_of_mem i hj)) s₁
      refine ⟨s₂, ?_, ?_⟩
      · rw [List.foldlM_cons, hfirst]
        exact hrest
      · rw [hout₂, hout₁, List.flatMap_cons, List.append_assoc]

/-- A scan whose body appends the entry of its column and row appends the frame. -/
theorem scan_appends (output : State → List α) {body : ℕ → ℕ → State → Option State}
    {f : ℕ → ℕ → α}
    (hbody : ∀ x y, x < width → y < height → ∀ s,
      ∃ s', body y x s = some s' ∧ output s' = output s ++ [f x y]) (s : State) :
    ∃ s', scan width height body s = some s' ∧
      output s' = output s ++ rowMajor width height f := by
  refine foldlM_appends output (fun y hy s => ?_) s
  have hround : ∀ x ∈ List.range width, ∀ s,
      ∃ s', body y x s = some s' ∧ output s' = output s ++ [f x y] := fun x hx =>
    hbody x y (List.mem_range.mp hx) (List.mem_range.mp hy)
  have hrow := foldlM_appends output hround s
  rwa [← List.map_eq_flatMap] at hrow

end CE213Lab.Foundation
