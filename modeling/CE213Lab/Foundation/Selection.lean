import Mathlib.Data.List.Sort

/-!
# Selection by rank

`select l k` is the `k`-th smallest entry of a list, counted from zero and with multiplicity.
It is characterised by thresholds: `v` is the `n`-th largest entry of `l` when, for every `t`,
`v` reaches `t` exactly if at least `n` entries do. Selection networks are proved correct with
this characterisation, since each comparator turns it into a count of zeros and ones.
`nth_largest_of_rows` does so for the network that selects the median of nine from three sorted
rows.
-/

namespace CE213Lab.Foundation

variable {α : Type*} [LinearOrder α]

/-- The `k`-th smallest entry, counted from zero and with multiplicity. -/
def select (l : List α) (k : ℕ) : Option α :=
  (l.mergeSort (· ≤ ·))[k]?

/-- The number of entries that reach `t`. -/
def reaching (t : α) (l : List α) : ℕ :=
  l.countP (t ≤ ·)

/-- `v` is the `n`-th largest entry of `l`: it reaches the thresholds that `n` entries reach. -/
def NthLargest (l : List α) (n : ℕ) (v : α) : Prop :=
  ∀ t, t ≤ v ↔ n ≤ reaching t l

variable {l l' : List α} {n k : ℕ} {v w t : α}

@[simp] theorem reaching_nil : reaching t [] = 0 := rfl

theorem reaching_cons : reaching t (v :: l) = reaching t l + if t ≤ v then 1 else 0 := by
  simp [reaching, List.countP_cons]

theorem reaching_append : reaching t (l ++ l') = reaching t l + reaching t l' :=
  List.countP_append

theorem reaching_le_length : reaching t l ≤ l.length :=
  List.countP_le_length

theorem exists_select (hk : k < l.length) : ∃ v, select l k = some v :=
  ⟨_, List.getElem?_eq_getElem (by rwa [List.length_mergeSort])⟩

/-- The `n`-th largest entry is unique. -/
theorem NthLargest.unique (hv : NthLargest l n v) (hw : NthLargest l n w) : v = w :=
  eq_of_forall_le_iff fun t => (hv t).trans (hw t).symm

/-- Order does not matter. -/
theorem NthLargest.perm (h : NthLargest l n v) (hperm : l.Perm l') : NthLargest l' n v := by
  intro t
  rw [h t, reaching, reaching, hperm.countP_eq]

/-- In a sorted list the entries that reach a threshold are at its end. -/
theorem nth_largest_of_sorted (hsorted : l.Pairwise (· ≤ ·)) (hk : k < l.length) :
    NthLargest l (l.length - k) l[k] := by
  intro t
  induction l generalizing k with
  | nil => simp at hk
  | cons head tail ih =>
      obtain ⟨hhead, htail⟩ := List.pairwise_cons.mp hsorted
      rw [reaching_cons, List.length_cons]
      cases k with
      | zero =>
          have hle := reaching_le_length (t := t) (l := tail)
          by_cases hreaches : t ≤ head
          · have hall : reaching t tail = tail.length :=
              List.countP_eq_length.mpr fun x hx => by simpa using hreaches.trans (hhead x hx)
            simp [hreaches, hall]
          · simp only [hreaches, if_false, List.getElem_cons_zero, false_iff]
            omega
      | succ k =>
          have hk : k < tail.length := Nat.lt_of_succ_lt_succ hk
          rw [List.getElem_cons_succ, Nat.add_sub_add_right]
          by_cases hreaches : t ≤ head
          · have hentry : t ≤ tail[k] := hreaches.trans (hhead _ (List.getElem_mem hk))
            have hcount := (ih htail hk).mp hentry
            simp only [hentry, hreaches, if_true, true_iff]
            omega
          · simpa [hreaches] using ih htail hk

/-- Selecting from a list finds its `n`-th largest entry, for the complementary `n`. -/
theorem select_eq_some (hk : k < l.length) (h : NthLargest l (l.length - k) v) :
    select l k = some v := by
  have hlength : (l.mergeSort (· ≤ ·)).length = l.length := List.length_mergeSort l
  have hk' : k < (l.mergeSort (· ≤ ·)).length := by rwa [hlength]
  have hsorted := nth_largest_of_sorted (List.pairwise_mergeSort' (· ≤ ·) l) hk'
  rw [hlength] at hsorted
  rw [select, List.getElem?_eq_getElem hk', (hsorted.perm (List.mergeSort_perm l _)).unique h]

/-! ## Three entries -/

/-- The largest of three. -/
theorem nth_largest_one {a b c : α} (h : ∀ t, t ≤ v ↔ t ≤ a ∨ t ≤ b ∨ t ≤ c) :
    NthLargest [a, b, c] 1 v := by
  intro t
  rw [h t]
  simp only [reaching_cons, reaching_nil]
  split_ifs <;> simp_all

/-- The smallest of three. -/
theorem nth_largest_three {a b c : α} (h : ∀ t, t ≤ v ↔ t ≤ a ∧ t ≤ b ∧ t ≤ c) :
    NthLargest [a, b, c] 3 v := by
  intro t
  rw [h t]
  simp only [reaching_cons, reaching_nil]
  split_ifs <;> simp_all

/-- The largest, the middle and the smallest of three entries. -/
structure Ranked (l : List α) (max med min : α) : Prop where
  max : NthLargest l 1 max
  med : NthLargest l 2 med
  min : NthLargest l 3 min

/-- Three entries in ascending order rank every arrangement of them. -/
theorem ranked_of_perm {max med min : α} (hperm : [min, med, max].Perm l) (hlow : min ≤ med)
    (hhigh : med ≤ max) : Ranked l max med min := by
  have hsorted : [min, med, max].Pairwise (· ≤ ·) := by
    simp [hlow, hhigh, hlow.trans hhigh]
  exact ⟨(nth_largest_of_sorted (k := 2) hsorted (by simp)).perm hperm,
    (nth_largest_of_sorted (k := 1) hsorted (by simp)).perm hperm,
    (nth_largest_of_sorted (k := 0) hsorted (by simp)).perm hperm⟩

/-- The median of the middle entries' median, the smallest entries' maximum and the largest
entries' minimum of three rows is the median of all nine. -/
theorem nth_largest_of_rows {row₁ row₂ row₃ : List α} {max₁ med₁ min₁ max₂ med₂ min₂ max₃ med₃ min₃
    cand₁ cand₂ cand₃ : α} (hlength₁ : row₁.length = 3) (hlength₂ : row₂.length = 3)
    (hlength₃ : row₃.length = 3) (hrow₁ : Ranked row₁ max₁ med₁ min₁)
    (hrow₂ : Ranked row₂ max₂ med₂ min₂) (hrow₃ : Ranked row₃ max₃ med₃ min₃)
    (hcand₁ : NthLargest [med₁, med₂, med₃] 2 cand₁)
    (hcand₂ : NthLargest [min₁, min₂, min₃] 1 cand₂)
    (hcand₃ : NthLargest [max₁, max₂, max₃] 3 cand₃)
    (hmedian : NthLargest [cand₁, cand₂, cand₃] 2 v) :
    NthLargest (row₁ ++ row₂ ++ row₃) 5 v := by
  intro t
  have h₁ := reaching_le_length (t := t) (l := row₁)
  have h₂ := reaching_le_length (t := t) (l := row₂)
  have h₃ := reaching_le_length (t := t) (l := row₃)
  rw [hmedian t, reaching_append, reaching_append]
  simp only [reaching_cons, reaching_nil, hcand₁ t, hcand₂ t, hcand₃ t, hrow₁.max t, hrow₁.med t,
    hrow₁.min t, hrow₂.max t, hrow₂.med t, hrow₂.min t, hrow₃.max t, hrow₃.med t, hrow₃.min t]
  grind

end CE213Lab.Foundation
