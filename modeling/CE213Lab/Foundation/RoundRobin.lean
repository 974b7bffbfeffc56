import Mathlib.Data.BitVec
import Mathlib.Data.Nat.Find

/-!
# Round robin

Requesters stand on a ring of `n` places. `FirstFrom` is the requester nearest to a place, going
round, and `ahead_after_lt` says why serving the nearest and moving the place behind it starves
nobody: everyone passed over has come nearer. `first_from_circular` is the arithmetic that finds it
in a word: adding a one-hot word to the complement of the requests, written twice, carries up to
the first request from that place on.
-/

namespace CE213Lab.Foundation

/-! ## The ring -/

section Ring

variable {n first i j : ℕ} {request : ℕ → Bool}

/-- How far `i` lies ahead of `first` on a ring of `n` places. -/
def ahead (n first i : ℕ) : ℕ :=
  if first ≤ i then i - first else i + n - first

/-- The place behind `i`, where the next search begins. -/
def after (n i : ℕ) : ℕ :=
  if i + 1 = n then 0 else i + 1

theorem after_lt (hi : i < n) : after n i < n := by
  unfold after
  split <;> omega

theorem ahead_lt (hfirst : first < n) (hi : i < n) : ahead n first i < n := by
  unfold ahead
  split <;> omega

theorem eq_of_ahead_eq (hfirst : first < n) (hi : i < n) (hj : j < n)
    (h : ahead n first i = ahead n first j) : i = j := by
  unfold ahead at h
  split_ifs at h <;> omega

/-- Whoever lies behind the place just served has come nearer. -/
theorem ahead_after_lt (hfirst : first < n) (hi : i < n)
    (h : ahead n first j < ahead n first i) :
    ahead n (after n j) i < ahead n first i := by
  unfold ahead after at *
  split_ifs at h ⊢ <;> omega

/-- From the place served the others are no farther. -/
theorem ahead_self_le (hfirst : first < n) (hi : i < n)
    (h : ahead n first j ≤ ahead n first i) : ahead n j i ≤ ahead n first i := by
  unfold ahead at *
  split_ifs at h ⊢ <;> omega

/-- The place behind `i` is as far from `i` as can be. -/
theorem ahead_after_self (hi : i < n) : ahead n (after n i) i = n - 1 := by
  unfold ahead after
  split_ifs <;> omega

/-- `i` is the first requester from `first` on. -/
structure FirstFrom (request : ℕ → Bool) (n first i : ℕ) : Prop where
  lt : i < n
  requests : request i = true
  nearest : ∀ j < n, request j = true → ahead n first i ≤ ahead n first j

theorem FirstFrom.unique (hfirst : first < n) (hi : FirstFrom request n first i)
    (hj : FirstFrom request n first j) : i = j :=
  eq_of_ahead_eq hfirst hi.lt hj.lt
    (le_antisymm (hi.nearest j hj.lt hj.requests) (hj.nearest i hi.lt hi.requests))

/-- If anyone requests, someone is first. -/
theorem exists_first_from (hj : j < n) (hrequest : request j = true) :
    ∃ i, FirstFrom request n first i := by
  have hsome : ∃ d, ∃ i < n, request i = true ∧ ahead n first i = d := ⟨_, j, hj, hrequest, rfl⟩
  classical
  obtain ⟨i, hi, hri, heq⟩ := Nat.find_spec hsome
  exact ⟨i, hi, hri, fun k hk hrk => heq ▸ Nat.find_min' hsome ⟨k, hk, hrk, rfl⟩⟩

end Ring

/-! ## The first set bit from a place on -/

section Bits

variable {w n k i : ℕ}

/-- Adding the bit `k` to a complement carries up to the first set bit from `k` on. -/
theorem carry_not_twoPow (x : BitVec w) (hk : k < w) (hi : i ≤ w) :
    BitVec.carry i (~~~x) (BitVec.twoPow w k) false = true ↔
      k < i ∧ ∀ j, k ≤ j → j < i → x.getLsbD j = false := by
  induction i with
  | zero => simp
  | succ i ih =>
      have hcarry := ih (by omega)
      have hnot : (~~~x).getLsbD i = !x.getLsbD i := by
        simp [show i < w by omega]
      have hbit : (BitVec.twoPow w k).getLsbD i = decide (k = i) := by
        simp [BitVec.getLsbD_twoPow, hk]
      rw [BitVec.carry_succ, hnot, hbit]
      rcases Nat.lt_trichotomy k i with hlt | rfl | hgt
      · -- past the added bit the carry goes on through the clear bits
        have hne : decide (k = i) = false := decide_eq_false (by omega)
        rw [hne]
        cases hx : x.getLsbD i with
        | true =>
            refine ⟨fun h => by simp [Bool.atLeastTwo] at h, fun ⟨_, h⟩ => ?_⟩
            exact absurd (hx.symm.trans (h i (by omega) (by omega))) (by decide)
        | false =>
            have hthis : Bool.atLeastTwo (!false) false
                (BitVec.carry i (~~~x) (BitVec.twoPow w k) false) =
                  BitVec.carry i (~~~x) (BitVec.twoPow w k) false := by
              simp [Bool.atLeastTwo]
            rw [hthis, hcarry]
            refine ⟨fun ⟨_, h⟩ => ⟨by omega, fun j hkj hji => ?_⟩,
              fun ⟨_, h⟩ => ⟨hlt, fun j hkj hji => h j hkj (by omega)⟩⟩
            rcases Nat.lt_succ_iff_lt_or_eq.mp hji with hji | rfl
            · exact h j hkj hji
            · exact hx
      · -- the added bit itself: it carries if the bit there is clear
        have hnone : BitVec.carry k (~~~x) (BitVec.twoPow w k) false = false := by
          rw [Bool.eq_false_iff, Ne, hcarry]
          exact fun h => absurd h.1 (lt_irrefl k)
        rw [hnone, decide_eq_true rfl]
        have honly : (∀ j, k ≤ j → j < k + 1 → x.getLsbD j = false) ↔ x.getLsbD k = false :=
          ⟨fun h => h k le_rfl (Nat.lt_succ_self k), fun h j hkj hjk => by
            rwa [show j = k by omega]⟩
        rw [honly]
        cases x.getLsbD k <;> simp [Bool.atLeastTwo]
      · have hnone : BitVec.carry i (~~~x) (BitVec.twoPow w k) false = false := by
          rw [Bool.eq_false_iff, Ne, hcarry]
          exact fun h => by omega
        rw [hnone, decide_eq_false (by omega)]
        simp only [Bool.atLeastTwo, Bool.and_false, Bool.or_self, Bool.false_eq_true, false_iff]
        omega

/-- What is left of `x` by the sum is its first set bit from `k` on. -/
theorem getLsbD_isolate (x : BitVec w) (hk : k < w) (hi : i < w) :
    (x &&& (~~~x + BitVec.twoPow w k)).getLsbD i = true ↔
      k ≤ i ∧ x.getLsbD i = true ∧ ∀ j, k ≤ j → j < i → x.getLsbD j = false := by
  rw [BitVec.getLsbD_and, Bool.and_eq_true, BitVec.getLsbD_add hi, BitVec.getLsbD_not,
    decide_eq_true hi, Bool.true_and, BitVec.getLsbD_twoPow, decide_eq_true hk, Bool.true_and]
  have hcarry := carry_not_twoPow x hk hi.le
  cases hx : x.getLsbD i with
  | false => simp
  | true =>
      rcases Nat.lt_trichotomy k i with hlt | rfl | hgt
      · rw [decide_eq_false (show k ≠ i by omega)]
        simp only [Bool.not_true, Bool.false_bne, true_and, hcarry]
        exact ⟨fun ⟨_, h⟩ => ⟨hlt.le, h⟩, fun ⟨_, h⟩ => ⟨hlt, h⟩⟩
      · have hnone : BitVec.carry k (~~~x) (BitVec.twoPow w k) false = false := by
          rw [Bool.eq_false_iff, Ne, hcarry]
          exact fun h => absurd h.1 (lt_irrefl k)
        rw [hnone]
        simp only [decide_true, Bool.not_true, Bool.bne_false, Bool.false_bne, le_refl, true_and,
          true_iff]
        exact fun j hkj hjk => by omega
      · have hnone : BitVec.carry i (~~~x) (BitVec.twoPow w k) false = false := by
          rw [Bool.eq_false_iff, Ne, hcarry]
          exact fun h => by omega
        rw [hnone, decide_eq_false (show k ≠ i by omega)]
        simp only [Bool.not_true, Bool.bne_false, Bool.false_eq_true, and_false, false_iff]
        omega

/-- The first set bit from `k` on, going round: the sum over the word written twice, its two halves
put together. -/
def circular (x : BitVec n) (k : ℕ) : BitVec n :=
  let isolated := (x ++ x) &&& (~~~(x ++ x) + BitVec.twoPow (n + n) k)
  isolated.extractLsb' 0 n ||| isolated.extractLsb' n n

theorem getLsbD_twice (x : BitVec n) (j : ℕ) :
    (x ++ x).getLsbD j = if j < n then x.getLsbD j else x.getLsbD (j - n) :=
  BitVec.getLsbD_append

/-- The lower half finds the first requester if it lies at or above `k`. -/
theorem isolate_low (x : BitVec n) (hk : k < n) (hi : i < n) :
    ((x ++ x) &&& (~~~(x ++ x) + BitVec.twoPow (n + n) k)).getLsbD i = true ↔
      k ≤ i ∧ FirstFrom x.getLsbD n k i := by
  rw [getLsbD_isolate _ (by omega) (by omega), getLsbD_twice, if_pos hi]
  refine and_congr_right fun hki => ⟨fun ⟨hx, hclear⟩ => ⟨hi, hx, fun j hj hrequest => ?_⟩,
    fun h => ⟨h.requests, fun j hkj hji => ?_⟩⟩
  · by_contra hless
    have hbefore : k ≤ j ∧ j < i := by
      unfold ahead at hless
      split_ifs at hless <;> omega
    have hclear := hclear j hbefore.1 hbefore.2
    rw [getLsbD_twice, if_pos hj, hrequest] at hclear
    exact Bool.false_ne_true hclear.symm
  · rw [getLsbD_twice, if_pos (hji.trans hi), Bool.eq_false_iff]
    intro hrequest
    have hle := h.nearest j (hji.trans hi) hrequest
    unfold ahead at hle
    split_ifs at hle
    omega

/-- The upper half finds it if it lies below `k`. -/
theorem isolate_high (x : BitVec n) (hk : k < n) (hi : i < n) :
    ((x ++ x) &&& (~~~(x ++ x) + BitVec.twoPow (n + n) k)).getLsbD (n + i) = true ↔
      i < k ∧ FirstFrom x.getLsbD n k i := by
  have hwrap : (x ++ x).getLsbD (n + i) = x.getLsbD i := by
    rw [getLsbD_twice, if_neg (by omega), Nat.add_sub_cancel_left]
  rw [getLsbD_isolate _ (by omega) (by omega), hwrap]
  refine ⟨fun ⟨_, hx, hclear⟩ => ?_, fun ⟨hik, h⟩ => ⟨by omega, h.requests, fun j hkj hji => ?_⟩⟩
  · have hik : i < k := by
      by_contra hge
      have hclear := hclear i (Nat.le_of_not_lt hge) (by omega)
      rw [getLsbD_twice, if_pos hi, hx] at hclear
      exact Bool.false_ne_true hclear.symm
    refine ⟨hik, hi, hx, fun j hj hrequest => ?_⟩
    by_contra hless
    have hbefore : (k ≤ j ∧ j < n) ∨ j < i := by
      unfold ahead at hless
      split_ifs at hless <;> omega
    rcases hbefore with ⟨hkj, hjn⟩ | hji
    · have hclear := hclear j hkj (by omega)
      rw [getLsbD_twice, if_pos hj, hrequest] at hclear
      exact Bool.false_ne_true hclear.symm
    · have hclear := hclear (n + j) (by omega) (by omega)
      rw [getLsbD_twice, if_neg (by omega), Nat.add_sub_cancel_left, hrequest] at hclear
      exact Bool.false_ne_true hclear.symm
  · -- a bit passed over on the way is that of a nearer requester
    rw [getLsbD_twice, Bool.eq_false_iff]
    intro hrequest
    split at hrequest
    · rename_i hjn
      have hle := h.nearest j hjn hrequest
      unfold ahead at hle
      split_ifs at hle <;> omega
    · have hle := h.nearest (j - n) (by omega) hrequest
      unfold ahead at hle
      split_ifs at hle <;> omega

/-- It is the bit of the first requester. -/
theorem getLsbD_circular (x : BitVec n) (hk : k < n) (hi : i < n) :
    (circular x k).getLsbD i = true ↔ FirstFrom x.getLsbD n k i := by
  have hor : (circular x k).getLsbD i = true ↔
      ((x ++ x) &&& (~~~(x ++ x) + BitVec.twoPow (n + n) k)).getLsbD i = true ∨
        ((x ++ x) &&& (~~~(x ++ x) + BitVec.twoPow (n + n) k)).getLsbD (n + i) = true := by
    simp only [circular, BitVec.getLsbD_or, BitVec.getLsbD_extractLsb', Nat.zero_add, hi,
      decide_true, Bool.true_and, Bool.or_eq_true]
  rw [hor, isolate_low x hk hi, isolate_high x hk hi, ← or_and_right]
  exact and_iff_right (le_or_gt k i)

end Bits

end CE213Lab.Foundation
