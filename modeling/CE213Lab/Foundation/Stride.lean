import Mathlib.Data.List.Infix
import Mathlib.Data.List.Nodup
import Mathlib.Data.Nat.ModEq

/-!
# Strided address sequences

`strideAt base step n` is the `n`-th address of a walk that starts at `base` and advances by
`step`, in machine words that wrap around. A walk that stops on meeting the address `base + len`
exactly stays inside the region of `len` bytes when `step` divides `len`, and never meets it
when `step` divides the word size but not `len`.
-/

namespace CE213Lab.Foundation

variable {w : ℕ}

/-- The `n`-th address of the walk from `base` in strides of `step`. -/
def strideAt (base : BitVec w) (step n : ℕ) : BitVec w :=
  base + BitVec.ofNat w (step * n)

/-- The first `n` addresses of the walk. -/
def stride (base : BitVec w) (step n : ℕ) : List (BitVec w) :=
  (List.range n).map (strideAt base step)

/-- `address` lies in the `len` bytes from `base`, offsets taken modulo `2 ^ w`. -/
def InRegion (base len address : BitVec w) : Prop :=
  (address - base).toNat < len.toNat

instance (base len address : BitVec w) : Decidable (InRegion base len address) :=
  inferInstanceAs (Decidable (_ < _))

variable {base len : BitVec w} {step n : ℕ}

@[simp] theorem strideAt_zero : strideAt base step 0 = base := by
  simp [strideAt]

theorem strideAt_succ :
    strideAt base step n + BitVec.ofNat w step = strideAt base step (n + 1) := by
  rw [strideAt, strideAt, Nat.mul_succ, BitVec.ofNat_add, BitVec.add_assoc]

@[simp] theorem length_stride : (stride base step n).length = n := by
  simp [stride]

@[simp] theorem stride_zero : stride base step 0 = [] := rfl

theorem stride_succ : stride base step (n + 1) = stride base step n ++ [strideAt base step n] := by
  simp [stride, List.range_succ]

/-- A shorter walk is the beginning of a longer one. -/
theorem stride_begins {m : ℕ} (h : m ≤ n) : stride base step m <+: stride base step n := by
  have hrange : List.range m = (List.range n).take m := by
    rw [List.take_range, Nat.min_eq_left h]
  rw [stride, hrange]
  exact (List.take_prefix m (List.range n)).map (strideAt base step)

/-- The offset of the `n`-th address. -/
theorem toNat_strideAt_sub : (strideAt base step n - base).toNat = step * n % 2 ^ w := by
  rw [strideAt, BitVec.add_comm, BitVec.add_sub_cancel, BitVec.toNat_ofNat]

/-- A walk that does not go round the address space twice visits each address once. -/
theorem nodup_stride (hstep : 0 < step) (h : step * n ≤ 2 ^ w) : (stride base step n).Nodup := by
  refine List.Nodup.map_on ?_ List.nodup_range
  intro i hi j hj heq
  have hlt : ∀ k ∈ List.range n, step * k < 2 ^ w := fun k hk =>
    (Nat.mul_lt_mul_of_pos_left (List.mem_range.mp hk) hstep).trans_le h
  have hoffset := congrArg (fun a => (a - base).toNat) heq
  simp only [toNat_strideAt_sub, Nat.mod_eq_of_lt (hlt i hi), Nat.mod_eq_of_lt (hlt j hj)]
    at hoffset
  exact Nat.eq_of_mul_eq_mul_left hstep hoffset

/-- The walk meets the end of the region exactly when the offset walked is its length. -/
theorem strideAt_eq_end : base + len = strideAt base step n ↔ step * n % 2 ^ w = len.toNat := by
  rw [strideAt, BitVec.add_right_inj, ← BitVec.toNat_inj, BitVec.toNat_ofNat, eq_comm]

/-- Offsets short of the length are inside the region. -/
theorem in_region_of_lt (h : step * n < len.toNat) :
    InRegion base len (strideAt base step n) := by
  rw [InRegion, toNat_strideAt_sub, Nat.mod_eq_of_lt (h.trans len.isLt)]
  exact h

/-- When `step` divides the word size, every offset of the walk is a multiple of it. -/
theorem dvd_of_mod_eq (hstep : step ∣ 2 ^ w) (h : step * n % 2 ^ w = len.toNat) :
    step ∣ len.toNat := by
  rw [← h]
  exact (Nat.dvd_mod_iff hstep).mpr (Nat.dvd_mul_right step n)

end CE213Lab.Foundation
