import Mathlib.Data.Nat.Basic
import Mathlib.Order.Basic

/-!
# Latches

A register that takes the value of its source on some edges and keeps its own on all others. It
shows what the source was on the latest edge that loaded it, or its first value if there was none
(`Latches.value_eq_iff`).
-/

namespace CE213Lab.Foundation

variable {α : Type*} {value source : ℕ → α} {loads : ℕ → Prop} {t u : ℕ}

/-- `value` is a register that the edges in `loads` load from `source`. -/
structure Latches (value source : ℕ → α) (loads : ℕ → Prop) : Prop where
  load : ∀ t, loads t → value (t + 1) = source t
  hold : ∀ t, ¬ loads t → value (t + 1) = value t

/-- The latest of the `loads` before `t` is at `u`. -/
def Latest (loads : ℕ → Prop) (t u : ℕ) : Prop :=
  u < t ∧ loads u ∧ ∀ v, u < v → v < t → ¬ loads v

/-- There has been none, or there is a latest. -/
theorem none_or_latest (loads : ℕ → Prop) (t : ℕ) :
    (∀ u < t, ¬ loads u) ∨ ∃ u, Latest loads t u := by
  induction t with
  | zero => exact .inl fun u hlt => absurd hlt (Nat.not_lt_zero u)
  | succ t ih =>
      by_cases hload : loads t
      · exact .inr ⟨t, Nat.lt_succ_self t, hload, fun v hlt hle => by omega⟩
      · rcases ih with hnone | ⟨u, hlt, hu, hlater⟩
        · refine .inl fun u hlt => ?_
          rcases Nat.lt_succ_iff_lt_or_eq.mp hlt with hlt | rfl
          · exact hnone u hlt
          · exact hload
        · refine .inr ⟨u, by omega, hu, fun v huv hvt => ?_⟩
          rcases Nat.lt_succ_iff_lt_or_eq.mp hvt with hvt | rfl
          · exact hlater v huv hvt
          · exact hload

namespace Latches

/-- Edges that do not load leave the register as it is. -/
theorem stable (h : Latches value source loads) (hle : u ≤ t)
    (hnone : ∀ v, u ≤ v → v < t → ¬ loads v) : value t = value u := by
  induction t, hle using Nat.le_induction with
  | base => rfl
  | succ t hle ih =>
      rw [h.hold t (hnone t hle (Nat.lt_succ_self t))]
      exact ih fun v huv hvt => hnone v huv (by omega)

theorem value_of_latest (h : Latches value source loads) (hlatest : Latest loads t u) :
    value t = source u := by
  obtain ⟨hlt, hload, hlater⟩ := hlatest
  rw [h.stable (Nat.succ_le_of_lt hlt) fun v huv hvt => hlater v huv hvt]
  exact h.load u hload

/-- What the register shows. -/
theorem value_eq_iff (h : Latches value source loads) {c : α} :
    value t = c ↔
      (∃ u, Latest loads t u ∧ source u = c) ∨ ((∀ u < t, ¬ loads u) ∧ value 0 = c) := by
  refine ⟨fun heq => ?_, ?_⟩
  · rcases none_or_latest loads t with hnone | ⟨u, hlatest⟩
    · refine .inr ⟨hnone, ?_⟩
      rw [← heq]
      exact (h.stable (Nat.zero_le t) fun v _ hvt => hnone v hvt).symm
    · exact .inl ⟨u, hlatest, (h.value_of_latest hlatest).symm.trans heq⟩
  · rintro (⟨u, hlatest, heq⟩ | ⟨hnone, heq⟩)
    · exact (h.value_of_latest hlatest).trans heq
    · exact (h.stable (Nat.zero_le t) fun v _ hvt => hnone v hvt).trans heq

end Latches

end CE213Lab.Foundation
