import Mathlib.Data.Nat.Basic
import Mathlib.Order.Basic

/-!
# Progress along a run

`LeadsTo P Q` says that a cycle in which `P` holds is followed, at once or later, by a cycle
in which `Q` holds. Predicates are over cycle numbers, so that they can speak of the
registers, the inputs and the history variables of one run together.
-/

namespace CE213Lab.Foundation

variable {P Q R S fair : ℕ → Prop}

/-- Every cycle with `P` has `Q` in it or in a later one. -/
def LeadsTo (P Q : ℕ → Prop) : Prop :=
  ∀ t, P t → ∃ u, t ≤ u ∧ Q u

/-- `P` holds again and again. -/
def InfinitelyOften (P : ℕ → Prop) : Prop :=
  ∀ t, ∃ u, t ≤ u ∧ P u

namespace LeadsTo

theorem trans (hpq : LeadsTo P Q) (hqr : LeadsTo Q R) : LeadsTo P R := by
  intro t hp
  obtain ⟨u, htu, hq⟩ := hpq t hp
  obtain ⟨v, huv, hr⟩ := hqr u hq
  exact ⟨v, htu.trans huv, hr⟩

/-- One edge takes `P` to `Q`. -/
theorem of_next (h : ∀ t, P t → Q (t + 1)) : LeadsTo P Q :=
  fun t hp => ⟨t + 1, Nat.le_succ t, h t hp⟩

/-- `P` waits for a cycle in which `fair` holds, and that cycle's edge establishes `Q`. -/
theorem of_fair (hfair : InfinitelyOften fair) (hwait : ∀ t, P t → ¬ fair t → P (t + 1))
    (hstep : ∀ t, P t → fair t → Q (t + 1)) : LeadsTo P Q := by
  -- induction on the distance to a cycle in which `fair` is known to hold
  have hwithin : ∀ distance t, P t → fair (t + distance) → ∃ u, t ≤ u ∧ Q u := by
    intro distance
    induction distance with
    | zero => exact fun t hp hf => ⟨t + 1, Nat.le_succ t, hstep t hp hf⟩
    | succ distance ih =>
        intro t hp hf
        by_cases hnow : fair t
        · exact ⟨t + 1, Nat.le_succ t, hstep t hp hnow⟩
        · obtain ⟨u, hle, hq⟩ := ih (t + 1) (hwait t hp hnow) (by
            rwa [Nat.add_right_comm, Nat.add_assoc])
          exact ⟨u, by omega, hq⟩
  intro t hp
  obtain ⟨v, hle, hf⟩ := hfair t
  exact hwithin (v - t) t hp (by rwa [Nat.add_sub_cancel' hle])

/-- Progress by a measure: every cycle with `P` leads to the goal or to `P` with a smaller
measure. -/
theorem of_measure (measure : ℕ → ℕ)
    (h : ∀ n, LeadsTo (fun t => P t ∧ measure t = n)
      (fun t => Q t ∨ P t ∧ measure t < n)) : LeadsTo P Q := by
  have hall : ∀ n t, P t → measure t = n → ∃ u, t ≤ u ∧ Q u := by
    intro n
    induction n using Nat.strong_induction_on with
    | _ n ih =>
        intro t hp hn
        obtain ⟨u, htu, hq | ⟨hp', hlt⟩⟩ := h n t ⟨hp, hn⟩
        · exact ⟨u, htu, hq⟩
        · obtain ⟨v, huv, hq⟩ := ih _ hlt u hp' rfl
          exact ⟨v, htu.trans huv, hq⟩
  exact fun t hp => hall _ t hp rfl

end LeadsTo

/-! ## How long a condition has held -/

/-- The number of cycles before `t` the condition has held in without a break. -/
def age (p : ℕ → Bool) : ℕ → ℕ
  | 0 => 0
  | t + 1 => if p t then age p t + 1 else 0

section Age

variable {p : ℕ → Bool} {k t : ℕ}

theorem age_succ_of_true (h : p t = true) : age p (t + 1) = age p t + 1 :=
  if_pos h

theorem age_succ_of_false (h : p t = false) : age p (t + 1) = 0 :=
  if_neg (by simp [h])

/-- The condition has held in each of those cycles. -/
theorem age_holds (t : ℕ) : age p t ≤ t ∧ ∀ u, t ≤ u + age p t → u < t → p u = true := by
  induction t with
  | zero => exact ⟨le_rfl, fun u _ hlt => absurd hlt (Nat.not_lt_zero u)⟩
  | succ t ih =>
      cases hp : p t with
      | false =>
          rw [age_succ_of_false hp]
          exact ⟨Nat.zero_le _, fun u hle hlt => by omega⟩
      | true =>
          rw [age_succ_of_true hp]
          refine ⟨Nat.succ_le_succ ih.1, fun u hle hlt => ?_⟩
          rcases Nat.lt_succ_iff_lt_or_eq.mp hlt with hlt | rfl
          · exact ih.2 u (by omega) hlt
          · exact hp

/-- A condition that never holds for more than `k` cycles in a row is never older. -/
theorem age_le (h : ∀ t, p t = true → ∃ u, t ≤ u ∧ u ≤ t + k ∧ p u = false) : age p t ≤ k := by
  obtain ⟨hle, hheld⟩ := age_holds (p := p) t
  by_contra hlong
  obtain ⟨u, hfirst, hlast, hu⟩ := h (t - age p t) (hheld _ (by omega) (by omega))
  exact absurd (hu.symm.trans (hheld u (by omega) (by omega))) Bool.false_ne_true

end Age

/-- What is held from cycle to cycle until something is done is held in the first cycle in which it
is done. -/
theorem exists_held_until {α : Type*} (x : ℕ → α) (Offered : α → Prop) (done : ℕ → Prop)
    (hkeep : ∀ t, Offered (x t) → ¬ done t → x (t + 1) = x t) {t u : ℕ} (hoffered : Offered (x t))
    (hle : t ≤ u) (hdone : done u) : ∃ v, t ≤ v ∧ v ≤ u ∧ done v ∧ x v = x t := by
  obtain ⟨d, rfl⟩ := Nat.exists_eq_add_of_le hle
  induction d generalizing t with
  | zero => exact ⟨t, le_rfl, le_rfl, hdone, rfl⟩
  | succ d ih =>
      by_cases hnow : done t
      · exact ⟨t, le_rfl, hle, hnow, rfl⟩
      · have hsame : x (t + 1) = x t := hkeep t hoffered hnow
        obtain ⟨v, hlow, hhigh, hv, heq⟩ := ih (t := t + 1) (by rwa [hsame])
          (Nat.le_add_right _ _) (by rwa [Nat.add_right_comm, Nat.add_assoc])
        exact ⟨v, by omega, by omega, hv, heq.trans hsame⟩

end CE213Lab.Foundation
