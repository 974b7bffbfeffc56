import CE213Lab.Foundation.Machine
import Mathlib.Data.BitVec

/-!
# The clock divider

`clock_divider.v`: the output toggles every 25000000 cycles of the fast clock, counted from the
latest reset, which does not wait for the clock. The main theorem is `divides`.
-/

namespace CE213Lab.StudentIDSM

open Foundation

namespace ClockDivider

structure State where
  count : BitVec 26
  clkOut : Bool

def toggleValue : ℕ := 25000000

/-- What the process waits for: a rising edge of the fast clock, where it reads `rst_n`, or the
falling edge of `rst_n`. -/
inductive Event where
  | posedgeClk50 (rstN : Bool)
  | negedgeRstN

/-- The level of `rst_n` at the event. -/
def Event.rstN : Event → Bool
  | posedgeClk50 rstN => rstN
  | negedgeRstN => false

def step (event : Event) (s : State) : State :=
  if !event.rstN then ⟨0, false⟩
  else if s.count = BitVec.ofNat 26 (toggleValue - 1) then ⟨0, !s.clkOut⟩
  else { s with count := s.count + 1 }

def machine : Machine Event State := ⟨step⟩

/-- The cycles counted and the half periods completed make up the cycles since the reset. -/
structure Counts (n : ℕ) (s : State) : Prop where
  count : s.count.toNat = n % toggleValue
  clkOut : s.clkOut = decide (n / toggleValue % 2 = 1)

theorem counts_reset {event : Event} (hreset : event.rstN = false) (s : State) :
    Counts 0 (step event s) := by
  rw [step, hreset]
  exact ⟨rfl, rfl⟩

theorem Counts.succ {n : ℕ} {s : State} {event : Event} (h : Counts n s)
    (hrunning : event.rstN = true) : Counts (n + 1) (step event s) := by
  have hcount := h.count
  have hmax : (BitVec.ofNat 26 (toggleValue - 1)).toNat = toggleValue - 1 := by decide
  have htoggle : s.count = BitVec.ofNat 26 (toggleValue - 1) ↔
      n % toggleValue = toggleValue - 1 := by
    rw [← BitVec.toNat_inj, hmax, hcount]
  rw [step, hrunning, if_neg (by decide)]
  by_cases hlast : n % toggleValue = toggleValue - 1
  · rw [if_pos (htoggle.mpr hlast)]
    refine ⟨?_, ?_⟩
    · show 0 = (n + 1) % toggleValue
      unfold toggleValue at *
      omega
    · show (!s.clkOut) = _
      rw [h.clkOut, ← decide_not, decide_eq_decide]
      unfold toggleValue at *
      omega
  · rw [if_neg (mt htoggle.mp hlast)]
    refine ⟨?_, ?_⟩
    · show (s.count + 1).toNat = _
      rw [BitVec.toNat_add, hcount]
      unfold toggleValue at *
      simp only [BitVec.reduceToNat]
      omega
    · show s.clkOut = _
      rw [h.clkOut, decide_eq_decide]
      unfold toggleValue at *
      omega

/-- From a reset on the counter stays below its end, so the increment never overflows. -/
theorem Counts.count_lt {n : ℕ} {s : State} (h : Counts n s) :
    s.count.toNat < toggleValue ∧ (s.count + 1).toNat = s.count.toNat + 1 := by
  have hlt : s.count.toNat < toggleValue := by
    rw [h.count]
    exact Nat.mod_lt n (by decide)
  refine ⟨hlt, ?_⟩
  rw [BitVec.toNat_add]
  unfold toggleValue at hlt
  simp only [BitVec.reduceToNat]
  omega

variable (e : Execution machine) {t : ℕ}

/-- Every state after a reset counts the edges since the latest one. -/
theorem exists_counts (hreset : (e.input t).rstN = false) (u : ℕ) (hlt : t < u) :
    ∃ n, Counts n (e.state u) := by
  induction u, hlt using Nat.le_induction with
  | base =>
      rw [e.state_succ]
      exact ⟨0, counts_reset hreset _⟩
  | succ u _ ih =>
      obtain ⟨n, hn⟩ := ih
      rw [e.state_succ]
      cases hrst : (e.input u).rstN with
      | false => exact ⟨0, counts_reset hrst _⟩
      | true => exact ⟨n + 1, hn.succ hrst⟩

/-- In every run, `n` edges after the latest reset the counter has counted them up to its end, and
the output is high exactly in the odd half periods. The counter never overflows. -/
theorem divides (hreset : (e.input t).rstN = false) :
    (∀ u, t < u → (e.state u).count.toNat < toggleValue ∧
      ((e.state u).count + 1).toNat = (e.state u).count.toNat + 1) ∧
    ∀ n, (∀ k < n, e.input (t + 1 + k) = .posedgeClk50 true) →
      (e.state (t + 1 + n)).count.toNat = n % toggleValue ∧
        (e.state (t + 1 + n)).clkOut = decide (n / toggleValue % 2 = 1) := by
  refine ⟨fun u hlt => ?_, fun n hrunning => ?_⟩
  · obtain ⟨n, hn⟩ := exists_counts e hreset u hlt
    exact hn.count_lt
  · have hcounts : ∀ m ≤ n, Counts m (e.state (t + 1 + m)) := by
      intro m hm
      induction m with
      | zero =>
          rw [Nat.add_zero, e.state_succ]
          exact counts_reset hreset _
      | succ m ih =>
          rw [← Nat.add_assoc, e.state_succ]
          exact (ih (Nat.le_of_succ_le hm)).succ (by rw [hrunning m hm]; rfl)
    exact ⟨(hcounts n le_rfl).count, (hcounts n le_rfl).clkOut⟩

/-- Reset between two edges and running from then on. -/
def released : Execution machine :=
  drive machine (fun t (_ : Unit) => if t = 0 then .negedgeRstN else .posedgeClk50 true)
    (fun _ _ _ => ()) ⟨0, true⟩ ()

/-- After half a second at 50 MHz. -/
theorem divides_released :
    (∀ u, 0 < u → (released.state u).count.toNat < toggleValue ∧
      ((released.state u).count + 1).toNat = (released.state u).count.toNat + 1) ∧
    (released.state (0 + 1 + toggleValue)).count.toNat = toggleValue % toggleValue ∧
      (released.state (0 + 1 + toggleValue)).clkOut =
        decide (toggleValue / toggleValue % 2 = 1) :=
  (divides released rfl).imp id fun h => h toggleValue fun k _ => if_neg (by omega)

end ClockDivider

end CE213Lab.StudentIDSM
