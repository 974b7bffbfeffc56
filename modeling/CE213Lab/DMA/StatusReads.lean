import CE213Lab.DMA.Accesses

/-!
# What a status read returns

`DMA_hw.tcl` declares the control interface with read latency 0 and no wait states, so a read
returns the read data as it stands in the read cycle itself. The control slave loads it at the end
of that cycle only. A read therefore returns the status of the latest read before it, which is the
present one only if the status has come back to it or has not changed. The main theorem is
`reads_current_iff`.
-/

namespace CE213Lab.DMA

open Foundation DMAFinal

namespace Run

variable {r : Run} {t : ℕ}

/-- The value a read in cycle `t` returns: the read data at the edge that ends the cycle. -/
def obtained (r : Run) (t : ℕ) : Word :=
  (r.state t).control.oReaddata

/-- Every read of register 7 returns the status of its own cycle. -/
def ReadsCurrent (r : Run) : Prop :=
  ∀ t, PresentsRead (r.input t) → r.obtained t = (r.state t).control.status

/-- In the cycle of the latest read performed before `t` the status was that of cycle `t`. If none
has been performed since the reset, the status of cycle `t` is 0. -/
def StatusAsLastRead (r : Run) (t : ℕ) : Prop :=
  (∃ u, Latest r.PerformsRead t u ∧
      (r.state u).control.status = (r.state t).control.status) ∨
    (∀ u < t, ¬ r.PerformsRead u) ∧ (r.state t).control.status = 0

theorem obtained_eq_status_iff :
    r.obtained t = (r.state t).control.status ↔ r.StatusAsLastRead t := by
  have hzero : (r.state 0).control.oReaddata = 0 := by
    rw [r.cleared.control]
  have hshown := r.readdata_latches.value_eq_iff (t := t) (c := (r.state t).control.status)
  rw [hzero, eq_comm (a := (0 : Word))] at hshown
  exact hshown

/-- A run's reads are current exactly when each of them finds the status as the read before it. -/
theorem reads_current_iff (r : Run) :
    r.ReadsCurrent ↔ ∀ t, PresentsRead (r.input t) → r.StatusAsLastRead t :=
  forall_congr' fun _ => imp_congr_right fun _ => obtained_eq_status_iff

/-- In the cycle of the start pulse the status is BUSY and the read returns 0. -/
theorem stale_read :
    PresentsRead (polled.input 5) ∧ polled.obtained 5 = 0 ∧ (polled.state 5).control.status = 2 ∧
      ¬ polled.ReadsCurrent := by
  have hobtained : polled.obtained 5 = 0 := by decide +kernel
  have hstatus : (polled.state 5).control.status = 2 := by decide +kernel
  have hreads : PresentsRead (polled.input 5) := (polled_reads (by omega)).1
  refine ⟨hreads, hobtained, hstatus, fun hcurrent => ?_⟩
  have heq := hcurrent 5 hreads
  rw [hobtained, hstatus] at heq
  exact absurd heq (by decide)

end Run

end CE213Lab.DMA
