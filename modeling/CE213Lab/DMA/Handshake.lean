import CE213Lab.DMA.LastWord

/-!
# The handshake at the end of a transfer

State 2 of the write master is there to end the pulse on `oWM_done`. It is entered only when the
last word is stalled, since an accepted last word sends the writer to state 0; and when it is
entered, `oWM_write` is still high. So whenever the control slave is back in state 0 after a
transfer, the writer has kept one of the two signals. The main theorem is `never_returns`.
-/

namespace CE213Lab.DMA

open Foundation DMAFinal
open ControlSlave (Phase)

/-! ## What the writer keeps -/

/-- In states 1 and 2 a command is on offer, in state 2 with `oWM_done` raised. -/
structure Presenting (s : WriteMaster.State) : Prop where
  write : s.state = 1#2 ∨ s.state = 2#2 → s.oWMWrite = true
  done : s.state = 2#2 → s.oWMDone = true

/-- One of the two signals is high, and a command left over is not in the states that end it. -/
def LeftOver (s : WriteMaster.State) : Prop :=
  s.oWMDone = true ∨ s.state = 0#2 ∧ s.oWMWrite = true

section Step

variable {i : WriteMaster.Inputs} {s : WriteMaster.State}

theorem Presenting.step (h : Presenting s) (hreset : i.iResetN = true) :
    Presenting (WriteMaster.step i s) := by
  have hedge := WriteMaster.step_edge (s := s) hreset
  generalize WriteMaster.step i s = next at hedge ⊢
  cases hedge with
  | start => exact ⟨h.write, h.done⟩
  | move hmove =>
      cases hmove with
      | empty | stall | unused => exact h
      | take => exact ⟨fun _ => rfl, fun h => absurd h (by simp)⟩
      | accept | acceptLast | clear =>
          exact ⟨fun h => absurd h (by simp), fun h => absurd h (by simp)⟩
      | stallLast hstate => exact ⟨fun _ => h.write (.inl hstate), fun _ => rfl⟩

/-- A raised `oWM_done` is kept, or the command under it is. -/
theorem left_over_of_done (h : Presenting s) (hreset : i.iResetN = true)
    (hdone : s.oWMDone = true) : LeftOver (WriteMaster.step i s) := by
  have hedge := WriteMaster.step_edge (s := s) hreset
  generalize WriteMaster.step i s = next at hedge ⊢
  cases hedge with
  | start => exact .inl hdone
  | move hmove =>
      cases hmove with
      | empty | take | stall | accept | unused => exact .inl hdone
      | stallLast | acceptLast => exact .inl rfl
      | clear hstate => exact .inr ⟨rfl, h.write (.inr hstate)⟩

/-- What is left over is still there after another edge. -/
theorem LeftOver.step (h : LeftOver s) (hpresenting : Presenting s) (hreset : i.iResetN = true) :
    (WriteMaster.step i s).oWMDone = true ∨ (WriteMaster.step i s).oWMWrite = true := by
  rcases h with hdone | ⟨hstate, hwrite⟩
  · exact (left_over_of_done hpresenting hreset hdone).imp_right And.right
  · refine .inr ?_
    have hedge := WriteMaster.step_edge (s := s) hreset
    generalize WriteMaster.step i s = next at hedge ⊢
    cases hedge with
    | start => exact hwrite
    | move hmove =>
        cases hmove with
        | empty => exact hwrite
        | take => rfl
        | stall h' | accept h' | stallLast h' | acceptLast h' | clear h' | unused h' =>
            simp [hstate] at h'

end Step

/-! ## Over a transfer -/

theorem Run.presenting (r : Run) (t : ℕ) : Presenting (r.state t).wm := by
  refine r.invariant (fun s => Presenting s.wm) 0 ?_ ?_ (Nat.zero_le t)
  · rw [r.cleared.writer]
    constructor <;> simp
  · intro u _ h
    exact h.step (i := wmInputs (r.input u) (r.state u)) (r.iResetN u)

namespace Transfer

variable {x : Transfer} {t : ℕ}

/-- `oWM_done` is high in exactly one cycle of the transfer. -/
def DoneOnce (x : Transfer) : Prop :=
  ∃ T, x.start < T ∧ (x.state T).wm.oWMDone = true ∧
    ∀ t, x.start < t → (x.state t).wm.oWMDone = true → t = T

/-- After the start pulse the control slave is in state 0 with status 0. -/
def BackToIdle (x : Transfer) (t : ℕ) : Prop :=
  x.start < t ∧ (x.state t).control.state = 0#2 ∧ (x.state t).control.status = 0

/-- Whenever the control slave is back in state 0, the writer has nothing left over. -/
def WriterRests (x : Transfer) : Prop :=
  ∀ t, x.BackToIdle t → (x.state t).wm.state = 0#2 ∧ (x.state t).wm.oWMDone = false ∧
    (x.state t).wm.oWMWrite = false

/-- The handshake returns to idle: `oWM_done` is a pulse of one cycle and leaves nothing behind. -/
def ReturnsToIdle (x : Transfer) : Prop :=
  x.DoneOnce ∧ x.WriterRests

/-- The control slave reports DONE. -/
def Completes (x : Transfer) : Prop :=
  ∃ t, ControlSlave.done (x.state t).control = true

/-- The control slave returns to state 0 in the cycle after DONE, with something left over. -/
theorem left_over_of_done_reported (hdone : ControlSlave.done (x.state t).control = true) :
    x.BackToIdle (t + 1) ∧
      ((x.state (t + 1)).wm.oWMDone = true ∨ (x.state (t + 1)).wm.oWMWrite = true) := by
  have hphase : x.phase t = .done := Run.done_iff.mp hdone
  have hlt : x.start < t := start_lt (by simp [hphase, Phase.rank])
  refine ⟨?_, ?_⟩
  · have hspent : x.phase (t + 1) = .spent := by
      rw [x.toRun.phase_succ, hphase]
      rfl
    have hregisters := x.toRun.in_phase (t + 1)
    rw [hspent] at hregisters
    exact ⟨by omega, hregisters.state, hregisters.status⟩
  · cases t with
    | zero => omega
    | succ u =>
        -- DONE follows a cycle of `oWM_done`; two edges later one of the signals is still high
        have hraised : (x.state u).wm.oWMDone = true :=
          Phase.mw_done_of_next_done (hphase ▸ x.toRun.phase_succ u).symm
        have hleft : LeftOver (x.state (u + 1)).wm := by
          rw [x.state_succ]
          exact left_over_of_done (i := wmInputs (x.input u) (x.state u)) (x.presenting u)
            (x.iResetN u) hraised
        rw [x.state_succ]
        exact hleft.step (i := wmInputs (x.input (u + 1)) (x.state (u + 1)))
          (x.presenting (u + 1)) (x.iResetN (u + 1))

theorem not_rests_of_completes (h : x.Completes) : ¬ x.WriterRests := by
  obtain ⟨t, hdone⟩ := h
  obtain ⟨hidle, hleft⟩ := left_over_of_done_reported hdone
  intro hrests
  obtain ⟨_, hdone, hwrite⟩ := hrests (t + 1) hidle
  simp [hdone, hwrite] at hleft

/-- `oWM_done` in the course of a transfer leads to DONE. -/
theorem completes_of_done (hlt : x.start < t) (hdone : (x.state t).wm.oWMDone = true) :
    x.Completes := by
  have hrank : 3 ≤ (x.phase (t + 1)).rank := by
    have hafter := phase_after hlt
    rw [x.toRun.phase_succ, hdone]
    cases hp : x.phase t <;> simp [hp, Phase.rank, Phase.next] at hafter ⊢
  obtain ⟨T, _, hT⟩ := Run.visited (r := x.toRun) (p := .done) (by decide) hrank
  exact ⟨T, Run.done_iff.mpr hT⟩

/-- No transfer returns to idle, under any slaves and for any length: if it completes, the writer
keeps `oWM_done` or `oWM_write`, and if it does not, `oWM_done` is never raised. -/
theorem never_returns (x : Transfer) :
    ¬ x.ReturnsToIdle ∧ (x.Completes → ¬ x.WriterRests) := by
  refine ⟨?_, not_rests_of_completes⟩
  rintro ⟨⟨T, hlt, hdone, _⟩, hrests⟩
  exact not_rests_of_completes (completes_of_done hlt hdone) hrests

/-- One word copied without a stall. -/
def unstalledCopy : Transfer :=
  Bench.transfer id 0x1000 0x2000 4 (fun _ => false) (fun _ => false)

/-- Without a stall `oWM_done` stays high; with the last word stalled the command stays on offer
when the control slave is idle again. -/
theorem copies_left_over :
    (unstalledCopy.Conformant ∧ unstalledCopy.length.toNat = 4 * 1 ∧
        ¬ unstalledCopy.ReturnsToIdle) ∧
      stalledCopy.Conformant ∧ stalledCopy.length.toNat = 4 * 1 ∧ ¬ stalledCopy.ReturnsToIdle := by
  have hdone : (unstalledCopy.state 11).wm.oWMDone = true ∧
      (unstalledCopy.state 12).wm.oWMDone = true := by decide +kernel
  have hidle : (stalledCopy.state 13).control.state = 0#2 ∧
      (stalledCopy.state 13).control.status = 0 ∧ (stalledCopy.state 13).wm.oWMWrite = true := by
    decide +kernel
  refine ⟨⟨Bench.transfer_fixed_latency.conformant, ?_, ?_⟩, stalled_copy_parameters.1,
    stalled_copy_parameters.2, ?_⟩
  · rw [unstalledCopy, Bench.transfer_length]
    rfl
  · rintro ⟨⟨T, _, _, honly⟩, _⟩
    have heleven := honly 11 (by decide) hdone.1
    have htwelve := honly 12 (by decide) hdone.2
    omega
  · rintro ⟨_, hrests⟩
    obtain ⟨hstate, hstatus, hwrite⟩ := hidle
    obtain ⟨_, _, hnone⟩ := hrests 13 ⟨by decide, hstate, hstatus⟩
    simp [hwrite] at hnone

end Transfer

end CE213Lab.DMA
