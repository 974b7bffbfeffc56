import CE213Lab.DMA.Restart
import CE213Lab.DMA.Stages

/-!
# The parameters of a transfer

When the parameter registers may change and which of their values a transfer works with. While
BUSY is set they are frozen and the two masters agree with them (`parameters_frozen`). BUSY is set
an edge after the GO bit, though, and the masters load an edge later still: a register written in
the cycle right after the GO command reaches the transfer (`takes_snapshot_iff`).
-/

namespace CE213Lab.DMA

open Foundation DMAFinal
open ControlSlave (Phase)

namespace Transfer

variable {x : Transfer} {t : ℕ}

/-- The parameters in the registers in the cycle of the start pulse. -/
def started (x : Transfer) : Parameters :=
  Parameters.inRegisters (x.state x.start).control

/-! ## Registers and masters after the start pulse -/

/-- BUSY is set in the two phases between the GO command and `oWM_done`. -/
theorem busy_iff {r : Run} : ControlSlave.busy (r.state t).control = true ↔
    r.phase t = .starting ∨ r.phase t = .busy := by
  rw [ControlSlave.busy, (r.in_phase t).status]
  cases r.phase t <;> simp [Phase.status]

/-- From the start pulse to the end of BUSY the registers keep their values. -/
theorem registers_of_busy (hle : x.start ≤ t)
    (hbusy : ControlSlave.busy (x.state t).control = true) :
    Parameters.inRegisters (x.state t).control = x.started := by
  induction t, hle using Nat.le_induction with
  | base => rfl
  | succ t hle ih =>
      -- a handshake that is busy after the start pulse was busy in the cycle before
      have hbefore : ControlSlave.busy (x.state t).control = true := by
        have hstarted := x.toRun.rank_le hle
        have hnext := x.toRun.rank_le (Nat.le_succ t)
        rw [phase_start] at hstarted
        rw [busy_iff] at hbusy ⊢
        cases hp : x.phase t <;> rcases hbusy with hbusy | hbusy <;>
          simp [hp, hbusy, Phase.rank] at hstarted hnext ⊢
      rw [← ih hbefore, x.state_succ]
      show Parameters.inRegisters (step (x.input t) (x.state t)).control = _
      rw [in_registers_step (x.iResetN t)]
      simp [programs, hbefore]

/-- The start pulse loads the parameters of the transfer into both masters. -/
theorem loaded_start :
    (x.state (x.start + 1)).rm.oRMReadaddress = x.readStart ∧
      (x.state (x.start + 1)).wm.oWMWriteaddress = x.writeStart ∧
      (x.state (x.start + 1)).wm.wmLastwriteaddress = x.writeStart + x.length := by
  obtain ⟨hread, _, hwrite, hlast⟩ := Run.loaded_of_start x.oStart
  rw [← x.toRun.in_registers x.start] at hread hwrite hlast
  exact ⟨hread, hwrite, hlast⟩

/-- The writer keeps the end address it has loaded, whatever the slaves do. -/
theorem writer_last (hlt : x.start < t) :
    (x.state t).wm.wmLastwriteaddress = x.writeStart + x.length := by
  induction t, hlt using Nat.le_induction with
  | base => exact loaded_start.2.2
  | succ t hle ih =>
      have hmove := wm_succ hle
      rw [← ih]
      generalize (x.state (t + 1)).wm = next at hmove ⊢
      cases hmove <;> rfl

end Transfer

/-! ## While BUSY is set -/

namespace Run

/-- The handshake in cycle `t`: its state and the two bits of its status, the registers it protects
and, after the start pulse, the end addresses of the masters. -/
structure Frozen (r : Run) (t : ℕ) : Prop where
  state : (r.state t).control.state = 0#2 ∨ (r.state t).control.state = 1#2 ∨
    (r.state t).control.state = 2#2
  busy : ControlSlave.busy (r.state t).control = true ↔ (r.state t).control.state = 1#2
  done : ControlSlave.done (r.state t).control = true ↔ (r.state t).control.state = 2#2
  registers : ControlSlave.busy (r.state t).control = true →
    (r.state (t + 1)).control.oRMStartaddress = (r.state t).control.oRMStartaddress ∧
      (r.state (t + 1)).control.oWMStartaddress = (r.state t).control.oWMStartaddress ∧
      (r.state (t + 1)).control.oLength = (r.state t).control.oLength
  masters : ∀ u < t, (r.state u).control.oStart = true →
    ControlSlave.busy (r.state t).control = true →
      (r.state t).rm.rmLastwriteaddress =
          (r.state t).control.oRMStartaddress + (r.state t).control.oLength ∧
        (r.state t).wm.wmLastwriteaddress =
          (r.state t).control.oWMStartaddress + (r.state t).control.oLength

/-- In every cycle of every run, whatever the CPU and the slaves do. -/
theorem parameters_frozen (r : Run) (t : ℕ) : r.Frozen t := by
  have hphase := r.in_phase t
  constructor
  · rw [hphase.state]
    cases r.phase t <;> simp [Phase.state]
  · rw [Transfer.busy_iff, hphase.state]
    cases r.phase t <;> simp [Phase.state]
  · rw [done_iff, hphase.state]
    cases r.phase t <;> simp [Phase.state]
  · intro hbusy
    rw [r.state_succ]
    exact ControlSlave.parameters_of_busy (i := controlInputs (r.input t) (r.state t))
      (r.iResetN t) hbusy
  · intro u hlt hstart hbusy
    let x : Transfer := { r with start := u, oStart := hstart }
    have hregisters := Transfer.registers_of_busy (x := x) hlt.le hbusy
    obtain ⟨hread, hwrite, hlength⟩ := Parameters.mk.inj hregisters
    rw [hread, hwrite, hlength]
    exact ⟨(Transfer.walking (x := x) hlt).last, Transfer.writer_last (x := x) hlt⟩

end Run

/-! ## The GO command -/

/-- The CPU performs a write that sets the GO bit. -/
def SetsGo (i : Inputs) (s : State) : Prop :=
  programs i s = true ∧ i.iAddress = 3 ∧ i.iWritedata.getLsbD 3 = true ∧
    ControlSlave.go s.control = false

/-- The access in a cycle leaves the parameter registers with the values they have. -/
def KeepsParameters (i : Inputs) (s : State) : Prop :=
  programs i s = true →
    (Parameters.inRegisters s.control).write i.iAddress i.iWritedata =
      Parameters.inRegisters s.control

theorem go_written (i : ControlSlave.Inputs) (s : ControlSlave.State) :
    ControlSlave.go (ControlSlave.written i s) =
      if i.iAddress = 3 then i.iWritedata.getLsbD 3 else ControlSlave.go s := by
  unfold ControlSlave.written
  split <;> simp_all [ControlSlave.go]

/-- The GO bit rises exactly with a write that sets it. -/
theorem sets_go_iff {i : Inputs} {s : State} (hreset : i.iResetN = true) :
    SetsGo i s ↔ ControlSlave.go s.control = false ∧
      ControlSlave.go (step i s).control = true := by
  have haccess := control_access (s := s) hreset
  have hgo : ControlSlave.go (step i s).control = ControlSlave.go
      (ControlSlave.registerBlock (controlInputs i s) s.control) := rfl
  -- a GO bit that is kept does not rise
  have hkept : ¬ (ControlSlave.go s.control = false ∧ ControlSlave.go s.control = true) :=
    fun h => Bool.false_ne_true (h.1.symm.trans h.2)
  rw [hgo, SetsGo, programs_eq_writes]
  generalize ControlSlave.registerBlock (controlInputs i s) s.control = next at haccess ⊢
  cases haccess with
  | clear hdone => simp [ControlSlave.writes, hdone, ControlSlave.go]
  | write hwrite =>
      rw [go_written]
      show _ ∧ i.iAddress = 3 ∧ _ ↔ _ ∧ (if i.iAddress = 3 then i.iWritedata.getLsbD 3 else _) = _
      by_cases haddress : i.iAddress = 3
      · simp [hwrite, haddress, and_comm]
      · rw [if_neg haddress]
        exact ⟨fun h => absurd h.2.1 haddress, fun h => absurd h hkept⟩
  | read hread =>
      have hwrite := ControlSlave.not_writes_of_reads hread
      exact ⟨fun h => absurd (hwrite.symm.trans h.1) Bool.false_ne_true, fun h => absurd h hkept⟩
  | keep _ hwrite _ =>
      exact ⟨fun h => absurd (hwrite.symm.trans h.1) Bool.false_ne_true, fun h => absurd h hkept⟩

namespace Transfer

variable {x : Transfer} {g t : ℕ}

/-- The write in cycle `g` set the GO bit of the transfer. -/
def GoWrite (x : Transfer) (g : ℕ) : Prop :=
  g < x.start ∧ SetsGo (x.input g) (x.state g)

/-- The masters work with the parameters `p`: they begin at its start addresses and keep its end
addresses. -/
structure WorksWith (x : Transfer) (p : Parameters) : Prop where
  readStart : (x.state (x.start + 1)).rm.oRMReadaddress = p.readStart
  writeStart : (x.state (x.start + 1)).wm.oWMWriteaddress = p.writeStart
  readEnd : ∀ t, x.start < t → (x.state t).rm.rmLastwriteaddress = p.readStart + p.length
  writeEnd : ∀ t, x.start < t → (x.state t).wm.wmLastwriteaddress = p.writeStart + p.length

/-- The transfer works with the values the parameter registers held when its GO bit was set. -/
def TakesSnapshot (x : Transfer) : Prop :=
  ∃ g, x.GoWrite g ∧ x.WorksWith (Parameters.inRegisters (x.state g).control)

theorem works_with_iff {p : Parameters} : x.WorksWith p ↔ p = x.started := by
  obtain ⟨hread, hwrite, _⟩ := loaded_start (x := x)
  refine ⟨?_, ?_⟩
  · intro h
    have hend := h.readEnd (x.start + 1) (Nat.lt_succ_self _)
    rw [(walking (Nat.lt_succ_self x.start)).last, ← h.readStart, hread,
      BitVec.add_right_inj] at hend
    show p = Parameters.mk x.readStart x.writeStart x.length
    rw [← hread, ← hwrite, h.readStart, h.writeStart, hend]
  · rintro rfl
    exact ⟨hread, hwrite, fun t hlt => (walking hlt).last, fun t hlt => writer_last hlt⟩

/-- The handshake waits in its ready phase until it sees the GO bit. -/
theorem starting_succ_iff (hlt : t < x.start) :
    x.phase (t + 1) = .starting ↔ ControlSlave.go (x.state t).control = true := by
  rw [x.toRun.phase_succ, phase_before hlt]
  cases ControlSlave.go (x.state t).control <;> simp [Phase.next]

/-- The GO bit is set two cycles before the start pulse, and only then. -/
theorem go_write_iff : x.GoWrite g ↔ g + 2 = x.start := by
  have hrises : SetsGo (x.input g) (x.state g) ↔ ControlSlave.go (x.state g).control = false ∧
      ControlSlave.go (x.state (g + 1)).control = true := by
    rw [x.state_succ]
    exact sets_go_iff (x.iResetN g)
  refine ⟨?_, ?_⟩
  · rintro ⟨hlt, hsets⟩
    obtain ⟨hclear, hset⟩ := hrises.mp hsets
    rcases Nat.lt_or_ge (g + 1) x.start with hlt' | hge
    · have hstarting := (starting_succ_iff hlt').mpr hset
      exact Run.start_unique (Run.start_iff.mpr hstarting) x.oStart
    · -- a GO bit that is still clear in the cycle before the start pulse does not raise it
      have heq : g + 1 = x.start := by omega
      have hstarting := (starting_succ_iff hlt).mp (heq ▸ phase_start)
      simp [hclear] at hstarting
  · intro heq
    have hlt : g < x.start := by omega
    refine ⟨hlt, hrises.mpr ⟨?_, ?_⟩⟩
    · by_contra hset
      have hstarting := (starting_succ_iff hlt).mpr (by simpa using hset)
      have := Run.start_unique (Run.start_iff.mpr hstarting) x.oStart
      omega
    · exact (starting_succ_iff (by omega)).mp (heq ▸ phase_start)

/-- Every transfer has a write that set its GO bit. -/
theorem exists_go_write (x : Transfer) : ∃ g, x.GoWrite g := by
  suffices htwo : 2 ≤ x.start from ⟨x.start - 2, go_write_iff.mpr (by omega)⟩
  -- a reset edge leaves the ready phase and a clear GO bit
  have hzero : x.start ≠ 0 := fun h => by
    have hstart := phase_start (x := x)
    rw [h, Run.phase_zero] at hstart
    exact absurd hstart (by decide)
  have hone : x.start ≠ 1 := fun h => by
    have hstarting : x.phase (0 + 1) = .starting := by
      rw [Nat.zero_add, ← h]
      exact phase_start
    have hgo := (starting_succ_iff (by omega)).mp hstarting
    rw [x.cleared.control] at hgo
    exact absurd hgo (by decide)
  omega

/-- The GO command leaves the parameter registers alone, so that the access after it decides
whether the start pulse finds the same values there. -/
theorem registers_eq_started_iff (hgo : x.GoWrite g) :
    Parameters.inRegisters (x.state g).control = x.started ↔
      KeepsParameters (x.input (g + 1)) (x.state (g + 1)) := by
  have hcommand : Parameters.inRegisters (x.state (g + 1)).control =
      Parameters.inRegisters (x.state g).control := by
    rw [x.state_succ]
    show Parameters.inRegisters (step (x.input g) (x.state g)).control = _
    rw [in_registers_step (x.iResetN g), if_pos hgo.2.1, hgo.2.2.1]
    rfl
  have hstarted : x.started = Parameters.inRegisters
      (step (x.input (g + 1)) (x.state (g + 1))).control := by
    rw [started, ← go_write_iff.mp hgo, x.state_succ]
    rfl
  rw [hstarted, in_registers_step (x.iResetN (g + 1)), ← hcommand, KeepsParameters]
  cases programs (x.input (g + 1)) (x.state (g + 1)) with
  | true => simp [eq_comm]
  | false => simp

/-- The transfer takes its parameters from the cycle of the GO command exactly when the access in
the cycle right after it leaves the parameter registers as they are. -/
theorem takes_snapshot_iff (x : Transfer) :
    x.TakesSnapshot ↔ ∀ g, x.GoWrite g → KeepsParameters (x.input (g + 1)) (x.state (g + 1)) := by
  refine ⟨?_, ?_⟩
  · rintro ⟨g, hgo, hworks⟩ g' hgo'
    have hsame : g' = g := by
      have hg := go_write_iff.mp hgo
      have hg' := go_write_iff.mp hgo'
      omega
    subst hsame
    exact (registers_eq_started_iff hgo).mp (works_with_iff.mp hworks)
  · intro hkeeps
    obtain ⟨g, hgo⟩ := exists_go_write x
    exact ⟨g, hgo, works_with_iff.mpr ((registers_eq_started_iff hgo).mpr (hkeeps g hgo))⟩

/-- A transfer whose read start address the CPU rewrites in the cycle right after GO. -/
def rewritten : Transfer where
  toRun := Bench.onChip id (Bench.program 0x1000 0x2000 4 fun t =>
    if t = 0 then Bench.cpuWrite 0 0x5000 else Bench.idle)
  start := 5
  oStart := by decide +kernel

/-- GO is set in cycle 3, with 0x1000 in the register; the reader begins at 0x5000. -/
theorem snapshot_missed :
    rewritten.GoWrite 3 ∧ (rewritten.state 3).control.oRMStartaddress = 0x1000 ∧
      (rewritten.state 6).rm.oRMReadaddress = 0x5000 ∧ ¬ rewritten.TakesSnapshot := by
  have hgo : rewritten.GoWrite 3 := go_write_iff.mpr rfl
  have hregister : (rewritten.state 3).control.oRMStartaddress = 0x1000 := by decide +kernel
  have hloaded : (rewritten.state 6).rm.oRMReadaddress = 0x5000 := by decide +kernel
  refine ⟨hgo, hregister, hloaded, ?_⟩
  rintro ⟨g, hgo', hworks⟩
  have hg : g = 3 := by
    have hstart := go_write_iff.mp hgo'
    have hthree := go_write_iff.mp hgo
    omega
  have hread := hworks.readStart
  rw [hg] at hread
  have hread : (rewritten.state 6).rm.oRMReadaddress =
      (rewritten.state 3).control.oRMStartaddress := hread
  rw [hloaded, hregister] at hread
  exact absurd hread (by decide)

end Transfer

end CE213Lab.DMA
