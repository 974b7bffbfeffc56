import CE213Lab.DMA.Bench

/-!
# Repeated transfers

What becomes of a GO command given while the engine is idle. The first one after a reset is
answered by one start pulse, with which both masters load the parameters the CPU has programmed.
`enable` stays set from then on, so no later command is answered. The main theorem is
`restarts_iff`.
-/

namespace CE213Lab.DMA

open Foundation DMAFinal
open ControlSlave (Phase)

/-! ## What the CPU has programmed -/

/-- The parameters of a transfer. -/
structure Parameters where
  readStart : Word
  writeStart : Word
  length : Word
  deriving DecidableEq

namespace Parameters

/-- A CPU write replaces the parameter at its address. -/
def write (p : Parameters) (address : BitVec 3) (data : Word) : Parameters :=
  match address with
  | 0 => { p with readStart := data }
  | 1 => { p with writeStart := data }
  | 2 => { p with length := data }
  | _ => p

/-- The parameters in the registers of the control slave. -/
def inRegisters (s : ControlSlave.State) : Parameters :=
  ⟨s.oRMStartaddress, s.oWMStartaddress, s.oLength⟩

end Parameters

/-- The CPU writes a register while no transfer is busy and none is being reported. -/
def programs (i : Inputs) (s : State) : Bool :=
  !i.iChipselectN && i.iWrite && !ControlSlave.busy s.control && !ControlSlave.done s.control

/-- A write that programs is one the control slave performs. -/
theorem programs_eq_writes (i : Inputs) (s : State) :
    programs i s = ControlSlave.writes (controlInputs i s) s.control := rfl

/-- The registers of the CPU after an edge outside reset. -/
theorem control_access {i : Inputs} {s : State} (hreset : i.iResetN = true) :
    ControlSlave.Access (controlInputs i s) s.control
      (ControlSlave.registerBlock (controlInputs i s) s.control) :=
  ControlSlave.registerBlock_access hreset

theorem Parameters.in_registers_written (i : ControlSlave.Inputs) (s : ControlSlave.State) :
    Parameters.inRegisters (ControlSlave.written i s) =
      (Parameters.inRegisters s).write i.iAddress i.iWritedata := by
  unfold ControlSlave.written Parameters.write
  split <;> simp_all [Parameters.inRegisters]

/-- One edge changes the parameter registers only by a CPU write that programs one of them. -/
theorem in_registers_step {i : Inputs} {s : State} (hreset : i.iResetN = true) :
    Parameters.inRegisters (step i s).control =
      if programs i s then (Parameters.inRegisters s.control).write i.iAddress i.iWritedata
      else Parameters.inRegisters s.control := by
  have haccess := control_access (s := s) hreset
  rw [programs_eq_writes]
  show Parameters.inRegisters (ControlSlave.registerBlock (controlInputs i s) s.control) = _
  generalize ControlSlave.registerBlock (controlInputs i s) s.control = next at haccess ⊢
  cases haccess with
  | clear hdone =>
      rw [if_neg (by simp [ControlSlave.writes, hdone])]
      rfl
  | write hwrite =>
      rw [if_pos hwrite]
      exact Parameters.in_registers_written _ _
  | read hread =>
      rw [if_neg (by simp [ControlSlave.not_writes_of_reads hread])]
      rfl
  | keep _ hwrite _ => simp [hwrite]

namespace Run

variable (r : Run)

/-- What the CPU has programmed before cycle `t`. -/
def programmed : ℕ → Parameters :=
  r.history (fun i s p => if programs i s then p.write i.iAddress i.iWritedata else p) ⟨0, 0, 0⟩

/-- The registers hold what the CPU has programmed. -/
theorem in_registers (t : ℕ) :
    Parameters.inRegisters (r.state t).control = r.programmed t := by
  refine r.invariant_history _ _ (fun s p => Parameters.inRegisters s.control = p) 0 ?_ ?_
    (Nat.zero_le t)
  · rw [r.cleared.control]
    rfl
  · intro u _ h
    rw [← h]
    exact in_registers_step (r.iResetN u)

/-! ## GO commands -/

/-- The engine is idle and the GO bit is set. -/
def GoWhileIdle (t : ℕ) : Prop :=
  (r.state t).control.status = 0 ∧ (r.state t).control.state = 0#2 ∧
    ControlSlave.go (r.state t).control = true

/-- At the end of cycle `u` both masters have loaded what the CPU has programmed. -/
def Loaded (u : ℕ) : Prop :=
  (r.state (u + 1)).rm.oRMReadaddress = (r.programmed u).readStart ∧
    (r.state (u + 1)).rm.rmLastwriteaddress =
      (r.programmed u).readStart + (r.programmed u).length ∧
    (r.state (u + 1)).wm.oWMWriteaddress = (r.programmed u).writeStart ∧
    (r.state (u + 1)).wm.wmLastwriteaddress =
      (r.programmed u).writeStart + (r.programmed u).length

/-- A GO command is given: the GO bit is set on the idle engine, and was not in the cycle before. -/
def GoGiven (t : ℕ) : Prop :=
  r.GoWhileIdle t ∧ ∀ u, t = u + 1 → ¬ r.GoWhileIdle u

/-- The start pulse of cycle `u` follows cycle `t`, with no other GO command given in between. -/
structure Follows (t u : ℕ) : Prop where
  after : t < u
  oStart : (r.state u).control.oStart = true
  alone : ∀ w, t < w → w < u → ¬ r.GoGiven w

/-- Exactly one start pulse follows cycle `t` before the next GO command, and it loads the
programmed parameters. -/
def Answered (t : ℕ) : Prop :=
  ∃ u, r.Follows t u ∧ r.Loaded u ∧ ∀ v, r.Follows t v → v = u

/-- Every GO command given to the idle engine is answered. -/
def Restarts : Prop :=
  ∀ t, r.GoWhileIdle t → r.Answered t

variable {r} {t u : ℕ}

/-- A start pulse loads the masters, whatever state they are in. -/
theorem loaded_of_start (hstart : (r.state u).control.oStart = true) : r.Loaded u := by
  unfold Loaded
  rw [← r.in_registers u, r.state_succ u]
  simp [engine, step, ReadMaster.step, ReadMaster.walk, rmInputs, WriteMaster.step, wmInputs,
    r.iResetN u, hstart, Parameters.inRegisters]

/-- No transfer has been started yet exactly when the handshake is still ready. -/
theorem ready_iff : r.phase t = .ready ↔ ∀ u ≤ t, (r.state u).control.oStart = false := by
  refine ⟨?_, ?_⟩
  · intro hready u hle
    have hrank := r.rank_le hle
    rw [(r.in_phase u).oStart]
    cases hp : r.phase u <;> simp [hp, hready, Phase.rank, Phase.oStart] at hrank ⊢
  · intro hnone
    by_contra hready
    have hrank : 1 ≤ (r.phase t).rank := by
      cases hp : r.phase t <;> simp [hp, Phase.rank] at hready ⊢
    obtain ⟨u, hle, hstarting⟩ := visited (p := .starting) (by decide) hrank
    simpa [hnone u hle] using start_iff.mpr hstarting

/-- A GO command is answered exactly when no transfer has been started before it. -/
theorem answered_iff (hgo : r.GoWhileIdle t) :
    r.Answered t ↔ ∀ u ≤ t, (r.state u).control.oStart = false := by
  refine ⟨?_, ?_⟩
  · intro ⟨u, hfollows, _⟩ v hle
    by_contra hearlier
    have heq := start_unique (by simpa using hearlier) hfollows.oStart
    have hlt := hfollows.after
    omega
  · intro hnone
    have hstart : (r.state (t + 1)).control.oStart = true := by
      rw [start_iff]
      show (r.phase t).next _ _ = _
      rw [ready_iff.mpr hnone, hgo.2.2]
      rfl
    exact ⟨t + 1, ⟨Nat.lt_succ_self t, hstart, fun w hlow hhigh => by omega⟩,
      loaded_of_start hstart, fun v hv => start_unique hv.oStart hstart⟩

/-- Every GO command is answered exactly in the runs in which none is given after the first
transfer has started. -/
theorem restarts_iff (r : Run) :
    r.Restarts ↔ ∀ t, r.GoWhileIdle t → ∀ u ≤ t, (r.state u).control.oStart = false :=
  forall_congr' fun _ => forall_congr' fun hgo => answered_iff hgo

/-- Two words copied one after the other, each by a transfer of its own. -/
def twoTransfers : Run :=
  Bench.onChip id (Bench.program 0x1000 0x2000 4 fun t =>
    if t < 16 then Bench.idle else Bench.program 0x3000 0x4000 4 (fun _ => Bench.idle) (t - 16))

/-- The second GO command is given to an idle engine with a new transfer programmed, and no start
pulse follows, ever. -/
theorem second_go_unanswered :
    twoTransfers.FixedLatency ∧ twoTransfers.GoGiven 4 ∧
      twoTransfers.programmed 4 = ⟨0x1000, 0x2000, 4⟩ ∧ twoTransfers.GoGiven 24 ∧
      twoTransfers.programmed 24 = ⟨0x3000, 0x4000, 4⟩ ∧
      (∀ u, 24 < u → (twoTransfers.state u).control.oStart = false) ∧ ¬ twoTransfers.Restarts := by
  have hfirst : (twoTransfers.state 5).control.oStart = true := by decide +kernel
  have hidle : twoTransfers.GoWhileIdle 4 := by
    unfold GoWhileIdle
    decide +kernel
  have hgo : twoTransfers.GoWhileIdle 24 := by
    unfold GoWhileIdle
    decide +kernel
  -- GO is written in the cycle before either command, and not set yet
  have hearlier : ¬ twoTransfers.GoWhileIdle 3 ∧ ¬ twoTransfers.GoWhileIdle 23 := by
    unfold GoWhileIdle
    decide +kernel
  refine ⟨Bench.on_chip_fixed_latency, ⟨hidle, ?_⟩, by decide +kernel, ⟨hgo, ?_⟩,
    by decide +kernel, fun u hlt => ?_, fun hall => ?_⟩
  · rintro u heq
    rw [show u = 3 by omega]
    exact hearlier.1
  · rintro u heq
    rw [show u = 23 by omega]
    exact hearlier.2
  · by_contra hlater
    have heq := start_unique hfirst (by simpa using hlater)
    omega
  · obtain ⟨u, hfollows, _⟩ := hall 24 hgo
    have heq := start_unique hfirst hfollows.oStart
    have hlt := hfollows.after
    omega

end Run

end CE213Lab.DMA
