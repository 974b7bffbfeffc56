import CE213Lab.DMA.Run

/-!
# Benches: the engine with its surroundings

`onChip` closes the engine with a memory of latency one at the read port, so its runs are
`FixedLatency` whatever the stimulus does; `scripted` plays every input from a script.
`program` is the CPU's part: it writes the three parameters and the GO bit in the first four
cycles, which puts the start pulse in cycle 5.
-/

namespace CE213Lab.DMA

open Foundation DMAFinal

namespace Bench

/-- All registers zero, as an FPGA powers up. -/
def powerUp : State where
  control := ⟨0, 0, 0, 0, 0, 0, false, false, 0⟩
  rm := ⟨0, false, 0, 0, 0⟩
  fi := ⟨fun _ => 0, 0, 0⟩
  wm := ⟨0, false, false, 0, 0, 0⟩

/-- No CPU access, no answer, no stall. -/
def idle : Inputs where
  iResetN := true
  iChipselectN := true
  iRead := false
  iWrite := false
  iAddress := 0
  iWritedata := 0
  iRMReaddatavalid := false
  iRMWaitrequest := false
  iRMReaddata := 0
  iWMWaitrequest := false

/-- The registers after one reset edge. -/
def afterReset : State :=
  step { idle with iResetN := false } powerUp

/-- A CPU write to register `address`. -/
def cpuWrite (address : BitVec 3) (data : Word) : Inputs :=
  { idle with iChipselectN := false, iWrite := true, iAddress := address, iWritedata := data }

/-- The CPU programs a transfer and sets GO; `rest` follows. -/
def program (readStart writeStart length : Word) (rest : ℕ → Inputs) : ℕ → Inputs
  | 0 => cpuWrite 0 readStart
  | 1 => cpuWrite 1 writeStart
  | 2 => cpuWrite 2 length
  | 3 => cpuWrite 3 8
  | t + 4 => rest t

/-- The CPU's accesses together with the stalls of the two slaves, by cycle. -/
def stalling (readStall writeStall : ℕ → Bool) (cpu : ℕ → Inputs) (t : ℕ) : Inputs :=
  { cpu t with iRMWaitrequest := readStall t, iWMWaitrequest := writeStall t }

/-- The run whose inputs are those of the script. -/
def scripted (script : ℕ → Inputs) : Run where
  toExecution := drive engine (fun t (_ : Unit) => { script t with iResetN := true })
    (fun _ _ _ => ()) afterReset ()
  reset := ⟨{ idle with iResetN := false }, powerUp, rfl, rfl⟩
  iResetN _ := rfl

/-- A memory at the read port answers the read `pending` from the cycle before. -/
def answer (memory : Word → Word) (pending : Option Word) (i : Inputs) : Inputs :=
  { i with
    iResetN := true
    iRMReaddatavalid := pending.isSome
    iRMReaddata := memory (pending.getD 0) }

/-- The read that will be pending in the next cycle. -/
def request (i : Inputs) (s : State) : Option Word :=
  if acceptsRead i s then some s.rm.oRMReadaddress else none

/-- The run with a memory at the read port that answers each accepted read in the next cycle. -/
def onChip (memory : Word → Word) (stimulus : ℕ → Inputs) : Run where
  toExecution := drive engine (fun t pending => answer memory pending (stimulus t))
    (fun i s _ => request i s) afterReset none
  reset := ⟨{ idle with iResetN := false }, powerUp, rfl, rfl⟩
  iResetN _ := rfl

variable {memory : Word → Word} {stimulus : ℕ → Inputs}

theorem request_isSome (i : Inputs) (s : State) : (request i s).isSome = acceptsRead i s := by
  unfold request
  cases acceptsRead i s <;> rfl

theorem on_chip_fixed_latency : (onChip memory stimulus).FixedLatency :=
  ⟨rfl, fun _ => request_isSome _ _⟩

/-- The CPU side of the two inputs is the same. -/
def SameAccess (i j : Inputs) : Prop :=
  i.iChipselectN = j.iChipselectN ∧ i.iWrite = j.iWrite ∧ i.iAddress = j.iAddress ∧
    i.iWritedata = j.iWritedata

/-- A CPU write to a handshake that has nothing to do reaches the register addressed. -/
theorem control_write {r : Run} {t : ℕ} {address : BitVec 3}
    {readStart writeStart length data : Word}
    (hcontrol : (r.state t).control =
      ⟨readStart, writeStart, length, 0, 0, 0, false, false, 0⟩)
    (hcpu : SameAccess (r.input t) (cpuWrite address data)) :
    (r.state (t + 1)).control =
      ⟨if address = 0 then data else readStart, if address = 1 then data else writeStart,
        if address = 2 then data else length, if address = 3 then data else 0,
        0, 0, false, false, 0⟩ := by
  obtain ⟨hselect, hwrite, haddress, hdata⟩ := hcpu
  simp only [cpuWrite] at hselect hwrite haddress hdata
  rw [r.state_succ]
  show ControlSlave.step (controlInputs (r.input t) (r.state t)) (r.state t).control = _
  simp only [ControlSlave.step, ControlSlave.registerBlock, ControlSlave.stateBlock,
    ControlSlave.done, ControlSlave.busy, ControlSlave.go, controlInputs, r.iResetN, hcontrol,
    hselect, hwrite, haddress, hdata]
  simp
  split <;> simp_all

/-- After the four writes the handshake raises the start pulse for the programmed parameters. -/
theorem control_program {r : Run} {readStart writeStart length : Word} {rest : ℕ → Inputs}
    (hzero : (r.state 0).control = ⟨0, 0, 0, 0, 0, 0, false, false, 0⟩)
    (hcpu : ∀ t, SameAccess (r.input t) (program readStart writeStart length rest t))
    (hrest : (rest 0).iChipselectN = true) :
    (r.state 5).control =
      ⟨readStart, writeStart, length, 8, 2, 1, false, true, 0⟩ := by
  have hone : (r.state 1).control = ⟨readStart, 0, 0, 0, 0, 0, false, false, 0⟩ := by
    simpa using control_write hzero (hcpu 0)
  have htwo : (r.state 2).control = ⟨readStart, writeStart, 0, 0, 0, 0, false, false, 0⟩ := by
    simpa using control_write hone (hcpu 1)
  have hthree : (r.state 3).control =
      ⟨readStart, writeStart, length, 0, 0, 0, false, false, 0⟩ := by
    simpa using control_write htwo (hcpu 2)
  have hfour : (r.state 4).control =
      ⟨readStart, writeStart, length, 8, 0, 0, false, false, 0⟩ := by
    simpa using control_write hthree (hcpu 3)
  -- the GO bit is set and no access follows: the handshake starts
  simp [r.state_succ 4, engine, step, ControlSlave.step, ControlSlave.registerBlock,
    ControlSlave.stateBlock, ControlSlave.done, ControlSlave.go,
    controlInputs, r.iResetN, hfour, (hcpu 4).1, program, hrest]

/-- The copy of `length` bytes from an on-chip memory, under any stalls. -/
def transfer (memory : Word → Word) (readStart writeStart length : Word)
    (readStall writeStall : ℕ → Bool) : Transfer where
  toRun := onChip memory
    (stalling readStall writeStall (program readStart writeStart length fun _ => idle))
  start := 5
  oStart := by rw [control_program rfl (fun _ => ⟨rfl, rfl, rfl, rfl⟩) rfl]

variable {readStart writeStart length : Word} {readStall writeStall : ℕ → Bool}

/-- In cycle 5 the registers hold the programmed parameters, and the start pulse is high. -/
theorem transfer_control :
    ((transfer memory readStart writeStart length readStall writeStall).state 5).control =
      ⟨readStart, writeStart, length, 8, 2, 1, false, true, 0⟩ :=
  control_program rfl (fun _ => ⟨rfl, rfl, rfl, rfl⟩) rfl

theorem transfer_readStart :
    (transfer memory readStart writeStart length readStall writeStall).readStart = readStart :=
  congrArg ControlSlave.State.oRMStartaddress transfer_control

theorem transfer_writeStart :
    (transfer memory readStart writeStart length readStall writeStall).writeStart = writeStart :=
  congrArg ControlSlave.State.oWMStartaddress transfer_control

theorem transfer_length :
    (transfer memory readStart writeStart length readStall writeStall).length = length :=
  congrArg ControlSlave.State.oLength transfer_control

theorem transfer_fixed_latency :
    (transfer memory readStart writeStart length readStall writeStall).FixedLatency :=
  on_chip_fixed_latency

end Bench

end CE213Lab.DMA
