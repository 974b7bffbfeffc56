import CE213Lab.System.SlavePath

/-!
# From the CPU to the control slave

Two slaves of the system are shared by the two masters of the CPU alone: the control interface of
the DMA, which has neither a wait request nor a read latency, and the debug module of the CPU. This
module looks at the first. A command is performed there in one cycle, the one it is taken in, and a
read returns in the next cycle what the slave drives before the edge that performs it
(`performs_each_once`).
-/

namespace CE213Lab.System.ControlPath

open Foundation MasterAgent SlavePath

/-- The masters in the order of the multiplexer: instructions, then data. -/
def agent : Fin 2 → MasterAgent.Params
  | 0 => instructionMaster
  | 1 => dataMaster

/-- `System_id_router.sv`: the channel of a response, one bit for each master. -/
def idRouter (destId : BitVec 3) : BitVec 5 :=
  if destId = 2 then 2 else 1

theorem id_router (j k : Fin 2) :
    (idRouter (agent j).id).getLsbD k = decide (k = j) := by
  revert j k
  decide

/-- A slave the two masters share. All responses go through the response multiplexers. -/
def config (translator : SlavePort.Params) (destid : BitVec 3) : Config 2 where
  translator := translator
  agent := agent
  destid := destid
  idRouter := idRouter
  muxed _ := true
  several := by decide
  routes := id_router

/-- `dma_0_control_translator`. -/
def control : Config 2 :=
  config ⟨0, false⟩ 0

/-- `nios2_qsys_0_jtag_debug_module_translator`. -/
def debug : Config 2 :=
  config ⟨0, true⟩ 2

/-! ## The signals of the control slave -/

section Wires

variable (i : Inputs 2) (s : State 2)

def iChipselectN : Bool :=
  !SlavePort.avChipselect (portInputs control i s) s.port

def iRead : Bool :=
  SlavePort.m0Read (portInputs control i s) s.port

def iWrite : Bool :=
  SlavePort.m0Write (portInputs control i s) s.port

def iAddress : BitVec 3 :=
  SlavePort.avAddress 3 (portInputs control i s).cpData

def iWritedata : BitVec 32 :=
  (portInputs control i s).cpData.data

end Wires

/-- The register a byte address selects. -/
def register (address : BitVec 32) : BitVec 3 :=
  getField 2 3 address

/-- Masking the two lowest bits, as two stages do, does not change the register. -/
theorem av_address_routed (p : MasterAgent.Params) (destid : BitVec 3) (av : Master) :
    SlavePort.avAddress 3 (routed p destid av) = register av.address := by
  have hmasked : ∀ a : BitVec 32, getField 2 3 (setField 0 (0 : BitVec 2) a) = getField 2 3 a :=
    fun a => getField_setField_of_disjoint _ _ (by omega) (by omega)
  rw [SlavePort.avAddress, SlavePort.m0Address, addr_routed, avAddressAligned, hmasked, hmasked,
    register]

/-- The slave performs the command `av` in this cycle. -/
structure Performs (i : Inputs 2) (s : State 2) (av : Master) : Prop where
  chipselect : iChipselectN i s = !cpValid av
  read : iRead i s = av.read
  write : iWrite i s = av.write
  address : iAddress i s = register av.address
  writedata : iWritedata i s = av.writedata

/-- It performs none. -/
structure Rests (i : Inputs 2) (s : State 2) : Prop where
  chipselect : iChipselectN i s = true
  read : iRead i s = false
  write : iWrite i s = false

section Run

variable {r : Run control} {t : ℕ} {k : Fin 2}

theorem rf_source_ready (htakes : r.takes t k = true) :
    SlavePort.rfSourceReady (r.state t).port = true := by
  cases t with
  | zero =>
      rw [Run.takes_none Run.turn_zero] at htakes
      cases htakes
  | succ t => exact (Run.well_used.holding t).rf_source_ready

/-- The command that is taken is performed. -/
theorem performs_of_takes (htakes : r.takes t k = true) :
    Performs (r.input t) (r.state t) (r.command t k).av := by
  obtain ⟨hvalid, hdata⟩ := Run.port_input_of_takes htakes
  have hvalid : (portInputs control (r.input t) (r.state t)).cpValid = true := hvalid
  have hdata : (portInputs control (r.input t) (r.state t)).cpData =
      routed (agent k) 0 (r.command t k).av := hdata
  have hready := rf_source_ready htakes
  have hread : iRead (r.input t) (r.state t) = (r.command t k).av.read := by
    rw [iRead, SlavePort.m0Read, SlavePort.localRead, hready, hvalid, hdata, transRead_routed]
    rfl
  have hwrite : iWrite (r.input t) (r.state t) = (r.command t k).av.write := by
    rw [iWrite, SlavePort.m0Write, SlavePort.localWrite, hready, hvalid, hdata, transWrite_routed]
    rfl
  refine ⟨?_, hread, hwrite, ?_, ?_⟩
  · show (!(iRead _ _ || iWrite _ _)) = _
    rw [hread, hwrite, cpValid, Bool.or_comm]
  · rw [iAddress, hdata, av_address_routed]
  · rw [iWritedata, hdata, data_routed]

/-- Without one the slave is left alone. -/
theorem rests_of_not_takes (hnone : ∀ k, r.takes t k = false) :
    Rests (r.input t) (r.state t) := by
  have hvalid : (portInputs control (r.input t) (r.state t)).cpValid = false := by
    rw [← Bool.not_eq_true]
    intro hvalid
    obtain ⟨k, htakes, _⟩ := Run.exists_taken (r := r) rfl hvalid
    exact absurd ((hnone k).symm.trans htakes) Bool.false_ne_true
  refine ⟨?_, ?_, ?_⟩ <;>
    simp [iChipselectN, iRead, iWrite, SlavePort.avChipselect, SlavePort.m0Read,
      SlavePort.m0Write, SlavePort.localRead, SlavePort.localWrite, hvalid]

/-- The data of a response is what the slave drove in the cycle before. -/
theorem rsp_data_succ (t : ℕ) (slave : SlavePort.Slave) :
    (SlavePort.rpData control.translator slave (r.state (t + 1)).port).data =
      (r.input t).slave.avReaddata := by
  rw [SlavePort.data_rpData]
  exact SlavePort.readdata_pre_succ (e := r.port) t

/-- A master offers its command until it is taken. -/
def Holds (r : Run control) (k : Fin 2) : Prop :=
  ∀ t, (r.command t k).valid = true → r.takes t k = false → r.command (t + 1) k = r.command t k

/-- A command that is held is taken within two cycles, as it was first offered. -/
theorem taken_of_holds (hholds : Holds r k) (hvalid : (r.command t k).valid = true) :
    ∃ u, t ≤ u ∧ u ≤ t + 2 ∧ r.takes u k = true ∧ r.command u k = r.command t k := by
  obtain ⟨u, hle, hbound, htakes⟩ := Run.served_within (r := r) rfl
    (fun v hv hnot => by rwa [hholds v hv hnot]) hvalid
  obtain ⟨v, hlow, hhigh, hv, hsame⟩ := exists_held_until (fun v => r.command v k)
    (fun c => c.valid = true) (fun v => r.takes v k = true)
    (fun v hv hnot => hholds v hv (by simpa using hnot)) hvalid hle htakes
  exact ⟨v, hlow, hhigh.trans hbound, hv, hsame⟩

/-- Each command crosses to the control slave once. A cycle performs the one command taken in it, or
nothing; a command that is held is taken within two cycles; a master gets a response in exactly the
cycles after a read of its own is taken, with what the slave drove when it was. -/
theorem performs_each_once (r : Run control) (t : ℕ) :
    ((∃ k, r.takes t k = true ∧ Performs (r.input t) (r.state t) (r.command t k).av ∧
        ∀ j, r.takes t j = true → j = k) ∨
      (∀ k, r.takes t k = false) ∧ Rests (r.input t) (r.state t)) ∧
    (∀ k, Holds r k → (r.command t k).valid = true →
      ∃ u, t ≤ u ∧ u ≤ t + 2 ∧ r.takes u k = true ∧ r.command u k = r.command t k) ∧
    ∀ k, rspValid control (r.input (t + 1)).slave (r.state (t + 1)) k =
        (r.takes t k && (r.command t k).av.read) ∧
      (SlavePort.rpData control.translator (r.input (t + 1)).slave (r.state (t + 1)).port).data =
        (r.input t).slave.avReaddata := by
  refine ⟨?_, fun k hholds hvalid => ?_, fun k => ⟨r.rsp_valid_succ t k, rsp_data_succ t _⟩⟩
  -- what the multiplexer lets through is what it takes
  · by_cases htaken : ∃ k, r.takes t k = true
    · obtain ⟨k, htakes⟩ := htaken
      exact .inl ⟨k, htakes, performs_of_takes htakes, fun _ hj => Run.takes_unique hj htakes⟩
    · have hnone : ∀ k, r.takes t k = false := by simpa using htaken
      exact .inr ⟨hnone, rests_of_not_takes hnone⟩
  · exact taken_of_holds hholds hvalid

end Run

end CE213Lab.System.ControlPath
