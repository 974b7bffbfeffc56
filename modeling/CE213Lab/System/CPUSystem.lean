import CE213Lab.System.ControlPath
import CE213Lab.System.DMASystem
import CE213Lab.System.DataMaster

/-!
# The system around the CPU

`System.v` but for the core of the CPU and its instruction master: the data master with its router,
and the five slaves it has a path to, of which the debug module of the CPU and the UART are seen by
their ports only. What the two masters of the CPU want, and when, is left open, as are the words the
debug module and the UART return and the wait request of the first.
-/

namespace CE213Lab.System.CPUSystem

open Foundation MasterAgent
open SlavePath (Command)
open DataMaster (Target)

variable {ram0 : SyncRam 14 10000} {ram1 : SyncRam 10 1024}

structure State (ram0 : SyncRam 14 10000) (ram1 : SyncRam 10 1024) where
  dataMaster : DataMaster.State
  debug : SlavePath.State 2
  system : DMASystem.State ram0 ram1
  control : SlavePath.State 2
  uart : SlavePort.State
  uartWaitrequest : Bool

structure Inputs where
  core : DataMaster.Core
  instructionDebug : Command
  instruction0 : Command
  instruction1 : Command
  instructionControl : Command
  debugSlave : SlavePort.Slave
  uartReaddata : BitVec 32

/-! ## Commands -/

/-- `jtag_uart_0_avalon_jtag_slave_translator`. -/
def uartTranslator : SlavePort.Params where
  avReadlatency := 0
  useWaitrequest := true

/-- The two masters of the CPU in the order of a multiplexer. -/
def masters (instruction data : Command) : Fin 2 → Command
  | 0 => instruction
  | 1 => data

section Wires

variable (i : Inputs) (s : State ram0 ram1)

def uav : Master :=
  DataMaster.uav i.core s.dataMaster

/-- The demultiplexer of the data master offers its command to slave `k`. -/
def offers (k : Target) : Bool :=
  (DataMaster.srcChannel i.core s.dataMaster).getLsbD k.index && cpValid (uav i s)

theorem offers_eq (k : Target) :
    offers i s k = (decide (k = DataMaster.target i.core.address) && cpValid (uav i s)) := by
  rw [offers, DataMaster.src_channel_eq, DataMaster.getLsbD_channel]

def command (k : Target) : Command where
  valid := offers i s k
  av := uav i s

def debugInputs : SlavePath.Inputs 2 where
  master := masters i.instructionDebug (command i s .debug)
  slave := i.debugSlave

/-- The control interface has no wait request. -/
def controlSlave : SlavePort.Slave where
  avWaitrequest := false
  avReaddata := s.system.dma.control.oReaddata

def controlInputs : SlavePath.Inputs 2 where
  master := masters i.instructionControl (command i s .control)
  slave := controlSlave s

def systemInputs : DMASystem.Inputs where
  iChipselectN := ControlPath.iChipselectN (controlInputs i s) s.control
  iRead := ControlPath.iRead (controlInputs i s) s.control
  iWrite := ControlPath.iWrite (controlInputs i s) s.control
  iAddress := ControlPath.iAddress (controlInputs i s) s.control
  iWritedata := ControlPath.iWritedata (controlInputs i s) s.control
  instruction0 := i.instruction0
  data0 := command i s .memory0
  instruction1 := i.instruction1
  data1 := command i s .memory1

def memory0Inputs : SlavePath.Inputs 3 :=
  MemoryPath.pathInputs (DMASystem.memory0Inputs (systemInputs i s) s.system) s.system.memory0

def memory1Inputs : SlavePath.Inputs 3 :=
  MemoryPath.pathInputs (DMASystem.memory1Inputs (systemInputs i s) s.system) s.system.memory1

/-- `av_waitrequest` of the UART is a register. -/
def uartSlave : SlavePort.Slave where
  avWaitrequest := s.uartWaitrequest
  avReaddata := i.uartReaddata

/-- The UART is a slave of the data master alone and has no multiplexer. Its responses are offered
to the response multiplexer, which lets one through when it is there. -/
def uartInputs : SlavePort.Inputs where
  cpValid := offers i s .uart
  cpData := routed MasterAgent.dataMaster 1 (uav i s)
  cpStartofpacket := true
  cpEndofpacket := true
  rpReady := SlavePort.rpValid s.uart

/-- The data master at the multiplexers of the two slaves that both masters share. -/
def sharedMaster : Fin 2 :=
  Fin.last 1

/-- The data master at the multiplexers of the memories, before the engine. -/
def memoryMaster : Fin 3 :=
  Fin.castSucc (Fin.last 1)

/-- Slave `k` would take a command of the data master. -/
def ready : Target → Bool
  | .debug => !SlavePath.waitrequest ControlPath.debug (debugInputs i s) s.debug sharedMaster
  | .memory0 => !SlavePath.waitrequest (MemoryPath.config DMASystem.readPath) (memory0Inputs i s)
      (MemoryPath.path s.system.memory0) memoryMaster
  | .memory1 => !SlavePath.waitrequest (MemoryPath.config DMASystem.writePath) (memory1Inputs i s)
      (MemoryPath.path s.system.memory1) memoryMaster
  | .control => !SlavePath.waitrequest ControlPath.control (controlInputs i s) s.control
      sharedMaster
  | .uart => SlavePort.cpReady uartTranslator (uartSlave i s) s.uart

/-! ## Responses -/

/-- Slave `k` offers a response to the data master. -/
def rspValid : Target → Bool
  | .debug => SlavePath.rspValid ControlPath.debug i.debugSlave s.debug sharedMaster
  | .memory0 => MemoryPath.rspValid DMASystem.readPath s.system.memory0 memoryMaster
  | .memory1 => MemoryPath.rspValid DMASystem.writePath s.system.memory1 memoryMaster
  | .control => SlavePath.rspValid ControlPath.control (controlSlave s) s.control sharedMaster
  | .uart => SlavePort.rpValid s.uart

def rspData : Target → Packet
  | .debug => SlavePort.rpData ControlPath.debug.translator i.debugSlave s.debug.port
  | .memory0 => MemoryPort.rpData s.system.memory0.port
  | .memory1 => MemoryPort.rpData s.system.memory1.port
  | .control => SlavePort.rpData ControlPath.control.translator (controlSlave s) s.control.port
  | .uart => SlavePort.rpData uartTranslator (uartSlave i s) s.uart

def network : DataMaster.Network where
  cpReady := Target.any fun k =>
    (DataMaster.srcChannel i.core s.dataMaster).getLsbD k.index && ready i s k
  rpValid := Target.any (rspValid i s)
  rpData := DataMaster.rspPayload (rspValid i s) (rspData i s)

/-! ## Clock edge -/

def step : State ram0 ram1 where
  -- all parts sample the wires before the edge
  dataMaster := DataMaster.step i.core (network i s) s.dataMaster
  debug := SlavePath.step ControlPath.debug (debugInputs i s) s.debug
  system := DMASystem.step (systemInputs i s) s.system
  control := SlavePath.step ControlPath.control (controlInputs i s) s.control
  uart := SlavePort.step uartTranslator (uartInputs i s) (uartSlave i s) s.uart
  -- low in the second cycle of an access
  uartWaitrequest :=
    !(SlavePort.avChipselect (uartInputs i s) s.uart &&
      (SlavePort.m0Write (uartInputs i s) s.uart || SlavePort.m0Read (uartInputs i s) s.uart) &&
        s.uartWaitrequest)

end Wires

def machine (ram0 : SyncRam 14 10000) (ram1 : SyncRam 10 1024) :
    Machine Inputs (State ram0 ram1) where
  step := step

/-- A run of the system from reset. -/
structure Run (ram0 : SyncRam 14 10000) (ram1 : SyncRam 10 1024) extends
    Execution (machine ram0 ram1) where
  dataMaster_reset : (state 0).dataMaster = DataMaster.reset
  debug_reset : SlavePath.IsReset (state 0).debug
  dma_reset : ∃ i s, i.iResetN = false ∧ (state 0).system.dma = DMA.DMAFinal.step i s
  memory0_reset : MemoryPath.IsReset (state 0).system.memory0
  memory1_reset : MemoryPath.IsReset (state 0).system.memory1
  control_reset : SlavePath.IsReset (state 0).control
  uart_reset : SlavePort.IsReset (state 0).uart
  uartWaitrequest_reset : (state 0).uartWaitrequest = true
  range : ∀ t c, c = (input t).instruction0 ∨ c = command (input t) (state t) .memory0 →
    c.valid = true → c.av.write = true → (MemoryPath.wordAddress 14 c.av.address).toNat < 10000

namespace Run

variable (r : Run ram0 ram1) {t : ℕ} {k : Target}

/-! ## The parts of a run -/

def dataMaster : Execution DataMaster.machine where
  input t := ((r.input t).core, network (r.input t) (r.state t))
  state t := (r.state t).dataMaster
  state_succ t := by
    rw [r.state_succ]
    rfl

def debug : SlavePath.Run ControlPath.debug where
  input t := debugInputs (r.input t) (r.state t)
  state t := (r.state t).debug
  state_succ t := by
    rw [r.state_succ]
    rfl
  reset := r.debug_reset

def control : SlavePath.Run ControlPath.control where
  input t := controlInputs (r.input t) (r.state t)
  state t := (r.state t).control
  state_succ t := by
    rw [r.state_succ]
    rfl
  reset := r.control_reset

/-- The engine with its memories. -/
def system : DMASystem.Run ram0 ram1 where
  input t := systemInputs (r.input t) (r.state t)
  state t := (r.state t).system
  state_succ t := by
    rw [r.state_succ]
    rfl
  reset := r.dma_reset
  reset0 := r.memory0_reset
  reset1 := r.memory1_reset
  range := r.range

def uart : Execution (SlavePort.machine uartTranslator) where
  input t := (uartInputs (r.input t) (r.state t), uartSlave (r.input t) (r.state t))
  state t := (r.state t).uart
  state_succ t := by
    rw [r.state_succ]
    rfl

/-- Slave `k` takes the command of the data master. -/
def takes (t : ℕ) (k : Target) : Bool :=
  offers (r.input t) (r.state t) k && ready (r.input t) (r.state t) k

variable {r}

theorem uart_well_used : SlavePort.WellUsed r.uart where
  reset := r.uart_reset
  quiet := by
    have hwait : SlavePort.uavWaitrequest uartTranslator (uartSlave (r.input 0) (r.state 0))
        (r.state 0).uart = true := r.uartWaitrequest_reset
    show SlavePort.accepts uartTranslator _ (uartSlave (r.input 0) (r.state 0)) (r.state 0).uart = _
    rw [SlavePort.accepts, hwait, if_pos rfl]
  rpReady _ hvalid := hvalid

/-- From the second cycle on the response FIFO of the UART has room. -/
theorem uart_source_ready_succ (t : ℕ) : SlavePort.rfSourceReady (r.state (t + 1)).uart = true :=
  (uart_well_used.holding t).rf_source_ready

/-- In the first cycle the UART waits. -/
theorem uart_source_ready (hwait : (r.state t).uartWaitrequest = false) :
    SlavePort.rfSourceReady (r.state t).uart = true := by
  cases t with
  | zero => exact absurd (r.uartWaitrequest_reset.symm.trans hwait) (by decide)
  | succ t => exact uart_source_ready_succ t

/-! ## Who takes a command -/

/-- No slave takes a command in the first cycle. -/
theorem takes_zero (k : Target) : r.takes 0 k = false := by
  have hnot : ∀ {n : ℕ} {c : SlavePath.Config n} (p : SlavePath.Run c) (j : Fin n),
      (!SlavePath.waitrequest c (p.input 0) (p.state 0) j) = false := fun p j => by
    rw [SlavePath.waitrequest, Bool.not_not]
    exact SlavePath.Run.turn_zero.sink_ready_none j
  have hready : ready (r.input 0) (r.state 0) k = false := by
    cases k with
    | debug => exact hnot r.debug sharedMaster
    | memory0 => exact hnot r.system.memory0.path memoryMaster
    | memory1 => exact hnot r.system.memory1.path memoryMaster
    | control => exact hnot r.control sharedMaster
    | uart =>
        show (!(r.state 0).uartWaitrequest && _) = false
        rw [r.uartWaitrequest_reset, Bool.not_true, Bool.false_and]
  rw [takes, hready, Bool.and_false]

/-- The data master's command is taken by the slave its address is in. -/
theorem takes_target (t : ℕ) :
    DataMaster.takes r.dataMaster t = r.takes t (DataMaster.target (r.input t).core.address) := by
  have hready : Target.any (fun k =>
      (DataMaster.srcChannel (r.input t).core (r.state t).dataMaster).getLsbD k.index &&
        ready (r.input t) (r.state t) k) =
          ready (r.input t) (r.state t) (DataMaster.target (r.input t).core.address) := by
    refine Target.any_of_single fun k => ?_
    rw [DataMaster.src_channel_eq, DataMaster.getLsbD_channel, Bool.and_comm]
  cases t with
  | zero =>
      -- both sides still hold up the first command
      rw [takes_zero, DataMaster.takes, DataMaster.uavWaitrequest]
      show (_ && !((r.state 0).dataMaster.holdWaitrequest || _)) = false
      rw [r.dataMaster_reset]
      exact Bool.and_false _
  | succ t =>
      have hhold : (r.state (t + 1)).dataMaster.holdWaitrequest = false := by
        rw [r.state_succ]
        rfl
      have hnetwork : (network (r.input (t + 1)) (r.state (t + 1))).cpReady = _ := hready
      rw [takes, offers_eq, decide_eq_true rfl, Bool.true_and, DataMaster.takes,
        DataMaster.uavWaitrequest]
      show (_ && !((r.state (t + 1)).dataMaster.holdWaitrequest ||
        !(network (r.input (t + 1)) (r.state (t + 1))).cpReady)) = _
      rw [hhold, hnetwork, Bool.false_or, Bool.not_not]
      rfl

/-- No other slave takes it. -/
theorem takes_eq (t : ℕ) (k : Target) :
    r.takes t k = (DataMaster.takes r.dataMaster t &&
      decide (k = DataMaster.target (r.input t).core.address)) := by
  by_cases hk : k = DataMaster.target (r.input t).core.address
  · rw [takes_target, decide_eq_true hk, Bool.and_true, ← hk]
  · rw [takes, offers_eq, decide_eq_false hk, Bool.and_false, Bool.false_and, Bool.false_and]

/-! ## Responses -/

/-- A slave responds in the cycle after it takes a read. -/
theorem rsp_valid_succ (t : ℕ) (k : Target) :
    rspValid (r.input (t + 1)) (r.state (t + 1)) k =
      (r.takes t k && (uav (r.input t) (r.state t)).read) := by
  cases k with
  | debug => exact r.debug.rsp_valid_succ t sharedMaster
  | memory0 => exact r.system.memory0.path.rsp_valid_succ t memoryMaster
  | memory1 => exact r.system.memory1.path.rsp_valid_succ t memoryMaster
  | control => exact r.control.rsp_valid_succ t sharedMaster
  | uart =>
      have hasked := SlavePort.isSome_asks_of_routed
        (i := uartInputs (r.input t) (r.state t)) rfl
      show SlavePort.rpValid (r.uart.state (t + 1)) =
        (offers (r.input t) (r.state t) .uart && (!(r.state t).uartWaitrequest &&
          SlavePort.rfSourceReady (r.state t).uart) && _)
      rw [uart_well_used.rp_valid_succ]
      show (if (r.state t).uartWaitrequest then none
        else SlavePort.asks (uartInputs (r.input t) (r.state t))).isSome = _
      cases hwait : (r.state t).uartWaitrequest with
      | true => simp
      | false =>
          rw [if_neg Bool.false_ne_true, hasked, uart_source_ready hwait, Bool.not_false,
            Bool.and_true, Bool.and_true]
          rfl

theorem rsp_valid_zero (k : Target) : rspValid (r.input 0) (r.state 0) k = false := by
  cases k with
  | debug => exact SlavePath.Run.rsp_valid_zero (r := r.debug) sharedMaster
  | memory0 => exact SlavePath.Run.rsp_valid_zero (r := r.system.memory0.path) memoryMaster
  | memory1 => exact SlavePath.Run.rsp_valid_zero (r := r.system.memory1.path) memoryMaster
  | control => exact SlavePath.Run.rsp_valid_zero (r := r.control) sharedMaster
  | uart => exact r.uart_reset.rp_valid

theorem rsp_trans_write (h : rspValid (r.input (t + 1)) (r.state (t + 1)) k = true) :
    (rspData (r.input (t + 1)) (r.state (t + 1)) k).transWrite =
      (uav (r.input t) (r.state t)).write := by
  cases k with
  | debug => exact SlavePath.Run.rsp_trans_write (r := r.debug) (k := sharedMaster) h
  | memory0 =>
      exact SlavePath.Run.rsp_trans_write (r := r.system.memory0.path) (k := memoryMaster) h
  | memory1 =>
      exact SlavePath.Run.rsp_trans_write (r := r.system.memory1.path) (k := memoryMaster) h
  | control => exact SlavePath.Run.rsp_trans_write (r := r.control) (k := sharedMaster) h
  | uart =>
      exact (uart_well_used.trans_write_succ h _).trans (transWrite_routed _ _ _)

/-- After a read is taken the one response is that of the slave its address is in. -/
theorem rsp_valid_of_read
    (hread : (DataMaster.takes r.dataMaster t && (uav (r.input t) (r.state t)).read) = true)
    (k : Target) : rspValid (r.input (t + 1)) (r.state (t + 1)) k =
      decide (k = DataMaster.target (r.input t).core.address) := by
  rw [rsp_valid_succ, takes_eq, Bool.and_right_comm, hread, Bool.true_and]

/-- The interconnect answers the data master as it expects. -/
theorem answered (hholds : DataMaster.Holds r.dataMaster) : DataMaster.Answered r.dataMaster where
  reset := r.dataMaster_reset
  first := by
    show (Target.any (rspValid (r.input 0) (r.state 0)) && _) = false
    rw [Target.any_eq_false rsp_valid_zero, Bool.false_and]
  next t := by
    show (Target.any (rspValid (r.input (t + 1)) (r.state (t + 1))) &&
      !(DataMaster.rspPayload (rspValid (r.input (t + 1)) (r.state (t + 1)))
        (rspData (r.input (t + 1)) (r.state (t + 1)))).transWrite) =
          (_ && (uav (r.input t) (r.state t)).read)
    cases hread : DataMaster.takes r.dataMaster t && (uav (r.input t) (r.state t)).read with
    | false =>
        rw [Target.any_eq_false fun k => by
          rw [rsp_valid_succ, takes_eq, Bool.and_right_comm, hread, Bool.false_and]]
        rfl
    | true =>
        -- one response, and not one to a write
        have hvalid := rsp_valid_of_read hread
        have hany : Target.any (rspValid (r.input (t + 1)) (r.state (t + 1))) = true :=
          @Target.any_of_single _ (fun _ => true) _ fun k => by rw [hvalid, Bool.true_and]
        rw [hany, DataMaster.rsp_payload_of_single _ hvalid, rsp_trans_write (by
          rw [hvalid, decide_eq_true rfl])]
        have hpresents : (r.input t).core.read = true :=
          (Bool.and_eq_true_iff.mp (Bool.and_eq_true_iff.mp hread).2).1
        show (true && !((r.input t).core.write && _)) = true
        rw [show (r.input t).core.write = false from hholds.exclusive t hpresents]
        rfl

/-! ## What a read returns -/

variable (r) in
/-- What slave `k` has for a read of the data master in cycle `t`: a memory the word that all the
writes before have left, another slave the word it drives. -/
def answer (t : ℕ) : Target → BitVec 32
  | .debug => (r.input t).debugSlave.avReaddata
  | .memory0 => r.system.memory0.contents t
      (MemoryPath.wordAddress 14 ((r.input t).core.address.setWidth 32))
  | .memory1 => r.system.memory1.contents t
      (MemoryPath.wordAddress 10 ((r.input t).core.address.setWidth 32))
  | .control => (r.state t).system.dma.control.oReaddata
  | .uart => (r.input t).uartReaddata

variable (r) in
/-- An address in the first memory is one of its words. -/
def InRange (t : ℕ) : Prop :=
  DataMaster.target (r.input t).core.address = .memory0 →
    (MemoryPath.wordAddress 14 ((r.input t).core.address.setWidth 32)).toNat < 10000

theorem rsp_data_succ (htakes : r.takes t k = true)
    (hread : (uav (r.input t) (r.state t)).read = true)
    (hwrite : (uav (r.input t) (r.state t)).write = false)
    (hrange : k = .memory0 →
      (MemoryPath.wordAddress 14 ((r.input t).core.address.setWidth 32)).toNat < 10000) :
    (rspData (r.input (t + 1)) (r.state (t + 1)) k).data = r.answer t k := by
  cases k with
  | debug =>
      rw [rspData, SlavePort.data_rpData]
      exact SlavePort.readdata_pre_succ (e := r.debug.port) t
  | memory0 =>
      exact MemoryPath.Run.data_succ (r := r.system.memory0) (k := memoryMaster) (by decide)
        htakes hread hwrite (hrange rfl)
  | memory1 =>
      exact MemoryPath.Run.data_succ (r := r.system.memory1) (k := memoryMaster) (by decide)
        htakes hread hwrite (BitVec.isLt _)
  | control => exact ControlPath.rsp_data_succ (r := r.control) t _
  | uart =>
      rw [rspData, SlavePort.data_rpData]
      exact SlavePort.readdata_pre_succ (e := r.uart) t

/-- The CPU reads it in the next cycle. -/
theorem readdata_succ (hholds : DataMaster.Holds r.dataMaster)
    (htakes : DataMaster.takes r.dataMaster t = true) (hcore : (r.input t).core.read = true)
    (hrange : r.InRange t) :
    DataMaster.avReaddata (network (r.input (t + 1)) (r.state (t + 1))) =
      r.answer t (DataMaster.target (r.input t).core.address) := by
  have hfresh := DataMaster.fresh_of_valid hholds (answered hholds)
    (Bool.and_eq_true_iff.mp htakes).1
  have hread : (uav (r.input t) (r.state t)).read = true :=
    (congrArg Master.read (DataMaster.uav_of_fresh hfresh)).trans hcore
  have hwrite : (uav (r.input t) (r.state t)).write = false :=
    (congrArg Master.write (DataMaster.uav_of_fresh hfresh)).trans (hholds.exclusive t hcore)
  show (DataMaster.rspPayload (rspValid (r.input (t + 1)) (r.state (t + 1)))
    (rspData (r.input (t + 1)) (r.state (t + 1)))).data = _
  rw [DataMaster.rsp_payload_of_single _ (rsp_valid_of_read (by rw [htakes, hread]; rfl))]
  exact rsp_data_succ ((takes_target t).symm.trans htakes) hread hwrite hrange

/-! ## How long an access takes -/

section Holds

variable (hholds : DataMaster.Holds r.dataMaster)

include hholds

/-- A command stays on offer to its slave until it is taken. -/
theorem offers_succ (hoffers : offers (r.input t) (r.state t) k = true)
    (hnot : r.takes t k = false) : offers (r.input (t + 1)) (r.state (t + 1)) k = true := by
  rw [offers_eq, Bool.and_eq_true, decide_eq_true_eq] at hoffers
  obtain ⟨rfl, hvalid⟩ := hoffers
  have hpresents : DataMaster.presents r.dataMaster t = true := DataMaster.presents_of_valid hvalid
  obtain ⟨hcore, hfresh⟩ := DataMaster.held_of_not_taken hholds (answered hholds) hpresents
    (DataMaster.fresh_of_valid hholds (answered hholds) hvalid) ((takes_target t).trans hnot)
  have hnext : DataMaster.presents r.dataMaster (t + 1) = true := by
    rwa [DataMaster.presents, hcore]
  -- the same access, and still fresh
  rw [offers_eq, show (r.input (t + 1)).core = (r.input t).core from hcore, decide_eq_true rfl,
    Bool.true_and]
  exact DataMaster.valid_of_fresh hnext hfresh

omit hholds in
/-- The UART takes a command as soon as it does not wait. -/
theorem uart_takes (hoffers : offers (r.input t) (r.state t) .uart = true)
    (hwait : (r.state t).uartWaitrequest = false) : r.takes t .uart = true := by
  show (offers (r.input t) (r.state t) .uart && (!(r.state t).uartWaitrequest &&
    SlavePort.rfSourceReady (r.state t).uart)) = true
  rw [hoffers, hwait, uart_source_ready hwait]
  rfl

omit hholds in
/-- It waits for one cycle. -/
theorem uart_wait_succ (hoffers : offers (r.input (t + 1)) (r.state (t + 1)) .uart = true)
    (hwait : (r.state (t + 1)).uartWaitrequest = true) :
    (r.state (t + 2)).uartWaitrequest = false := by
  have hvalid : cpValid (uav (r.input (t + 1)) (r.state (t + 1))) = true :=
    (Bool.and_eq_true_iff.mp hoffers).2
  have hread : SlavePort.m0Read (uartInputs (r.input (t + 1)) (r.state (t + 1)))
      (r.state (t + 1)).uart = (uav (r.input (t + 1)) (r.state (t + 1))).read := by
    rw [SlavePort.m0Read, uart_source_ready_succ, Bool.true_and, SlavePort.localRead]
    show (offers _ _ _ && (routed MasterAgent.dataMaster 1 _).transRead) = _
    rw [hoffers, transRead_routed, Bool.true_and]
  have hwrite : SlavePort.m0Write (uartInputs (r.input (t + 1)) (r.state (t + 1)))
      (r.state (t + 1)).uart = (uav (r.input (t + 1)) (r.state (t + 1))).write := by
    rw [SlavePort.m0Write, uart_source_ready_succ, Bool.true_and, SlavePort.localWrite]
    show (offers _ _ _ && (routed MasterAgent.dataMaster 1 _).transWrite) = _
    rw [hoffers, transWrite_routed, Bool.true_and]
  rw [r.state_succ]
  show (!(SlavePort.avChipselect _ _ && (SlavePort.m0Write _ _ || SlavePort.m0Read _ _) &&
    (r.state (t + 1)).uartWaitrequest)) = false
  rw [SlavePort.avChipselect, hread, hwrite, hwait, Bool.or_comm, Bool.and_self, Bool.and_true,
    Bool.not_eq_false']
  exact hvalid

theorem uart_taken_within (hoffers : offers (r.input t) (r.state t) .uart = true) :
    ∃ u, t ≤ u ∧ u ≤ t + 3 ∧ r.takes u .uart = true := by
  cases hnow : r.takes t .uart with
  | true => exact ⟨t, le_rfl, by omega, hnow⟩
  | false =>
      have hnext := offers_succ hholds hoffers hnow
      cases hsecond : r.takes (t + 1) .uart with
      | true => exact ⟨t + 1, by omega, by omega, hsecond⟩
      | false =>
          -- the response FIFO has room by now, so what kept it is the wait request
          have hwait : (r.state (t + 1)).uartWaitrequest = true := by
            cases hwait : (r.state (t + 1)).uartWaitrequest with
            | true => rfl
            | false => exact absurd ((uart_takes hnext hwait).symm.trans hsecond) (by decide)
          exact ⟨t + 2, by omega, by omega,
            uart_takes (offers_succ hholds hnext hsecond) (uart_wait_succ hnext hwait)⟩

/-- Every slave but the debug module takes a command within three cycles. -/
theorem taken_within (hoffers : offers (r.input t) (r.state t) k = true) (hk : k ≠ .debug) :
    ∃ u, t ≤ u ∧ u ≤ t + 3 ∧ r.takes u k = true := by
  cases k with
  | debug => exact absurd rfl hk
  | memory0 =>
      exact SlavePath.Run.served_within (r := r.system.memory0.path) (k := memoryMaster) rfl
        (fun _ hvalid hnot => offers_succ hholds hvalid hnot) hoffers
  | memory1 =>
      exact SlavePath.Run.served_within (r := r.system.memory1.path) (k := memoryMaster) rfl
        (fun _ hvalid hnot => offers_succ hholds hvalid hnot) hoffers
  | control =>
      obtain ⟨u, hle, hbound, htakes⟩ := SlavePath.Run.served_within (r := r.control)
        (k := sharedMaster) rfl (fun _ hvalid hnot => offers_succ hholds hvalid hnot) hoffers
      exact ⟨u, hle, by omega, htakes⟩
  | uart => exact uart_taken_within hholds hoffers

/-- So an access ends within four. -/
theorem ends_within (hpresents : DataMaster.presents r.dataMaster t = true)
    (htarget : DataMaster.target (r.input t).core.address ≠ .debug) :
    ∃ u, t ≤ u ∧ u ≤ t + 4 ∧ (r.input u).core = (r.input t).core ∧
      DataMaster.waits r.dataMaster u = false := by
  cases hfresh : DataMaster.ahead r.dataMaster t with
  | true =>
      exact ⟨t, le_rfl, by omega, rfl,
        (DataMaster.of_ahead hholds (answered hholds) t hfresh).2.1⟩
  | false =>
      have hoffers : offers (r.input t) (r.state t)
          (DataMaster.target (r.input t).core.address) = true := by
        rw [offers_eq, decide_eq_true rfl, Bool.true_and]
        exact DataMaster.valid_of_fresh hpresents hfresh
      obtain ⟨u, hle, hbound, htakes⟩ := taken_within hholds hoffers htarget
      rw [takes_eq, Bool.and_eq_true] at htakes
      obtain ⟨v, hlow, hhigh, hcore, hwaits⟩ :=
        DataMaster.ends_by hholds (answered hholds) hpresents hfresh hle htakes.1
      exact ⟨v, hlow, by omega, hcore, hwaits⟩

end Holds

/-- The loads and stores of a CPU that holds its signals while it waits. The system takes each of
them once and in order, by the slave its address is in; it ends within four cycles, unless it is for
the debug module; and a load ends one cycle after it is taken, with what the slave has for it. -/
theorem serves_loads_and_stores (r : Run ram0 ram1) (hholds : DataMaster.Holds r.dataMaster)
    (t : ℕ) :
    (DataMaster.takenLog r.dataMaster t = DataMaster.endedLog r.dataMaster t ++
      if DataMaster.ahead r.dataMaster t then [DataMaster.command (r.input t).core] else []) ∧
    (∀ k, r.takes t k = (DataMaster.takes r.dataMaster t &&
      decide (k = DataMaster.target (r.input t).core.address))) ∧
    (DataMaster.presents r.dataMaster t = true →
      DataMaster.target (r.input t).core.address ≠ .debug →
        ∃ u, t ≤ u ∧ u ≤ t + 4 ∧ (r.input u).core = (r.input t).core ∧
          DataMaster.waits r.dataMaster u = false) ∧
    (DataMaster.takes r.dataMaster t = true → (r.input t).core.read = true → r.InRange t →
      DataMaster.waits r.dataMaster (t + 1) = false ∧
        DataMaster.avReaddata (network (r.input (t + 1)) (r.state (t + 1))) =
          r.answer t (DataMaster.target (r.input t).core.address)) := by
  refine ⟨DataMaster.taken_log_eq hholds (answered hholds) t, takes_eq t, ends_within hholds,
    fun htakes hread hrange => ⟨?_, readdata_succ hholds htakes hread hrange⟩⟩
  exact DataMaster.read_ends_succ hholds (answered hholds) htakes hread

end Run

/-! ## A CPU that polls the engine -/

/-- The CPU reads the status register all the time, and fetches its instructions from the first
memory. -/
def pollingInputs : Inputs where
  core :=
    { address := 0x2303c
      byteenable := 15
      read := true
      write := false
      writedata := 0
      debugaccess := false }
  instructionDebug := { DMASystem.Transfer.fetching with valid := false }
  instruction0 := DMASystem.Transfer.fetching
  instruction1 := { DMASystem.Transfer.fetching with valid := false }
  instructionControl := { DMASystem.Transfer.fetching with valid := false }
  debugSlave := ⟨true, 0⟩
  uartReaddata := 0

def afterReset : State (SyncRam.ofWords 14 10000) (SyncRam.ofWords 10 1024) where
  dataMaster := DataMaster.reset
  debug := ⟨CmdXbarMux.reset, SlavePort.afterReset⟩
  system :=
    ⟨DMA.Bench.afterReset, DMASystem.Transfer.resetPath 14 10000,
      DMASystem.Transfer.resetPath 10 1024⟩
  control := ⟨CmdXbarMux.reset, SlavePort.afterReset⟩
  uart := SlavePort.afterReset
  uartWaitrequest := true

def polling : Run (SyncRam.ofWords 14 10000) (SyncRam.ofWords 10 1024) where
  toExecution := drive (machine _ _) (fun _ _ => pollingInputs) (fun _ _ env => env) afterReset ()
  dataMaster_reset := rfl
  debug_reset := ⟨rfl, SlavePort.isReset_afterReset⟩
  dma_reset := ⟨{ DMA.Bench.idle with iResetN := false }, DMA.Bench.powerUp, rfl, rfl⟩
  memory0_reset := ⟨rfl, rfl, SlavePort.isReset_afterReset⟩
  memory1_reset := ⟨rfl, rfl, SlavePort.isReset_afterReset⟩
  control_reset := ⟨rfl, SlavePort.isReset_afterReset⟩
  uart_reset := SlavePort.isReset_afterReset
  uartWaitrequest_reset := rfl
  range := by
    rintro t c (rfl | rfl) _ hwrite <;> exact absurd hwrite Bool.false_ne_true

theorem polling_holds : DataMaster.Holds polling.dataMaster :=
  ⟨fun _ _ => rfl, fun _ _ _ => rfl⟩

theorem polling_served : DataMaster.Holds polling.dataMaster ∧
    ∃ u, 1 ≤ u ∧ u ≤ 5 ∧ DataMaster.waits polling.dataMaster u = false := by
  obtain ⟨u, hle, hbound, _, hwaits⟩ :=
    (Run.serves_loads_and_stores polling polling_holds 1).2.2.1 rfl (by decide)
  exact ⟨polling_holds, u, hle, hbound, hwaits⟩

end CE213Lab.System.CPUSystem
