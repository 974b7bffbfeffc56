import CE213Lab.System.MemoryPort
import CE213Lab.System.SlavePath

/-!
# From a DMA master to its memory

The path to an on-chip memory as a master of the DMA sees it: the master shares the memory with the
two masters of the CPU. Both masters of the DMA have such a path; they differ in the ids and in the
memory. Its translator, its address router, which knows the one slave, and its demultiplexer hand
everything through. What the CPU sends, and when, is left open.
-/

namespace CE213Lab.System.MemoryPath

open Foundation MasterAgent
open SlavePath (Command)

variable {aw numwords : ℕ} {ram : SyncRam aw numwords}

/-- The agent of the DMA master, whose id is none of the CPU's, and the id of the memory. -/
structure Ids where
  own : MasterAgent.Params
  destid : BitVec 3
  own_ne_data : own.id ≠ 2
  own_ne_instruction : own.id ≠ 3

/-- The masters in the order of the multiplexer: the two of the CPU, and the DMA. -/
def agent (own : MasterAgent.Params) : Fin 3 → MasterAgent.Params
  | 0 => instructionMaster
  | 1 => dataMaster
  | 2 => own

/-- `System_id_router_001.sv` and `System_id_router_002.sv`: the channel of a response, one bit for
each master. -/
def idRouter (own destId : BitVec 3) : BitVec 5 :=
  if destId = own then 4 else if destId = 2 then 2 else 1

theorem id_router (ids : Ids) (j k : Fin 3) :
    (idRouter ids.own.id (agent ids.own j).id).getLsbD k = decide (k = j) := by
  have hone : ∀ channel : BitVec 5, ∀ m : Fin 3, channel = BitVec.twoPow 5 m →
      channel.getLsbD k = decide (k = m) := by
    rintro _ m rfl
    revert m k
    decide
  match j with
  | 0 =>
      have hne : instructionMaster.id ≠ ids.own.id := Ne.symm ids.own_ne_instruction
      refine hone _ 0 ?_
      rw [idRouter, agent, if_neg hne]
      decide
  | 1 =>
      have hne : dataMaster.id ≠ ids.own.id := Ne.symm ids.own_ne_data
      refine hone _ 1 ?_
      rw [idRouter, agent, if_neg hne]
      decide
  | 2 =>
      refine hone _ 2 ?_
      rw [idRouter, agent, if_pos rfl]
      decide

/-- The responses to the CPU go through its response multiplexers. -/
def config (ids : Ids) : SlavePath.Config 3 where
  translator := MemoryPort.translator
  agent := agent ids.own
  destid := ids.destid
  idRouter := idRouter ids.own.id
  muxed k := k != 2
  several := by decide
  routes := id_router ids

structure Inputs where
  instruction : Command
  data : Command
  dma : Master

structure State (ram : SyncRam aw numwords) where
  holdWaitrequest : Bool
  mux : CmdXbarMux.State 3
  port : MemoryPort.State ram

/-- The word address of a byte address. -/
def wordAddress (aw : ℕ) (address : BitVec 32) : BitVec aw :=
  getField 2 aw address

section Wires

variable (ids : Ids) (i : Inputs) (s : State ram)

def master : Fin 3 → Command
  | 0 => i.instruction
  | 1 => i.data
  | 2 => ⟨cpValid i.dma, i.dma⟩

def pathInputs : SlavePath.Inputs 3 where
  master := master i
  slave := MemoryPort.slave s.port

def path : SlavePath.State 3 where
  mux := s.mux
  port := s.port.agent

/-! ## What the DMA master sees -/

/-- The DMA master waits while its agent holds it, and until its command is taken. -/
def avWaitrequest : Bool :=
  s.holdWaitrequest || SlavePath.waitrequest (config ids) (pathInputs i s) (path s) 2

/-- The path offers the response to master `k`. -/
def rspValid (k : Fin 3) : Bool :=
  SlavePath.rspValid (config ids) (MemoryPort.slave s.port) (path s) k

def avReaddatavalid : Bool :=
  rspValid ids s 2 && !(MemoryPort.rpData s.port).transWrite

def avReaddata : BitVec 32 :=
  (MemoryPort.rpData s.port).data

/-! ## Clock edge -/

def step : State ram where
  holdWaitrequest := false
  mux := CmdXbarMux.step (SlavePath.muxInputs (config ids) (pathInputs i s) (path s)) s.mux
  port := MemoryPort.step (SlavePath.portInputs (config ids) (pathInputs i s) (path s)) s.port

end Wires

def machine (ids : Ids) (ram : SyncRam aw numwords) : Machine Inputs (State ram) where
  step := step ids

/-- What a reset leaves. -/
structure IsReset (s : State ram) : Prop where
  holdWaitrequest : s.holdWaitrequest = true
  mux : s.mux = CmdXbarMux.reset
  port : SlavePort.IsReset s.port.agent

/-- A run from reset in which nothing is written past the last word of the memory. -/
structure Run (ids : Ids) (ram : SyncRam aw numwords) extends Execution (machine ids ram) where
  reset : IsReset (state 0)
  range : ∀ t k, (master (input t) k).valid = true → (master (input t) k).av.write = true →
    (wordAddress aw (master (input t) k).av.address).toNat < numwords

namespace Run

variable {ids : Ids} (r : Run ids ram) {t : ℕ}

/-- The multiplexer and the port, without the memory. -/
def path : SlavePath.Run (config ids) where
  input t := pathInputs (r.input t) (r.state t)
  state t := MemoryPath.path (r.state t)
  state_succ t := by
    rw [r.state_succ]
    rfl
  reset := ⟨r.reset.mux, r.reset.port⟩

/-- The port of the path. -/
def port : Execution (MemoryPort.machine ram) where
  input t := (r.path.port.input t).1
  state t := (r.state t).port
  state_succ t := by
    rw [r.state_succ]
    rfl

variable {r}

/-- Masking the two lowest bits, as two stages do, does not change the word. -/
theorem av_address_routed (haw : aw ≤ 30) (p : MasterAgent.Params) (destid : BitVec 3)
    (av : Master) : SlavePort.avAddress aw (routed p destid av) = wordAddress aw av.address := by
  have hmasked : ∀ a : BitVec 32, getField 2 aw (setField 0 (0 : BitVec 2) a) = getField 2 aw a :=
    fun a => getField_setField_of_disjoint _ _ (by omega) (by omega)
  rw [SlavePort.avAddress, SlavePort.m0Address, addr_routed, avAddressAligned, hmasked, hmasked,
    wordAddress]

/-- What is written is the command of a master that is served. -/
theorem exists_taken_write (hwrite : SlavePort.localWrite (r.port.input t) = true) :
    ∃ k, r.path.takes t k = true ∧ (master (r.input t) k).av.write = true ∧
      (r.port.input t).cpData =
        routed (agent ids.own k) ids.destid (master (r.input t) k).av := by
  rw [SlavePort.localWrite, Bool.and_eq_true] at hwrite
  obtain ⟨k, htakes, hdata⟩ := SlavePath.Run.exists_taken (r := r.path) rfl hwrite.1
  refine ⟨k, htakes, ?_, hdata⟩
  have hwrite := hwrite.2
  rwa [show (r.port.input t).cpData = _ from hdata, transWrite_routed] at hwrite

theorem well_used (haw : aw ≤ 30) : MemoryPort.WellUsed r.port where
  reset := r.reset.port
  quiet := SlavePath.Run.port_input_none (r := r.path) SlavePath.Run.turn_zero
  rpReady t hvalid := (SlavePath.Run.well_used (r := r.path)).rpReady t hvalid
  range t hwrite := by
    obtain ⟨k, htakes, hwrite, hdata⟩ := exists_taken_write hwrite
    rw [hdata, av_address_routed haw]
    exact r.range t k (Bool.and_eq_true_iff.mp htakes).1 hwrite

/-! ## The DMA master -/

variable (r) in
/-- The wait request of the DMA master. -/
def waits (t : ℕ) : Bool :=
  avWaitrequest ids (r.input t) (r.state t)

variable (r) in
/-- The words of the memory before cycle `t`. -/
def contents (t : ℕ) : BitVec aw → BitVec 32 :=
  MemoryPort.contents r.port t

theorem word_eq (haw : aw ≤ 30) {a : BitVec aw} (ha : a.toNat < numwords) (t : ℕ) :
    ram.word (r.state t).port.ram a = r.contents t a := by
  cases t with
  | zero => rfl
  | succ t => exact ((well_used haw).holding (e := r.port) t).words a ha

theorem hold_succ (t : ℕ) : (r.state (t + 1)).holdWaitrequest = false := by
  rw [r.state_succ]
  rfl

/-- With a command on offer the DMA master waits until the multiplexer takes it. -/
theorem takes_eq (t : ℕ) : r.path.takes t 2 = (cpValid (r.input t).dma && !r.waits t) := by
  show (cpValid (r.input t).dma && _) = _
  congr 2
  cases t with
  | zero =>
      have hnone : SlavePath.waitrequest (config ids) (r.path.input 0) (r.path.state 0) 2 = true :=
        congrArg not ((SlavePath.Run.turn_zero (r := r.path)).sink_ready_none 2)
      exact hnone.trans (Bool.or_eq_true_iff.mpr (.inl r.reset.holdWaitrequest)).symm
  | succ t =>
      show _ = (_ || _)
      rw [hold_succ, Bool.false_or]
      rfl

/-- A command that stays on offer is taken within three cycles. -/
theorem served_within
    (hholds : ∀ t, cpValid (r.input t).dma = true → r.waits t = true →
      cpValid (r.input (t + 1)).dma = true)
    (hvalid : cpValid (r.input t).dma = true) :
    ∃ u, t ≤ u ∧ u ≤ t + 3 ∧ cpValid (r.input u).dma = true ∧ r.waits u = false := by
  obtain ⟨u, hle, hbound, htakes⟩ := SlavePath.Run.served_within (r := r.path) (k := 2) rfl
    (fun u hu htakes => by
      rw [takes_eq, show cpValid (r.input u).dma = true from hu, Bool.true_and] at htakes
      exact hholds u hu (by simpa using htakes))
    hvalid
  rw [takes_eq, Bool.and_eq_true, Bool.not_eq_true'] at htakes
  exact ⟨u, hle, hbound, htakes.1, htakes.2⟩

/-- A command waits in the cycle it is first offered. -/
theorem waits_at_once (hnew : cpValid (r.input t).dma = false)
    (hvalid : cpValid (r.input (t + 1)).dma = true) : r.waits (t + 1) = true := by
  have htakes := SlavePath.Run.not_taken_at_once (r := r.path) (k := 2) rfl hnew
  rw [takes_eq, hvalid, Bool.true_and] at htakes
  simpa using htakes

/-! ## Reads -/

/-- A read of the DMA master is answered in the cycle after it is taken, and the master is given no
other response. -/
theorem readdatavalid_succ (t : ℕ) :
    avReaddatavalid ids (r.state (t + 1)) =
      ((r.input t).dma.read && !(r.input t).dma.write && !r.waits t) := by
  have hrsp : rspValid ids (r.state (t + 1)) 2 =
      (cpValid (r.input t).dma && !r.waits t && (r.input t).dma.read) := by
    rw [← takes_eq]
    exact SlavePath.Run.rsp_valid_succ (r := r.path) t 2
  rw [avReaddatavalid]
  cases hvalid : rspValid ids (r.state (t + 1)) 2 with
  | true =>
      have hwrite : (MemoryPort.rpData (r.state (t + 1)).port).transWrite =
          (r.input t).dma.write :=
        SlavePath.Run.rsp_trans_write (r := r.path) (t := t) (k := 2) hvalid
      rw [hvalid] at hrsp
      obtain ⟨htaken, hread⟩ := Bool.and_eq_true_iff.mp hrsp.symm
      rw [hwrite, hread, (Bool.and_eq_true_iff.mp htaken).2]
      cases (r.input t).dma.write <;> rfl
  | false =>
      rw [hvalid, cpValid] at hrsp
      cases hread : (r.input t).dma.read with
      | false => rfl
      | true =>
          rw [hread, Bool.or_true, Bool.true_and, Bool.and_true] at hrsp
          rw [← hrsp, Bool.and_false, Bool.false_and]

/-- In the first cycle there is no response. -/
theorem readdatavalid_zero : avReaddatavalid ids (r.state 0) = false := by
  have hnone : rspValid ids (r.state 0) 2 = false :=
    SlavePath.Run.rsp_valid_zero (r := r.path) 2
  rw [avReaddatavalid, hnone, Bool.false_and]

/-- A read that is taken gets the word stored by all the writes before it. -/
theorem data_succ (haw : aw ≤ 30) {k : Fin 3} (htakes : r.path.takes t k = true)
    (hread : (master (r.input t) k).av.read = true)
    (hwrite : (master (r.input t) k).av.write = false)
    (hrange : (wordAddress aw (master (r.input t) k).av.address).toNat < numwords) :
    (MemoryPort.rpData (r.state (t + 1)).port).data =
      r.contents t (wordAddress aw (master (r.input t) k).av.address) := by
  obtain ⟨hoffered, hdata⟩ := SlavePath.Run.port_input_of_takes htakes
  have hoffered : (r.port.input t).cpValid = true := hoffered
  have hdata : (r.port.input t).cpData =
      routed (agent ids.own k) ids.destid (master (r.input t) k).av := hdata
  have haddress : SlavePort.avAddress aw (r.port.input t).cpData =
      wordAddress aw (master (r.input t) k).av.address := by
    rw [hdata, av_address_routed haw]
  have hport := (well_used haw).data_succ (e := r.port) (t := t)
    (by rw [SlavePort.localRead, hoffered, hdata, transRead_routed, hread]; rfl)
    (by rw [SlavePort.localWrite, hdata, transWrite_routed, hwrite, Bool.and_false])
    (by rwa [haddress])
  rwa [haddress] at hport

/-- So does a read of the DMA master. -/
theorem readdata_succ (haw : aw ≤ 30) (hread : (r.input t).dma.read = true)
    (hwrite : (r.input t).dma.write = false) (htaken : r.waits t = false)
    (hrange : (wordAddress aw (r.input t).dma.address).toNat < numwords) :
    avReaddata (r.state (t + 1)) = r.contents t (wordAddress aw (r.input t).dma.address) := by
  have htakes : r.path.takes t 2 = true := by
    rw [takes_eq, cpValid, hread, htaken, Bool.or_true]
    rfl
  exact data_succ haw htakes hread hwrite hrange

/-! ## Writes -/

variable (r) in
/-- A master of the CPU has a write to the word at `a` on offer. -/
def CpuWrites (t : ℕ) (a : BitVec aw) : Prop :=
  ∃ k : Fin 3, k ≠ 2 ∧ (master (r.input t) k).valid = true ∧
    (master (r.input t) k).av.write = true ∧ wordAddress aw (master (r.input t) k).av.address = a

/-- A write of the DMA master stores its word in the cycle it is taken. -/
theorem contents_succ_of_taken (haw : aw ≤ 30) (hbytes : (r.input t).dma.byteenable = 15)
    (hwrite : (r.input t).dma.write = true) (htaken : r.waits t = false) :
    r.contents (t + 1) = Function.update (r.contents t) (wordAddress aw (r.input t).dma.address)
      (r.input t).dma.writedata := by
  have htakes : r.path.takes t 2 = true := by
    rw [takes_eq, cpValid, hwrite, htaken, Bool.true_or]
    rfl
  obtain ⟨hoffered, hdata⟩ := SlavePath.Run.port_input_of_takes htakes
  have hoffered : (r.port.input t).cpValid = true := hoffered
  have hdata : (r.port.input t).cpData = routed ids.own ids.destid (r.input t).dma := hdata
  have hlocal : SlavePort.localWrite (r.port.input t) = true := by
    rw [SlavePort.localWrite, hoffered, hdata, transWrite_routed, hwrite]
    rfl
  show MemoryPort.store (r.port.input t) (r.contents t) = _
  rw [MemoryPort.store, if_pos hlocal, hdata, av_address_routed haw, byteen_routed, data_routed,
    hbytes, writeBytes_all]

/-- A word the CPU does not write keeps its value but for a write of the DMA master that is
taken. -/
theorem contents_succ_of_not_taken (haw : aw ≤ 30) {a : BitVec aw} (hcpu : ¬ r.CpuWrites t a)
    (hnot : ¬ ((r.input t).dma.write = true ∧ r.waits t = false)) :
    r.contents (t + 1) a = r.contents t a := by
  show MemoryPort.store (r.port.input t) (r.contents t) a = _
  rw [MemoryPort.store]
  split
  · rename_i hlocal
    obtain ⟨k, htakes, hwrite, hdata⟩ := exists_taken_write hlocal
    refine Function.update_of_ne (fun heq => ?_) _ _
    rw [hdata, av_address_routed haw] at heq
    refine hcpu ⟨k, ?_, (Bool.and_eq_true_iff.mp htakes).1, hwrite, heq.symm⟩
    rintro rfl
    rw [takes_eq, Bool.and_eq_true, Bool.not_eq_true'] at htakes
    exact hnot ⟨hwrite, htakes.2⟩
  · rfl

end Run

end CE213Lab.System.MemoryPath
