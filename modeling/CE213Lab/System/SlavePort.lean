import CE213Lab.Foundation.Machine
import CE213Lab.System.MasterAgent
import CE213Lab.System.SCFIFO

/-!
# The port of a slave

What stands between the commands for a slave and the slave: `altera_merlin_slave_agent.sv` with its
response FIFO two deep, and `altera_merlin_slave_translator.sv`. The agent is the one for
uncompressed packets (no master of the system compresses a read), where its burst uncompressor hands
the fields of the FIFO through. The translator is the one for a read latency of at most one and, for
a slave without a wait request, no wait states.
-/

namespace CE213Lab.System.SlavePort

open Foundation

/-- The parameters in which the translators of the system differ. -/
structure Params where
  avReadlatency : ℕ
  useWaitrequest : Bool

/-- An entry of the response FIFO. -/
structure Token where
  startofpacket : Bool
  endofpacket : Bool
  generateResponse : Bool
  packet : Packet

structure State where
  waitrequestResetOverride : Bool
  readLatencyShiftReg : Bool
  avReaddataPre : BitVec 32
  rspFifo : SCFIFO.State Token

/-- The command on offer, and whether a response would be taken. -/
structure Inputs where
  cpValid : Bool
  cpData : Packet
  cpStartofpacket : Bool
  cpEndofpacket : Bool
  rpReady : Bool

/-- What the slave drives. -/
structure Slave where
  avWaitrequest : Bool
  avReaddata : BitVec 32

/-! ## Commands -/

section Wires

variable (p : Params) (i : Inputs) (slave : Slave) (s : State)

/-- `in_ready` of the response FIFO: with two slots it is full when its last slot is. -/
def rfSourceReady : Bool :=
  !s.rspFifo.memUsed 1

def uavWaitrequest : Bool :=
  if p.useWaitrequest then slave.avWaitrequest else s.waitrequestResetOverride

def cpReady : Bool :=
  !uavWaitrequest p slave s && rfSourceReady s

def localRead : Bool :=
  i.cpValid && i.cpData.transRead

def localWrite : Bool :=
  i.cpValid && i.cpData.transWrite

def nonpostedWriteEndofpacket : Bool :=
  !i.cpData.transPosted && localWrite i && i.cpEndofpacket

def m0Read : Bool :=
  rfSourceReady s && localRead i

def m0Write : Bool :=
  rfSourceReady s && localWrite i

/-- The slave is selected whenever it is read or written. -/
def avChipselect : Bool :=
  m0Read i s || m0Write i s

/-- The address of the word, its two lowest bits masked off. -/
def m0Address (packet : Packet) : BitVec 32 :=
  setField 0 (0 : BitVec 2) packet.addr

/-- The word address the translator gives the slave. -/
def avAddress (aw : ℕ) (packet : Packet) : BitVec aw :=
  getField 2 aw (m0Address packet)

def rfSourceValid : Bool :=
  (localRead i || nonpostedWriteEndofpacket i) && rfSourceReady s && cpReady p slave s

/-- The command as it is kept for the response: without its data, and of the protection bits only
the debug access. -/
def rfSourceData (packet : Packet) : Packet :=
  setBit 96 (packet.getLsbD 96)
    (setField 96 (0 : BitVec 3) (setField 0 (0 : BitVec 32) packet))

def token : Token where
  startofpacket := i.cpStartofpacket
  endofpacket := i.cpEndofpacket
  generateResponse := nonpostedWriteEndofpacket i
  packet := rfSourceData i.cpData

/-! ## Responses -/

def rfSinkValid : Bool :=
  s.rspFifo.memUsed 0

def rfSink : Token :=
  s.rspFifo.mem 0

def sourceValid : Bool :=
  rfSinkValid s && (s.readLatencyShiftReg || (rfSink s).generateResponse)

def rpValid : Bool :=
  s.readLatencyShiftReg || sourceValid s

def rfSinkReady : Bool :=
  sourceValid s && i.rpReady

/-- Without a read latency the data of a read is taken in the cycle of the read. -/
def uavReaddata : BitVec 32 :=
  if p.avReadlatency = 0 then s.avReaddataPre else slave.avReaddata

/-- The response packet: the command's, with the data read, the ids exchanged and an "okay". -/
def rpData : Packet :=
  let sink := (rfSink s).packet
  sink |> setField 0 (uavReaddata p slave s)
    |> setField 89 sink.destId
    |> setField 92 sink.srcId
    |> setBit 71 (sink.transRead || sink.transCompressedRead)
    |> setBit 68 false
    |> setField 103 (0 : BitVec 2)

/-! ## Clock edge -/

def fifoInputs : SCFIFO.Inputs Token where
  inPayload := token i
  inValid := rfSourceValid p i slave s
  outReady := rfSinkReady i s

def step : State where
  waitrequestResetOverride := false
  readLatencyShiftReg :=
    m0Read i s && !uavWaitrequest p slave s && !s.waitrequestResetOverride
  avReaddataPre := slave.avReaddata
  rspFifo := SCFIFO.step 2 false (fifoInputs p i slave s) s.rspFifo

end Wires

/-- What a reset leaves. -/
structure IsReset (s : State) : Prop where
  waitrequestResetOverride : s.waitrequestResetOverride = true
  readLatencyShiftReg : s.readLatencyShiftReg = false
  memUsed : ∀ k, s.rspFifo.memUsed k = false

theorem IsReset.rp_valid {s : State} (h : IsReset s) : rpValid s = false := by
  rw [rpValid, sourceValid, rfSinkValid, h.readLatencyShiftReg, h.memUsed]
  rfl

/-- Such a state. -/
def afterReset : State where
  waitrequestResetOverride := true
  readLatencyShiftReg := false
  avReaddataPre := 0
  rspFifo := SCFIFO.reset ⟨false, false, false, 0⟩

theorem isReset_afterReset : IsReset afterReset :=
  ⟨rfl, rfl, fun _ => rfl⟩

/-! ## One command at a time -/

section Holding

variable {p : Params} {i : Inputs} {slave : Slave} {s : State} {pending : Option Inputs}

/-- The command, if it is to be answered. -/
def asks (i : Inputs) : Option Inputs :=
  if localRead i || nonpostedWriteEndofpacket i then some i else none

/-- The command to be answered, if the slave does not make it wait. -/
def accepts (p : Params) (i : Inputs) (slave : Slave) (s : State) : Option Inputs :=
  if uavWaitrequest p slave s then none else asks i

/-- The responses outstanding: none, or that of the command of the cycle before. -/
def outstanding (pending : Option Inputs) : BoundedQueue Token 2 where
  items := pending.toList.map token
  bounded := by cases pending <;> simp

/-- The port answers `pending` in this cycle. -/
structure Holding (s : State) (pending : Option Inputs) : Prop where
  override : s.waitrequestResetOverride = false
  asked : ∀ c ∈ pending, asks c = some c
  latency : s.readLatencyShiftReg = pending.elim false localRead
  slots : SCFIFO.Represents s.rspFifo (outstanding pending)

/-- Reads alone are answered, for every write of a master is posted. -/
theorem isSome_asks_of_routed {p : MasterAgent.Params} {destid : BitVec 3}
    {av : MasterAgent.Master} (hdata : i.cpData = MasterAgent.routed p destid av) :
    (asks i).isSome = (i.cpValid && av.read) := by
  have hposted : nonpostedWriteEndofpacket i = false := by
    rw [nonpostedWriteEndofpacket, localWrite, hdata, MasterAgent.transPosted_routed,
      MasterAgent.transWrite_routed]
    cases av.write <;> simp
  rw [asks, hposted, Bool.or_false, localRead, hdata, MasterAgent.transRead_routed]
  cases i.cpValid && av.read <;> rfl

theorem asks_asks {c : Inputs} (hc : c ∈ asks i) : asks c = some c := by
  rw [asks] at hc
  split at hc
  · rename_i hasked
    rw [Option.mem_some_iff] at hc
    rw [← hc, asks, if_pos hasked]
  · cases hc

theorem eq_of_mem_accepts {c : Inputs} (hc : c ∈ accepts p i slave s) : c ∈ asks i := by
  rw [accepts] at hc
  split at hc
  · cases hc
  · exact hc

theorem eq_of_mem_asks {c : Inputs} (hc : c ∈ asks i) : c = i := by
  rw [asks] at hc
  split at hc
  · exact (Option.mem_some_iff.mp hc).symm
  · cases hc

/-- A cycle that retires what was outstanding and takes `next` leaves that. -/
theorem slots_next {next : Option Inputs} (h : SCFIFO.Represents s.rspFifo (outstanding pending))
    (hnext : ∀ c ∈ next, c = i)
    (hwrite : SCFIFO.write 2 false (fifoInputs p i slave s) s.rspFifo = next.isSome)
    (hread : SCFIFO.read false (fifoInputs p i slave s) s.rspFifo = pending.isSome) :
    SCFIFO.Represents (step p i slave s).rspFifo (outstanding next) := by
  have hitems : SCFIFO.nextItems 2 false (fifoInputs p i slave s) s.rspFifo
      (outstanding pending).items = (outstanding next).items := by
    rw [SCFIFO.nextItems, SCFIFO.taken, hwrite, hread]
    cases next with
    | none => cases pending <;> rfl
    | some c =>
        rw [hnext c rfl]
        cases pending <;> rfl
  have hqueue : ∀ items hbound, items = (outstanding next).items →
      (⟨items, hbound⟩ : BoundedQueue Token 2) = outstanding next := by
    rintro _ _ rfl
    rfl
  exact hqueue _ _ hitems ▸ h.step false (by decide) (fifoInputs p i slave s)

namespace Holding

theorem rf_source_ready (h : Holding s pending) : rfSourceReady s = true := by
  rw [rfSourceReady, h.slots.used 1 (by decide)]
  cases pending <;> simp [outstanding]

/-- Only the slave holds a command up. -/
theorem cp_ready (h : Holding s pending) : cpReady p slave s = !uavWaitrequest p slave s := by
  rw [cpReady, h.rf_source_ready, Bool.and_true]

/-- Without a wait request nothing does. -/
theorem not_waiting (h : Holding s pending) (hwait : p.useWaitrequest = false) :
    uavWaitrequest p slave s = false := by
  rw [uavWaitrequest, hwait, if_neg Bool.false_ne_true, h.override]

theorem rf_source_valid (h : Holding s pending) (i : Inputs) :
    rfSourceValid p i slave s = (accepts p i slave s).isSome := by
  rw [rfSourceValid, h.rf_source_ready, h.cp_ready, Bool.and_true, accepts, asks]
  cases uavWaitrequest p slave s <;> cases localRead i || nonpostedWriteEndofpacket i <;> rfl

theorem rf_sink {c : Inputs} (h : Holding s (some c)) : rfSink s = token c :=
  (Option.some.inj (h.slots.item 0 (by simp [outstanding]))).symm

theorem source_valid (h : Holding s pending) : sourceValid s = pending.isSome := by
  rw [sourceValid, rfSinkValid, h.slots.used 0 (by decide)]
  cases pending with
  | none => rfl
  | some c =>
      have hasked : (localRead c || nonpostedWriteEndofpacket c) = true := by
        by_contra hnot
        have hasked := h.asked c rfl
        rw [asks, if_neg hnot] at hasked
        cases hasked
      rw [h.latency, h.rf_sink]
      exact hasked

/-- It answers exactly the command of the cycle before. -/
theorem rp_valid (h : Holding s pending) : rpValid s = pending.isSome := by
  rw [rpValid, h.source_valid, h.latency]
  cases pending <;> simp

/-- Every cycle retires the response and keeps that of the new command. -/
theorem slots_step (h : Holding s pending)
    (hready : pending.isSome = true → i.rpReady = true) :
    SCFIFO.Represents (step p i slave s).rspFifo (outstanding (accepts p i slave s)) := by
  have hwrite : SCFIFO.write 2 false (fifoInputs p i slave s) s.rspFifo =
      (accepts p i slave s).isSome := by
    show (rfSourceReady s && rfSourceValid p i slave s) = _
    rw [h.rf_source_ready, h.rf_source_valid, Bool.true_and]
  have hread : SCFIFO.read false (fifoInputs p i slave s) s.rspFifo = pending.isSome := by
    rw [SCFIFO.read_eq]
    show (sourceValid s && i.rpReady && !!s.rspFifo.memUsed 0) = _
    rw [h.source_valid, Bool.not_not, h.slots.used 0 (by decide)]
    cases pending with
    | none => rfl
    | some c =>
        rw [hready rfl]
        rfl
  exact slots_next h.slots (fun c hc => eq_of_mem_asks (eq_of_mem_accepts hc)) hwrite hread

/-- One cycle of the port. -/
theorem step (h : Holding s pending) (hready : pending.isSome = true → i.rpReady = true) :
    Holding (SlavePort.step p i slave s) (accepts p i slave s) where
  override := rfl
  asked c hc := asks_asks (eq_of_mem_accepts hc)
  latency := by
    show (m0Read i s && !uavWaitrequest p slave s && !s.waitrequestResetOverride) = _
    rw [m0Read, h.rf_source_ready, h.override, Bool.true_and, Bool.not_false, Bool.and_true,
      accepts, asks]
    cases uavWaitrequest p slave s with
    | true => simp
    | false =>
        cases hr : localRead i with
        | true => simp [hr]
        | false => cases nonpostedWriteEndofpacket i <;> simp [hr]
  slots := h.slots_step hready

end Holding

/-- Nothing is accepted in the first cycle out of reset when the translator has no wait request. -/
theorem IsReset.accepts_none (h : IsReset s) (hwait : p.useWaitrequest = false) :
    accepts p i slave s = none := by
  rw [accepts, uavWaitrequest, hwait, if_neg Bool.false_ne_true, h.waitrequestResetOverride,
    if_pos rfl]

/-- After a first cycle out of reset in which it accepts no command, the port has nothing to
answer. -/
theorem IsReset.step (h : IsReset s) (hquiet : accepts p i slave s = none) :
    Holding (SlavePort.step p i slave s) none := by
  have hempty : SCFIFO.Represents s.rspFifo (outstanding none) :=
    ⟨fun k _ => by rw [h.memUsed]; rfl, fun k hk => absurd hk (Nat.not_lt_zero k)⟩
  have hnone : ∀ {P : Inputs → Prop}, ∀ c ∈ (none : Option Inputs), P c := fun _ hc => by cases hc
  have hsource : rfSourceReady s = true := by
    rw [rfSourceReady, h.memUsed]
    rfl
  refine ⟨rfl, hnone, ?_, slots_next hempty hnone ?_ ?_⟩
  · show (m0Read i s && !uavWaitrequest p slave s && !s.waitrequestResetOverride) = false
    rw [h.waitrequestResetOverride, Bool.not_true, Bool.and_false]
  · show (rfSourceReady s && rfSourceValid p i slave s) = false
    rw [rfSourceValid, cpReady, hsource, Bool.and_true, Bool.and_true, Bool.true_and]
    rw [accepts, asks] at hquiet
    cases hw : uavWaitrequest p slave s with
    | true => exact Bool.and_false _
    | false =>
        rw [hw] at hquiet
        cases hasked : localRead i || nonpostedWriteEndofpacket i with
        | true => simp [hasked] at hquiet
        | false => rfl
  · rw [SCFIFO.read_eq]
    show (rfSinkReady i s && !!s.rspFifo.memUsed 0) = false
    rw [h.memUsed, Bool.not_not, Bool.and_false]

end Holding

/-! ## The response packet -/

section Response

variable (p : Params) (slave : Slave) (s : State) (packet : Packet)

@[simp] theorem data_rpData : (rpData p slave s).data = uavReaddata p slave s := by
  simp [rpData, Packet.data, setBit, getField_setField, getField_setField_of_disjoint]

@[simp] theorem destId_rpData : (rpData p slave s).destId = (rfSink s).packet.srcId := by
  simp [rpData, Packet.destId, setBit, getField_setField, getField_setField_of_disjoint]

@[simp] theorem transWrite_rpData :
    (rpData p slave s).transWrite = (rfSink s).packet.transWrite := by
  simp [rpData, Packet.transWrite, getLsbD_setField, getLsbD_setBit, -BitVec.getLsbD_eq_getElem]

@[simp] theorem srcId_rfSourceData : (rfSourceData packet).srcId = packet.srcId := by
  simp [rfSourceData, Packet.srcId, setBit, getField_setField_of_disjoint]

@[simp] theorem transWrite_rfSourceData : (rfSourceData packet).transWrite = packet.transWrite := by
  simp [rfSourceData, Packet.transWrite, getLsbD_setField, getLsbD_setBit,
    -BitVec.getLsbD_eq_getElem]

end Response

/-! ## Over a run -/

def machine (p : Params) : Machine (Inputs × Slave) State where
  step i s := step p i.1 i.2 s

section Run

variable {p : Params} {e : Execution (machine p)} {t : ℕ}

/-- What the port accepts in cycle `t`. -/
def accepted (e : Execution (machine p)) (t : ℕ) : Option Inputs :=
  accepts p (e.input t).1 (e.input t).2 (e.state t)

/-- Nothing is accepted in the first cycle out of reset, and every response is taken when it
comes. -/
structure WellUsed (e : Execution (machine p)) : Prop where
  reset : IsReset (e.state 0)
  quiet : accepted e 0 = none
  rpReady : ∀ t, rpValid (e.state t) = true → (e.input t).1.rpReady = true

namespace WellUsed

theorem holding (h : WellUsed e) (t : ℕ) : Holding (e.state (t + 1)) (accepted e t) := by
  induction t with
  | zero =>
      rw [h.quiet, e.state_succ]
      exact h.reset.step h.quiet
  | succ t ih =>
      rw [e.state_succ]
      exact ih.step fun hsome => h.rpReady _ (ih.rp_valid.trans hsome)

/-- The port responds in exactly the cycles after a command to be answered is accepted. -/
theorem rp_valid_succ (h : WellUsed e) (t : ℕ) :
    rpValid (e.state (t + 1)) = (accepted e t).isSome :=
  (h.holding t).rp_valid

/-- A response is to the command of the cycle before. -/
theorem rf_sink_succ (h : WellUsed e) (hvalid : rpValid (e.state (t + 1)) = true) :
    rfSink (e.state (t + 1)) = token (e.input t).1 := by
  have hold := h.holding t
  have hsome : (accepted e t).isSome = true := (h.rp_valid_succ t).symm.trans hvalid
  obtain ⟨c, hc⟩ := Option.isSome_iff_exists.mp hsome
  rw [hc] at hold
  rw [hold.rf_sink, eq_of_mem_asks (eq_of_mem_accepts hc)]

/-- It goes to the master whose command it answers. -/
theorem dest_id_succ (h : WellUsed e) (hvalid : rpValid (e.state (t + 1)) = true)
    (slave : Slave) :
    (rpData p slave (e.state (t + 1))).destId = (e.input t).1.cpData.srcId := by
  rw [destId_rpData, h.rf_sink_succ hvalid, token, srcId_rfSourceData]

theorem trans_write_succ (h : WellUsed e) (hvalid : rpValid (e.state (t + 1)) = true)
    (slave : Slave) :
    (rpData p slave (e.state (t + 1))).transWrite = (e.input t).1.cpData.transWrite := by
  rw [transWrite_rpData, h.rf_sink_succ hvalid, token, transWrite_rfSourceData]

/-- Without a wait request every command from the second cycle on is accepted at once. -/
theorem cp_ready_succ (h : WellUsed e) (hwait : p.useWaitrequest = false) (slave : Slave)
    (t : ℕ) : cpReady p slave (e.state (t + 1)) = true := by
  rw [(h.holding t).cp_ready, (h.holding t).not_waiting hwait]
  rfl

end WellUsed

/-- The data register is that of the cycle before. -/
theorem readdata_pre_succ (t : ℕ) :
    (e.state (t + 1)).avReaddataPre = (e.input t).2.avReaddata := by
  rw [e.state_succ]
  rfl

end Run

end CE213Lab.System.SlavePort
