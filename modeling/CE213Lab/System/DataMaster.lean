import CE213Lab.Foundation.Machine
import CE213Lab.Foundation.Progress
import CE213Lab.System.CmdXbarMux
import CE213Lab.System.MasterAgent

/-!
# The data master of the CPU

The loads and stores of the CPU on their way into the interconnect:
`altera_merlin_master_translator.sv` for a master without a read data valid and with registered
signals, the agent, the address router `System_addr_router_001.sv` with the demultiplexer behind it,
and the response multiplexer `System_rsp_xbar_mux_001.sv`. The registers of the translator that
serve bursts drive nothing here and are left out. `taken_log_eq` says that the interconnect takes
each access once, however long the CPU has to hold it.
-/

namespace CE213Lab.System.DataMaster

open Foundation MasterAgent

/-- The signals of the data master. -/
structure Core where
  address : BitVec 18
  byteenable : BitVec 4
  read : Bool
  write : Bool
  writedata : BitVec 32
  debugaccess : Bool
  deriving DecidableEq

/-- What comes from the interconnect. -/
structure Network where
  cpReady : Bool
  rpValid : Bool
  rpData : Packet

structure State where
  readAccepted : Bool
  writeAccepted : Bool
  endBegintransfer : Bool
  holdWaitrequest : Bool

/-- What a reset leaves. -/
def reset : State where
  readAccepted := false
  writeAccepted := false
  endBegintransfer := false
  holdWaitrequest := true

/-! ## The translator and the agent -/

section Wires

variable (core : Core) (network : Network) (s : State)

def uavRead : Bool :=
  core.read && !s.readAccepted

def uavWrite : Bool :=
  core.write && !s.writeAccepted

/-- What the agent makes its packet of. -/
def uav : Master where
  address := core.address.setWidth 32
  write := uavWrite core s
  read := uavRead core s
  writedata := core.writedata
  byteenable := core.byteenable
  debugaccess := core.debugaccess

def internalBegintransfer : Bool :=
  (uavWrite core s || uavRead core s) && !s.endBegintransfer

def uavWaitrequest : Bool :=
  s.holdWaitrequest || !network.cpReady

/-- A response to a write is none for a read. -/
def uavReaddatavalid : Bool :=
  network.rpValid && !network.rpData.transWrite

def avReaddata : BitVec 32 :=
  network.rpData.data

def avWaitrequest : Bool :=
  -- a read waits for its data, a write for the command to be taken
  if core.read then !uavReaddatavalid network
  else if core.write then
    (internalBegintransfer core s || uavWaitrequest network s) && !s.writeAccepted
  else true

def step : State where
  readAccepted :=
    if s.readAccepted then !uavReaddatavalid network
    else avWaitrequest core network s && core.read && !uavWaitrequest network s
  writeAccepted :=
    if !avWaitrequest core network s then false
    else if uavWrite core s && !uavWaitrequest network s then true
    else s.writeAccepted
  endBegintransfer :=
    if internalBegintransfer core s && uavWaitrequest network s then true
    else if uavWaitrequest network s then s.endBegintransfer
    else false
  holdWaitrequest := false

end Wires

/-! ## The address router -/

/-- The address without its `pad` lowest bits. -/
def spanBase (pad : ℕ) (address : BitVec 18) : BitVec 18 :=
  setField 0 (0 : BitVec pad) address

/-- The channel of a slave: the debug module, the two memories, the control interface of the DMA
and the UART. The first memory is the default as well. -/
def channel (address : BitVec 18) : BitVec 5 :=
  if spanBase 3 address = 0x23040 then 16
  else if spanBase 5 address = 0x23020 then 8
  else if spanBase 11 address = 0x22800 then 1
  else if spanBase 12 address = 0x21000 then 4
  else 2

/-- `System_addr_router_001.sv` looks at the lowest 18 bits of the address in the packet. -/
def srcChannel (core : Core) (s : State) : BitVec 5 :=
  channel (getField 36 18 (cpData dataMaster (uav core s)))

/-- The slaves of the data master. -/
inductive Target where
  | debug
  | memory0
  | memory1
  | control
  | uart
  deriving DecidableEq

namespace Target

/-- The bit of the channel, and the number of the source of the demultiplexer. -/
def index : Target → ℕ
  | debug => 0
  | memory0 => 1
  | memory1 => 2
  | control => 3
  | uart => 4

/-- The wires of all slaves, joined by `|`. -/
def any (wire : Target → Bool) : Bool :=
  wire debug || wire memory0 || wire memory1 || wire control || wire uart

theorem any_eq_false {wire : Target → Bool} (h : ∀ k, wire k = false) : any wire = false := by
  simp [any, h]

/-- Of a one-hot vector of wires one is left. -/
theorem any_of_single {wire value : Target → Bool} {g : Target}
    (h : ∀ k, wire k = (value k && decide (k = g))) : any wire = value g := by
  cases g <;> simp [any, h]

end Target

/-- The slave an address is in. -/
def target (address : BitVec 18) : Target :=
  if spanBase 3 address = 0x23040 then .uart
  else if spanBase 5 address = 0x23020 then .control
  else if spanBase 11 address = 0x22800 then .debug
  else if spanBase 12 address = 0x21000 then .memory1
  else .memory0

theorem getLsbD_channel (address : BitVec 18) (k : Target) :
    (channel address).getLsbD k.index = decide (k = target address) := by
  unfold channel target
  split_ifs <;> cases k <;> rfl

/-- The two bits the agent masks off are in no span's base. -/
theorem spanBase_of_agree {pad : ℕ} (hpad : 2 ≤ pad) {a b : BitVec 18}
    (h : ∀ j, 2 ≤ j → j < 18 → a.getLsbD j = b.getLsbD j) : spanBase pad a = spanBase pad b := by
  refine BitVec.eq_of_getLsbD_eq fun j hj => ?_
  rw [spanBase, spanBase, getLsbD_setField _ _ _ hj, getLsbD_setField _ _ _ hj]
  split
  · rfl
  · exact h j (by omega) hj

/-- The router decides by the address of the CPU. -/
theorem src_channel_eq (core : Core) (s : State) : srcChannel core s = channel core.address := by
  have hagree : ∀ j, 2 ≤ j → j < 18 →
      (getField 36 18 (cpData dataMaster (uav core s))).getLsbD j = core.address.getLsbD j := by
    intro j hlow hj
    have haddr : (cpData dataMaster (uav core s)).addr = avAddressAligned (uav core s) := by
      rw [← addr_routed dataMaster 0 (uav core s), routed, Packet.addr, Packet.addr,
        getField_setField_of_disjoint _ _ (by omega) (by omega)]
    have hfield : (getField 36 18 (cpData dataMaster (uav core s))).getLsbD j =
        (cpData dataMaster (uav core s)).addr.getLsbD j := by
      rw [Packet.addr, getField, getField, BitVec.getLsbD_extractLsb', BitVec.getLsbD_extractLsb',
        decide_eq_true hj, decide_eq_true (show j < 32 by omega)]
    rw [hfield, haddr, avAddressAligned, getLsbD_setField _ _ _ (show j < 32 by omega),
      if_neg (by omega), uav, BitVec.getLsbD_setWidth, decide_eq_true (show j < 32 by omega),
      Bool.true_and]
  rw [srcChannel, channel, channel, spanBase_of_agree (by decide) hagree,
    spanBase_of_agree (by decide) hagree, spanBase_of_agree (by decide) hagree,
    spanBase_of_agree (by decide) hagree]

/-! ## The response multiplexer -/

/-- It grants whoever requests, and its payload is the sum of what it grants. -/
def rspPayload (valid : Target → Bool) (data : Target → Packet) : Packet :=
  data .debug &&& BitVec.fill 105 (valid .debug) |||
    data .memory0 &&& BitVec.fill 105 (valid .memory0) |||
    data .memory1 &&& BitVec.fill 105 (valid .memory1) |||
    data .control &&& BitVec.fill 105 (valid .control) |||
    data .uart &&& BitVec.fill 105 (valid .uart)

/-- With a single response that is the response. -/
theorem rsp_payload_of_single {valid : Target → Bool} (data : Target → Packet) {g : Target}
    (h : ∀ k, valid k = decide (k = g)) : rspPayload valid data = data g := by
  have hmask (x : Packet) (grant : Bool) :
      x &&& BitVec.fill 105 grant = if grant then x else 0 := by
    cases grant with
    | false => simp [BitVec.fill]
    | true => exact CmdXbarMux.Beat.and_fill_true x
  simp only [rspPayload, hmask, h]
  cases g <;> simp

/-! ## Over a run -/

def machine : Machine (Core × Network) State where
  step i s := step i.1 i.2 s

section Run

variable (e : Execution machine) {t : ℕ}

/-- The CPU presents an access. -/
def presents (t : ℕ) : Bool :=
  (e.input t).1.read || (e.input t).1.write

/-- The CPU is kept waiting. -/
def waits (t : ℕ) : Bool :=
  avWaitrequest (e.input t).1 (e.input t).2 (e.state t)

/-- The interconnect takes the command. -/
def takes (t : ℕ) : Bool :=
  cpValid (uav (e.input t).1 (e.state t)) && !uavWaitrequest (e.input t).2 (e.state t)

/-- The access presented has been taken already. -/
def ahead (t : ℕ) : Bool :=
  (e.state t).readAccepted || (e.state t).writeAccepted

/-- A read is answered in the cycle after it is taken, and at no other time. -/
structure Answered : Prop where
  reset : e.state 0 = reset
  first : uavReaddatavalid (e.input 0).2 = false
  next : ∀ t, uavReaddatavalid (e.input (t + 1)).2 =
    (takes e t && uavRead (e.input t).1 (e.state t))

/-- The CPU never reads and writes at once, and holds an access while it waits. -/
structure Holds : Prop where
  exclusive : ∀ t, (e.input t).1.read = true → (e.input t).1.write = false
  holds : ∀ t, presents e t = true → waits e t = true → (e.input (t + 1)).1 = (e.input t).1

variable {e}

/-! ### Reads -/

theorem read_accepted_step (h : uavReaddatavalid (e.input t).2 = (e.state t).readAccepted) :
    (e.state (t + 1)).readAccepted = (takes e t && uavRead (e.input t).1 (e.state t)) := by
  rw [e.state_succ]
  show (if (e.state t).readAccepted then !uavReaddatavalid (e.input t).2 else
    avWaitrequest (e.input t).1 (e.input t).2 (e.state t) && (e.input t).1.read &&
      !uavWaitrequest (e.input t).2 (e.state t)) = _
  rw [h]
  cases haccepted : (e.state t).readAccepted with
  | true => simp [uavRead, haccepted]
  | false =>
      cases hread : (e.input t).1.read with
      | false => simp [uavRead, hread]
      | true => simp [takes, cpValid, uav, uavRead, avWaitrequest, h, haccepted, hread]

/-- A response comes in exactly the cycles in which a read is outstanding. -/
theorem Answered.readdatavalid (h : Answered e) (t : ℕ) :
    uavReaddatavalid (e.input t).2 = (e.state t).readAccepted := by
  induction t with
  | zero =>
      rw [h.first, h.reset]
      rfl
  | succ t ih => rw [h.next, read_accepted_step ih]

theorem Answered.read_accepted_succ (h : Answered e) (t : ℕ) :
    (e.state (t + 1)).readAccepted = (takes e t && uavRead (e.input t).1 (e.state t)) :=
  read_accepted_step (h.readdatavalid t)

/-- A read ends with its response. -/
theorem Answered.waits_of_read (h : Answered e) (hread : (e.input t).1.read = true) :
    waits e t = !(e.state t).readAccepted := by
  rw [waits, avWaitrequest, if_pos hread, h.readdatavalid]

/-! ### Writes -/

theorem waits_of_write (hread : (e.input t).1.read = false) (hwrite : (e.input t).1.write = true) :
    waits e t = ((internalBegintransfer (e.input t).1 (e.state t) ||
      uavWaitrequest (e.input t).2 (e.state t)) && !(e.state t).writeAccepted) := by
  rw [waits, avWaitrequest, hread, if_neg Bool.false_ne_true, if_pos hwrite]

/-- Without an access the CPU is kept waiting. -/
theorem waits_of_not_presents (hnone : presents e t = false) : waits e t = true := by
  rw [presents, Bool.or_eq_false_iff] at hnone
  rw [waits, avWaitrequest, hnone.1, hnone.2]
  rfl

theorem write_accepted_succ (t : ℕ) :
    (e.state (t + 1)).writeAccepted =
      (waits e t && ((uavWrite (e.input t).1 (e.state t) &&
        !uavWaitrequest (e.input t).2 (e.state t)) || (e.state t).writeAccepted)) := by
  rw [e.state_succ]
  show (if !waits e t then false else if _ then true else _) = _
  cases waits e t with
  | false => rfl
  | true =>
      cases uavWrite (e.input t).1 (e.state t) && !uavWaitrequest (e.input t).2 (e.state t) <;> rfl

theorem Holds.not_read (h : Holds e) (hwrite : (e.input t).1.write = true) :
    (e.input t).1.read = false := by
  cases hread : (e.input t).1.read with
  | false => rfl
  | true => exact absurd (hwrite.symm.trans (h.exclusive t hread)) (by decide)

theorem Holds.not_waits (h : Holds e) (hwrite : (e.input t).1.write = true)
    (haccepted : (e.state t).writeAccepted = true) : waits e t = false := by
  rw [waits_of_write (h.not_read hwrite) hwrite, haccepted, Bool.not_true, Bool.and_false]

/-- A write taken before its end is still presented. -/
theorem Holds.write_of_accepted (hholds : Holds e) (h : Answered e) (t : ℕ)
    (haccepted : (e.state t).writeAccepted = true) : (e.input t).1.write = true := by
  induction t with
  | zero =>
      rw [h.reset] at haccepted
      cases haccepted
  | succ t ih =>
      rw [write_accepted_succ, Bool.and_eq_true, Bool.or_eq_true] at haccepted
      obtain ⟨hwaits, htaken | hbefore⟩ := haccepted
      · have hwrite : (e.input t).1.write = true :=
          (Bool.and_eq_true_iff.mp (Bool.and_eq_true_iff.mp htaken).1).1
        rw [hholds.holds t (by rw [presents, hwrite, Bool.or_true]) hwaits, hwrite]
      · rw [hholds.not_waits (ih hbefore) hbefore] at hwaits
        cases hwaits

/-! ### Accesses -/

theorem ahead_zero (h : Answered e) : ahead e 0 = false := by
  rw [ahead, h.reset]
  rfl

theorem presents_of_valid (hvalid : cpValid (uav (e.input t).1 (e.state t)) = true) :
    presents e t = true := by
  rw [cpValid, uav, Bool.or_eq_true] at hvalid
  rw [presents, Bool.or_eq_true]
  rcases hvalid with hwrite | hread
  · exact .inr (Bool.and_eq_true_iff.mp hwrite).1
  · exact .inl (Bool.and_eq_true_iff.mp hread).1

theorem presents_of_takes (htakes : takes e t = true) : presents e t = true :=
  presents_of_valid (Bool.and_eq_true_iff.mp htakes).1

/-- What is ahead is presented, ends and is not offered again. -/
theorem of_ahead (hholds : Holds e) (h : Answered e) (t : ℕ) (hahead : ahead e t = true) :
    presents e t = true ∧ waits e t = false ∧ cpValid (uav (e.input t).1 (e.state t)) = false := by
  rw [ahead, Bool.or_eq_true] at hahead
  rcases hahead with hread | hwrite
  -- a read was taken in the cycle before and has been held since
  · suffices hpresents : (e.input t).1.read = true by
      have hnot := hholds.exclusive t hpresents
      refine ⟨by rw [presents, hpresents, Bool.true_or], ?_, ?_⟩
      · rw [h.waits_of_read hpresents, hread]
        rfl
      · rw [cpValid, uav, uavRead, uavWrite, hnot, hread, Bool.not_true, Bool.and_false]
        rfl
    cases t with
    | zero =>
        rw [h.reset] at hread
        cases hread
    | succ t =>
        rw [h.read_accepted_succ, Bool.and_eq_true, uavRead, Bool.and_eq_true,
          Bool.not_eq_true'] at hread
        obtain ⟨htakes, hpresents, hnot⟩ := hread
        rw [hholds.holds t (presents_of_takes htakes)
          (by rw [h.waits_of_read hpresents, hnot]; rfl), hpresents]
  · have hpresents := hholds.write_of_accepted h t hwrite
    refine ⟨by rw [presents, hpresents, Bool.or_true], hholds.not_waits hpresents hwrite, ?_⟩
    rw [cpValid, uav, uavRead, uavWrite, hholds.not_read hpresents, hwrite, Bool.not_true,
      Bool.and_false]
    rfl

theorem fresh_of_valid (hholds : Holds e) (h : Answered e)
    (hvalid : cpValid (uav (e.input t).1 (e.state t)) = true) : ahead e t = false := by
  cases hahead : ahead e t with
  | false => rfl
  | true => exact absurd ((of_ahead hholds h t hahead).2.2.symm.trans hvalid) (by decide)

/-- An access is ahead when it has been taken before its last cycle. -/
theorem ahead_succ (hholds : Holds e) (h : Answered e) (t : ℕ) :
    ahead e (t + 1) = (takes e t && waits e t) := by
  rw [ahead, h.read_accepted_succ, write_accepted_succ]
  cases hahead : ahead e t with
  | true =>
      obtain ⟨_, hwaits, hvalid⟩ := of_ahead hholds h t hahead
      rw [hwaits, takes, hvalid]
      rfl
  | false =>
      rw [ahead, Bool.or_eq_false_iff] at hahead
      cases hread : (e.input t).1.read with
      | true =>
          have hwaits := h.waits_of_read hread
          rw [hahead.1] at hwaits
          simp [uavRead, uavWrite, hread, hahead, hwaits, hholds.exclusive t hread]
      | false =>
          simp [takes, cpValid, uav, uavRead, uavWrite, hread, hahead, Bool.and_comm]

/-- A read waits for its response. -/
theorem waits_of_fresh_read (h : Answered e) (hread : (e.input t).1.read = true)
    (hfresh : ahead e t = false) : waits e t = true := by
  rw [ahead, Bool.or_eq_false_iff] at hfresh
  rw [h.waits_of_read hread, hfresh.1]
  rfl

/-- What has not been taken waits. -/
theorem waits_of_fresh (h : Answered e) (hfresh : ahead e t = false)
    (hnot : takes e t = false) : waits e t = true := by
  cases hread : (e.input t).1.read with
  | true => exact waits_of_fresh_read h hread hfresh
  | false =>
      cases hwrite : (e.input t).1.write with
      | false => exact waits_of_not_presents (by rw [presents, hread, hwrite]; rfl)
      | true =>
          rw [ahead, Bool.or_eq_false_iff] at hfresh
          have hwait : uavWaitrequest (e.input t).2 (e.state t) = true := by
            simpa [takes, cpValid, uav, uavWrite, hwrite, hfresh.2] using hnot
          rw [waits_of_write hread hwrite, hwait, hfresh.2, Bool.or_true]
          rfl

/-! ### What is offered -/

/-- The access as a command. -/
def command (core : Core) : Master where
  address := core.address.setWidth 32
  write := core.write
  read := core.read
  writedata := core.writedata
  byteenable := core.byteenable
  debugaccess := core.debugaccess

/-- What is offered of an access that has not been taken is all of it. -/
theorem uav_of_fresh (hfresh : ahead e t = false) :
    uav (e.input t).1 (e.state t) = command (e.input t).1 := by
  rw [ahead, Bool.or_eq_false_iff] at hfresh
  rw [uav, uavRead, uavWrite, hfresh.1, hfresh.2, Bool.not_false, Bool.and_true, Bool.and_true]
  rfl

theorem valid_of_fresh (hpresents : presents e t = true) (hfresh : ahead e t = false) :
    cpValid (uav (e.input t).1 (e.state t)) = true := by
  rw [uav_of_fresh hfresh]
  exact (Bool.or_comm _ _).trans hpresents

/-! ### How an access ends -/

/-- Until it is taken an access is held and stays fresh. -/
theorem held_of_not_taken (hholds : Holds e) (h : Answered e) (hpresents : presents e t = true)
    (hfresh : ahead e t = false) (hnot : takes e t = false) :
    (e.input (t + 1)).1 = (e.input t).1 ∧ ahead e (t + 1) = false :=
  ⟨hholds.holds t hpresents (waits_of_fresh h hfresh hnot), by
    rw [ahead_succ hholds h, hnot, Bool.false_and]⟩

/-- An access that is taken ends then or in the next cycle. -/
theorem ends_of_takes (hholds : Holds e) (h : Answered e) (htakes : takes e t = true) :
    ∃ u, t ≤ u ∧ u ≤ t + 1 ∧ (e.input u).1 = (e.input t).1 ∧ waits e u = false := by
  cases hwaits : waits e t with
  | false => exact ⟨t, le_rfl, Nat.le_succ t, rfl, hwaits⟩
  | true =>
      have hahead : ahead e (t + 1) = true := by rw [ahead_succ hholds h, htakes, hwaits]; rfl
      exact ⟨t + 1, Nat.le_succ t, le_rfl, hholds.holds t (presents_of_takes htakes) hwaits,
        (of_ahead hholds h (t + 1) hahead).2.1⟩

/-- So it ends at the latest one cycle after anything is taken. -/
theorem ends_by (hholds : Holds e) (h : Answered e) (hpresents : presents e t = true)
    (hfresh : ahead e t = false) {u : ℕ} (hle : t ≤ u) (htakes : takes e u = true) :
    ∃ v, t ≤ v ∧ v ≤ u + 1 ∧ (e.input v).1 = (e.input t).1 ∧ waits e v = false := by
  obtain ⟨v, hlow, hhigh, hv, hsame⟩ := exists_held_until
    (fun v => ((e.input v).1, ahead e v))
    (fun x => (x.1.read || x.1.write) = true ∧ x.2 = false) (fun v => takes e v = true)
    -- held and fresh go together: one without the other is not kept
    (fun v hv hnot => by
      obtain ⟨hcore, hnext⟩ := held_of_not_taken hholds h hv.1 hv.2 (by simpa using hnot)
      rw [hcore, hnext, show ahead e v = false from hv.2])
    ⟨hpresents, hfresh⟩ hle htakes
  obtain ⟨w, hvw, hwv, hcore, hwaits⟩ := ends_of_takes hholds h hv
  exact ⟨w, hlow.trans hvw, by omega, hcore.trans (Prod.mk.inj hsame).1, hwaits⟩

/-- A read ends in the cycle after it is taken. -/
theorem read_ends_succ (hholds : Holds e) (h : Answered e) (htakes : takes e t = true)
    (hread : (e.input t).1.read = true) : waits e (t + 1) = false := by
  have hvalid := (Bool.and_eq_true_iff.mp htakes).1
  have hfresh := fresh_of_valid hholds h hvalid
  have hahead : ahead e (t + 1) = true := by
    rw [ahead_succ hholds h, htakes, waits_of_fresh_read h hread hfresh]
    rfl
  exact (of_ahead hholds h (t + 1) hahead).2.1

/-! ### The accesses of a run -/

/-- The commands the interconnect has taken before cycle `t`. -/
def takenLog (e : Execution machine) (t : ℕ) : List Master :=
  e.history
    (fun i s log =>
      if cpValid (uav i.1 s) && !uavWaitrequest i.2 s then log ++ [uav i.1 s] else log) [] t

/-- The accesses the CPU has ended before cycle `t`. -/
def endedLog (e : Execution machine) (t : ℕ) : List Master :=
  e.history
    (fun i s log =>
      if (i.1.read || i.1.write) && !avWaitrequest i.1 i.2 s then log ++ [command i.1] else log)
    [] t

theorem takenLog_succ (t : ℕ) : takenLog e (t + 1) =
    if takes e t then takenLog e t ++ [uav (e.input t).1 (e.state t)] else takenLog e t :=
  rfl

theorem endedLog_succ (t : ℕ) : endedLog e (t + 1) =
    if presents e t && !waits e t then endedLog e t ++ [command (e.input t).1] else endedLog e t :=
  rfl

/-- The commands taken are the accesses ended, and the one that is ahead. -/
theorem taken_log_eq (hholds : Holds e) (h : Answered e) (t : ℕ) :
    takenLog e t = endedLog e t ++ if ahead e t then [command (e.input t).1] else [] := by
  induction t with
  | zero =>
      rw [ahead_zero h]
      rfl
  | succ t ih =>
      rw [takenLog_succ, endedLog_succ, ahead_succ hholds h, ih]
      cases hahead : ahead e t with
      | true =>
          obtain ⟨hpresents, hwaits, hvalid⟩ := of_ahead hholds h t hahead
          simp [hpresents, hwaits, takes, hvalid]
      | false =>
          rw [uav_of_fresh hahead]
          cases htakes : takes e t with
          | false => simp [waits_of_fresh h hahead htakes]
          | true =>
              cases hwaits : waits e t with
              | false => simp [presents_of_takes htakes]
              | true =>
                  -- taken, and its last cycle is the next one
                  rw [hholds.holds t (presents_of_takes htakes) hwaits]
                  simp

end Run

end CE213Lab.System.DataMaster
