import CE213Lab.DMA.HelloWorld
import CE213Lab.System.CPUSystem

/-!
# The polling program in the system

`main` of `hello_world.c` as the program of the CPU: the statements of `main` are the accesses the
data master makes to the control interface of the engine, each on offer until it ends. In between
the CPU makes what other accesses it likes, at any time, and its instruction master fetches at will
from the memories and the debug module. Seen from the engine such a run is a `Session`: each
statement crosses the interconnect once, and a read returns what the engine shows in the cycle in
which it is taken. `program_copies` says what becomes of the copy.
-/

namespace CE213Lab.System.MainProgram

open Foundation MasterAgent
open DMA (Globals Main Session)
open DataMaster (Core)

variable {ram0 : SyncRam 14 10000} {ram1 : SyncRam 10 1024}

/-! ## The accesses of the program -/

/-- The address of a register of `DMA`, `(int *) 0x23020`. -/
def address (register : BitVec 3) : BitVec 18 :=
  0x23020 + register.setWidth 18 * 4

/-- `IOWR_32DIRECT(DMA, 4 * register, data)`. -/
def iowr (register : BitVec 3) (data : BitVec 32) (core : Core) : Core :=
  { core with
    address := address register
    byteenable := 15
    read := false
    write := true
    writedata := data }

/-- `IORD_32DIRECT(DMA, 4 * register)`. -/
def iord (register : BitVec 3) (core : Core) : Core :=
  { core with
    address := address register
    byteenable := 15
    read := true
    write := false }

/-- The signals of the data master for the statement `main` has reached. `handlerStatus` does not
access the engine. -/
def signals (g : Globals) (m : Main) (core : Core) : Core :=
  match m.point with
  | .writePdata0 => iowr 0 g.pdata0 core
  | .writePdata1 => iowr 1 g.pdata1 core
  | .writeLength => iowr 2 g.length core
  | .writeControl => iowr 3 g.control core
  | .poll => iord 7 core
  | .handlerStatus | .returned => { core with read := false, write := false }

section Accesses

variable (r : CPUSystem.Run ram0 ram1)

/-- The data master has an access to the control interface. -/
def atControl (t : ℕ) : Bool :=
  DataMaster.presents r.dataMaster t &&
    decide (DataMaster.target (r.input t).core.address = .control)

/-- Such an access ends. -/
def ends (t : ℕ) : Bool :=
  atControl r t && !DataMaster.waits r.dataMaster t

def readdata (t : ℕ) : BitVec 32 :=
  DataMaster.avReaddata (CPUSystem.network (r.input t) (r.state t))

end Accesses

/-! ## The program in a run -/

/-- A run of the system whose CPU executes `main`. `steps` are the cycles in which it moves on
without an access to the engine. -/
structure MainRun (ram0 : SyncRam 14 10000) (ram1 : SyncRam 10 1024) extends
    CPUSystem.Run ram0 ram1 where
  globals : Globals
  main : ℕ → Main
  steps : ℕ → Bool
  holds : DataMaster.Holds toRun.dataMaster
  instruction : ∀ t, (input t).instructionControl.valid = false
  main_zero : main 0 = Main.start
  main_succ : ∀ t, main (t + 1) =
    if ends toRun t || steps t && decide (main t).Left then (main t).next (readdata toRun t)
    else main t
  bus : ∀ t, atControl toRun t = true →
    (input t).core = signals globals (main t) (input t).core

namespace MainRun

variable {m : MainRun ram0 ram1} {t : ℕ}

theorem answered (m : MainRun ram0 ram1) : DataMaster.Answered m.dataMaster :=
  CPUSystem.Run.answered m.holds

/-! ### What is on the bus -/

theorem presents_of_control (h : atControl m.toRun t = true) :
    DataMaster.presents m.dataMaster t = true :=
  (Bool.and_eq_true_iff.mp h).1

theorem target_of_control (h : atControl m.toRun t = true) :
    DataMaster.target (m.input t).core.address = .control :=
  of_decide_eq_true (Bool.and_eq_true_iff.mp h).2

/-- Behind the loop `main` does not access the engine. -/
theorem not_left (h : atControl m.toRun t = true) : ¬ (m.main t).Left := by
  intro hleft
  have hpresents : ((m.input t).core.read || (m.input t).core.write) = true :=
    presents_of_control h
  rw [m.bus t h, signals] at hpresents
  rcases hleft with hpoint | hpoint <;> rw [hpoint] at hpresents <;>
    exact absurd hpresents (by simp)

/-- It reads at the poll only. -/
theorem read_of_control (h : atControl m.toRun t = true) :
    (m.input t).core.read = decide ((m.main t).point = .poll) := by
  have hleft := not_left h
  rw [m.bus t h, signals]
  cases hpoint : (m.main t).point with
  | handlerStatus => exact absurd (.inl hpoint) hleft
  | returned => exact absurd (.inr hpoint) hleft
  | _ => rfl

/-- Only a poll looks at what a read returns. -/
theorem next_of_ne_poll {p : Main} (h : p.point ≠ .poll) (a b : BitVec 32) :
    p.next a = p.next b := by
  rw [Main.next, Main.next]
  split <;> first | rfl | contradiction

/-! ### Who takes a command of the control interface -/

theorem takes_of_control (htakes : m.takes t .control = true) :
    DataMaster.takes m.dataMaster t = true ∧ atControl m.toRun t = true := by
  rw [CPUSystem.Run.takes_eq, Bool.and_eq_true, decide_eq_true_eq] at htakes
  refine ⟨htakes.1, ?_⟩
  rw [atControl, DataMaster.presents_of_takes htakes.1, ← htakes.2]
  rfl

theorem fresh_of_takes (htakes : DataMaster.takes m.dataMaster t = true) :
    DataMaster.ahead m.dataMaster t = false :=
  DataMaster.fresh_of_valid m.holds m.answered (Bool.and_eq_true_iff.mp htakes).1

theorem at_control_congr {u : ℕ} (hcore : (m.input u).core = (m.input t).core) :
    atControl m.toRun u = atControl m.toRun t := by
  show ((_ || _) && _) = ((_ || _) && _)
  rw [show (m.dataMaster.input u).1 = (m.dataMaster.input t).1 from hcore, hcore]

/-- `main` stays at a statement that waits. -/
theorem main_kept (hcontrol : atControl m.toRun t = true)
    (hwaits : DataMaster.waits m.dataMaster t = true) : m.main (t + 1) = m.main t := by
  rw [m.main_succ, if_neg]
  simp [ends, hwaits, not_left hcontrol]

/-- An access that has been taken and not ended yet is held. -/
theorem control_succ (htakes : DataMaster.takes m.dataMaster t = true)
    (hwaits : DataMaster.waits m.dataMaster t = true) :
    atControl m.toRun (t + 1) = atControl m.toRun t :=
  at_control_congr (m.holds.holds t (DataMaster.presents_of_takes htakes) hwaits)

/-! ### What the engine has seen of the program -/

variable (m) in
/-- `main` as the engine sees it: a statement counts once it is taken, ended or not. -/
def issued (t : ℕ) : Main :=
  if DataMaster.ahead m.dataMaster t && atControl m.toRun t then
    (m.main t).next (readdata m.toRun t)
  else m.main t

variable (m) in
/-- `main` acts: the control interface takes an access, or the program moves on without one. -/
def acts (t : ℕ) : Bool :=
  m.takes t .control || m.steps t && decide (m.main t).Left

theorem issued_of_takes (htakes : m.takes t .control = true) : m.issued t = m.main t := by
  rw [issued, fresh_of_takes (takes_of_control htakes).1, Bool.false_and, if_neg Bool.false_ne_true]

theorem issued_of_left (hleft : (m.main t).Left) : m.issued t = m.main t := by
  have hcontrol : atControl m.toRun t = false := by
    cases hcontrol : atControl m.toRun t with
    | false => rfl
    | true => exact absurd hleft (not_left hcontrol)
  rw [issued, hcontrol, Bool.and_false, if_neg Bool.false_ne_true]

/-- A statement that is taken is the next the engine sees, and a poll gets what the engine shows in
the cycle it is taken in. -/
theorem issued_succ_of_takes (htakes : m.takes t .control = true) :
    m.issued (t + 1) = (m.main t).next (m.state t).system.dma.control.oReaddata := by
  obtain ⟨hdata, hcontrol⟩ := takes_of_control htakes
  have hread := read_of_control hcontrol
  cases hwaits : DataMaster.waits m.dataMaster t with
  | true =>
      -- it ends in the next cycle, with what the response of this one brings
      have hahead : DataMaster.ahead m.dataMaster (t + 1) = true := by
        rw [DataMaster.ahead_succ m.holds m.answered, hdata, hwaits]
        rfl
      rw [issued, hahead, control_succ hdata hwaits, hcontrol, main_kept hcontrol hwaits,
        Bool.and_self, if_pos rfl]
      by_cases hpoll : (m.main t).point = .poll
      · have hanswer := CPUSystem.Run.readdata_succ m.holds hdata
          (hread.trans (decide_eq_true hpoll))
          fun hmemory => absurd ((target_of_control hcontrol).symm.trans hmemory) (by decide)
        rw [target_of_control hcontrol] at hanswer
        exact congrArg (fun data => (m.main t).next data) hanswer
      · exact next_of_ne_poll hpoll _ _
  | false =>
      -- it ends at once, as no read does
      have hpoll : (m.main t).point ≠ .poll := by
        intro hpoll
        have hwait := DataMaster.waits_of_fresh_read m.answered
          (hread.trans (decide_eq_true hpoll)) (fresh_of_takes hdata)
        exact absurd (hwait.symm.trans hwaits) (by decide)
      have hahead : DataMaster.ahead m.dataMaster (t + 1) = false := by
        rw [DataMaster.ahead_succ m.holds m.answered, hwaits, Bool.and_false]
      rw [issued, hahead, Bool.false_and, if_neg Bool.false_ne_true, m.main_succ,
        if_pos (by simp [ends, hcontrol, hwaits])]
      exact next_of_ne_poll hpoll _ _

theorem not_ahead_at_control_succ (hnot : m.takes t .control = false) :
    (DataMaster.ahead m.dataMaster (t + 1) && atControl m.toRun (t + 1)) = false := by
  rw [DataMaster.ahead_succ m.holds m.answered]
  cases hdata : DataMaster.takes m.dataMaster t with
  | false => rfl
  | true =>
      cases hwaits : DataMaster.waits m.dataMaster t with
      | false => rfl
      | true =>
          rw [CPUSystem.Run.takes_eq, hdata, Bool.true_and, decide_eq_false_iff_not] at hnot
          rw [control_succ hdata hwaits, atControl, decide_eq_false (Ne.symm hnot), Bool.and_false,
            Bool.and_false]

/-- An access to the control interface that has not been taken does not end. -/
theorem not_ends (hnot : m.takes t .control = false)
    (hbusy : (DataMaster.ahead m.dataMaster t && atControl m.toRun t) = false) :
    ends m.toRun t = false := by
  cases hcontrol : atControl m.toRun t with
  | false => rw [ends, hcontrol, Bool.false_and]
  | true =>
      rw [hcontrol, Bool.and_true] at hbusy
      rw [CPUSystem.Run.takes_eq, decide_eq_true (target_of_control hcontrol).symm,
        Bool.and_true] at hnot
      rw [ends, DataMaster.waits_of_fresh m.answered hbusy hnot, Bool.not_true, Bool.and_false]

/-- Otherwise the engine sees the program move on without an access, or stay. -/
theorem issued_succ_of_not_takes (hnot : m.takes t .control = false) :
    m.issued (t + 1) = if m.steps t && decide (m.main t).Left then
      (m.issued t).next (m.state t).system.dma.control.oReaddata else m.issued t := by
  rw [issued, not_ahead_at_control_succ hnot, if_neg Bool.false_ne_true, m.main_succ]
  cases hbusy : DataMaster.ahead m.dataMaster t && atControl m.toRun t with
  | true =>
      -- the program catches up with what the engine has seen
      obtain ⟨hahead, hcontrol⟩ := Bool.and_eq_true_iff.mp hbusy
      have hwaits := (DataMaster.of_ahead m.holds m.answered t hahead).2.1
      rw [issued, hbusy, if_pos rfl, decide_eq_false (not_left hcontrol), Bool.and_false,
        if_neg Bool.false_ne_true, if_pos (by simp [ends, hcontrol, hwaits])]
  | false =>
      rw [not_ends hnot hbusy, Bool.false_or, issued, hbusy, if_neg Bool.false_ne_true]
      split
      · rename_i hmoves
        have hleft : (m.main t).Left := of_decide_eq_true (Bool.and_eq_true_iff.mp hmoves).2
        exact next_of_ne_poll (by rcases hleft with hpoint | hpoint <;> simp [hpoint]) _ _
      · rfl

theorem issued_zero : m.issued 0 = Main.start := by
  rw [issued, DataMaster.ahead_zero m.answered, Bool.false_and, if_neg Bool.false_ne_true,
    m.main_zero]

theorem issued_succ (t : ℕ) : m.issued (t + 1) =
    if m.acts t then (m.issued t).next (m.state t).system.dma.control.oReaddata
    else m.issued t := by
  cases htakes : m.takes t .control with
  | true => rw [issued_succ_of_takes htakes, acts, htakes, Bool.true_or, if_pos rfl,
      issued_of_takes htakes]
  | false => rw [issued_succ_of_not_takes htakes, acts, htakes, Bool.false_or]

/-! ### What the engine has on its port -/

theorem register_address (register : BitVec 3) :
    ControlPath.register ((address register).setWidth 32) = register := by
  revert register
  decide

theorem eq_write {i : DMA.DMAFinal.Inputs} {register : BitVec 3} {data : BitVec 32}
    (hselect : i.iChipselectN = false) (hread : i.iRead = false) (hwrite : i.iWrite = true)
    (haddress : i.iAddress = register) (hdata : i.iWritedata = data) :
    i = Main.write register data i := by
  cases i
  simp_all [Main.write]

theorem eq_read {i : DMA.DMAFinal.Inputs} {register : BitVec 3} (hselect : i.iChipselectN = false)
    (hread : i.iRead = true) (hwrite : i.iWrite = false) (haddress : i.iAddress = register) :
    i = Main.read register i := by
  cases i
  simp_all [Main.read]

theorem eq_no_access {i : DMA.DMAFinal.Inputs} (hselect : i.iChipselectN = true)
    (hread : i.iRead = false) (hwrite : i.iWrite = false) : i = Main.noAccess i := by
  cases i
  simp_all [Main.noAccess]

/-- The access that is taken is performed in that cycle. -/
theorem input_of_takes (htakes : m.takes t .control = true) :
    m.system.dma.input t = (m.main t).access m.globals (m.system.dma.input t) := by
  obtain ⟨hdata, hcontrol⟩ := takes_of_control htakes
  have hav : (m.control.command t CPUSystem.sharedMaster).av =
      DataMaster.command (m.input t).core :=
    DataMaster.uav_of_fresh (fresh_of_takes hdata)
  have hperforms := ControlPath.performs_of_takes (r := m.control) (k := CPUSystem.sharedMaster)
    htakes
  rw [hav, m.bus t hcontrol] at hperforms
  have hleft := not_left hcontrol
  rw [Main.access]
  rw [signals] at hperforms
  cases hpoint : (m.main t).point with
  | handlerStatus => exact absurd (.inl hpoint) hleft
  | returned => exact absurd (.inr hpoint) hleft
  | poll =>
      rw [hpoint] at hperforms
      exact eq_read hperforms.chipselect hperforms.read hperforms.write
        (hperforms.address.trans (register_address 7))
  | _ =>
      rw [hpoint] at hperforms
      exact eq_write hperforms.chipselect hperforms.read hperforms.write
        (hperforms.address.trans (register_address _)) hperforms.writedata

/-- Without one the port rests. -/
theorem input_of_not_takes (hnot : m.takes t .control = false) :
    m.system.dma.input t = Main.noAccess (m.system.dma.input t) := by
  have hrests := ControlPath.rests_of_not_takes (r := m.control) (t := t) fun k => by
    match k with
    | 0 =>
        -- no instructions come from the engine
        show ((m.input t).instructionControl.valid && _) = false
        rw [m.instruction, Bool.false_and]
    | 1 => exact hnot
  exact eq_no_access hrests.chipselect hrests.read hrests.write

variable (m) in
/-- The engine and the program. -/
def session : Session where
  toRun := m.system.dma
  globals := m.globals
  main := m.issued
  acts := m.acts
  main_zero := issued_zero
  main_succ := issued_succ
  bus t := by
    cases htakes : m.takes t .control with
    | true =>
        rw [acts, htakes, Bool.true_or, if_pos rfl, issued_of_takes htakes]
        exact input_of_takes htakes
    | false =>
        rw [acts, htakes, Bool.false_or]
        split
        · rename_i hmoves
          have hleft : (m.main t).Left := of_decide_eq_true (Bool.and_eq_true_iff.mp hmoves).2
          rw [issued_of_left hleft, Main.access]
          rcases hleft with hpoint | hpoint <;> rw [hpoint] <;> exact input_of_not_takes htakes
        · exact input_of_not_takes htakes

/-! ### How a statement ends -/

/-- What is ahead at the control interface was taken in the cycle before. -/
theorem taken_before (hahead : DataMaster.ahead m.dataMaster (t + 1) = true)
    (hcontrol : atControl m.toRun (t + 1) = true) :
    m.takes t .control = true ∧ m.main (t + 1) = m.main t := by
  rw [DataMaster.ahead_succ m.holds m.answered, Bool.and_eq_true] at hahead
  obtain ⟨hdata, hwaits⟩ := hahead
  rw [control_succ hdata hwaits] at hcontrol
  refine ⟨?_, main_kept hcontrol hwaits⟩
  rw [CPUSystem.Run.takes_eq, hdata, target_of_control hcontrol]
  rfl

/-- A statement that ends has been taken, in that cycle or the one before. -/
theorem taken_of_ends (hends : ends m.toRun t = true) :
    ∃ u, u ≤ t ∧ m.takes u .control = true ∧ m.main u = m.main t := by
  obtain ⟨hcontrol, hwaits⟩ := Bool.and_eq_true_iff.mp hends
  rw [Bool.not_eq_true'] at hwaits
  cases hahead : DataMaster.ahead m.dataMaster t with
  | false =>
      refine ⟨t, le_rfl, ?_, rfl⟩
      rw [CPUSystem.Run.takes_eq, target_of_control hcontrol]
      cases hdata : DataMaster.takes m.dataMaster t with
      | true => rfl
      | false =>
          exact absurd ((DataMaster.waits_of_fresh m.answered hahead hdata).symm.trans hwaits)
            (by decide)
  | true =>
      cases t with
      | zero =>
          rw [DataMaster.ahead_zero m.answered] at hahead
          cases hahead
      | succ t =>
          obtain ⟨htakes, hmain⟩ := taken_before hahead hcontrol
          exact ⟨t, Nat.le_succ t, htakes, hmain.symm⟩

/-- Every statement that accesses the engine ends within four cycles. -/
theorem exists_ends (hcontrol : atControl m.toRun t = true) :
    ∃ u, t ≤ u ∧ u ≤ t + 4 ∧ ends m.toRun u = true ∧ m.main u = m.main t := by
  obtain ⟨u, hle, hbound, hcore, hwaits⟩ := CPUSystem.Run.ends_within m.holds
    (presents_of_control hcontrol) (by rw [target_of_control hcontrol]; decide)
  have hsame : atControl m.toRun u = true := (at_control_congr hcore).trans hcontrol
  obtain ⟨v, hlow, hhigh, hends, heq⟩ := exists_held_until
    (fun v => (atControl m.toRun v, m.main v)) (fun x => x.1 = true)
    (fun v => ends m.toRun v = true)
    (fun v hv hnot => by
      have hv : atControl m.toRun v = true := hv
      have hwaiting : DataMaster.waits m.dataMaster v = true := by
        simpa [ends, hv] using hnot
      have hkept : atControl m.toRun (v + 1) = atControl m.toRun v :=
        at_control_congr (m.holds.holds v (presents_of_control hv) hwaiting)
      rw [main_kept hv hwaiting, hkept])
    hcontrol hle (by rw [ends, hsame, hwaits]; rfl)
  exact ⟨v, hlow, hhigh.trans hbound, hends, (Prod.mk.inj heq).2⟩

/-- The first poll that ends leaves the loop. -/
theorem left_of_poll_ends (hends : ends m.toRun t = true) (hpoll : (m.main t).point = .poll) :
    (m.main (t + 1)).Left := by
  obtain ⟨hcontrol, hwaits⟩ := Bool.and_eq_true_iff.mp hends
  rw [Bool.not_eq_true'] at hwaits
  have hread := (read_of_control hcontrol).trans (decide_eq_true hpoll)
  have hahead : DataMaster.ahead m.dataMaster t = true := by
    cases hahead : DataMaster.ahead m.dataMaster t with
    | true => rfl
    | false =>
        exact absurd ((DataMaster.waits_of_fresh_read m.answered hread hahead).symm.trans hwaits)
          (by decide)
  have hnext : m.main (t + 1) = m.issued t := by
    rw [m.main_succ, hends, Bool.true_or, if_pos rfl, issued, hahead, hcontrol, Bool.and_self,
      if_pos rfl]
  cases t with
  | zero =>
      rw [DataMaster.ahead_zero m.answered] at hahead
      cases hahead
  | succ t =>
      obtain ⟨htakes, hmain⟩ := taken_before hahead hcontrol
      rw [hnext, issued_succ_of_takes htakes, ← hmain, Main.next, hpoll]
      show Main.Left (if ((m.system.dma.state t).control.oReaddata.sle 2#32) = true then _ else _)
      rw [m.system.dma.readdata_le t, if_pos rfl]
      exact .inl rfl

/-! ### The copy -/

variable (m) in
/-- The `n`-th word of the buffer the program has the engine read. -/
def source (n : ℕ) : BitVec 14 :=
  MemoryPath.wordAddress 14 (strideAt m.globals.pdata0 4 n)

variable (m) in
/-- The `n`-th word of the buffer it has it write. -/
def destination (n : ℕ) : BitVec 10 :=
  MemoryPath.wordAddress 10 (strideAt m.globals.pdata1 4 n)

variable (m) in
/-- The GO write is taken in cycle `t`. -/
structure SetsGo (t : ℕ) : Prop where
  takes : m.takes t .control = true
  point : (m.main t).point = .writeControl
  go : m.globals.control.getLsbD 3 = true

theorem SetsGo.starts (h : m.SetsGo t) : (m.state (t + 2)).system.dma.control.oStart = true ∧
    DMA.Written m.globals .writeControl (m.state (t + 2)).system.dma.control := by
  refine Session.starts (s := m.session) h.go (t := t) ?_ ?_
  · show (m.takes t .control || _) = true
    rw [h.takes, Bool.true_or]
  · show (m.issued t).point = .writeControl
    rw [issued_of_takes h.takes, h.point]

/-- The transfer the program starts. -/
def SetsGo.transfer (h : m.SetsGo t) : DMASystem.Transfer ram0 ram1 where
  toRun := m.system
  start := t + 2
  oStart := h.starts.1

theorem SetsGo.source_transfer (h : m.SetsGo t) (n : ℕ) : h.transfer.source n = m.source n := by
  rw [DMASystem.Transfer.source,
    show h.transfer.engine.readStart = m.globals.pdata0 from h.starts.2.1]
  rfl

theorem SetsGo.destination_transfer (h : m.SetsGo t) (n : ℕ) :
    h.transfer.destination n = m.destination n := by
  rw [DMASystem.Transfer.destination,
    show h.transfer.engine.writeStart = m.globals.pdata1 from h.starts.2.2.1]
  rfl

variable (m) in
/-- From cycle `t` on the CPU writes none of the `N` words of either buffer. -/
structure LeavesAlone (t N : ℕ) : Prop where
  source : ∀ u n, t ≤ u → n < N → ¬ m.system.memory0.CpuWrites u (m.source n)
  destination : ∀ u n, t ≤ u → n < N → ¬ m.system.memory1.CpuWrites u (m.destination n)

/-- What the program achieves. Once its GO write is taken the engine reports DONE once and copies
the buffer, as it is two cycles later, whatever else the CPU does with the memories; but the program
itself goes on to `handlerStatus` with the end of its first poll, whether the copy is made or not.
Each of its accesses to the engine ends within four cycles. -/
theorem program_copies {N : ℕ} (h : m.SetsGo t) (hlength : m.globals.length.toNat = 4 * N)
    (hpos : 0 < N) (hshort : N ≤ 639) (hrange : ∀ n < N, (m.source n).toNat < 10000)
    (hcpu : m.LeavesAlone (t + 2) N) :
    (∃ T, ∀ u, DMA.ControlSlave.done (m.state u).system.dma.control = true ↔ u = T) ∧
      (∃ T, ∀ u, T ≤ u → ∀ n < N,
        m.system.word1 u (m.destination n) = m.system.word0 (t + 2) (m.source n)) ∧
      (∀ u, ends m.toRun u = true → (m.main u).point = .poll → (m.main (u + 1)).Left) ∧
      ∀ u, atControl m.toRun u = true →
        ∃ v, u ≤ v ∧ v ≤ u + 4 ∧ ends m.toRun v = true ∧ m.main v = m.main u := by
  have hwords : h.transfer.engine.length.toNat = 4 * N := by
    rw [show h.transfer.engine.length = m.globals.length from h.starts.2.2.2, hlength]
  have hinside : ∀ n < N, (h.transfer.source n).toNat < 10000 := fun n hn => by
    rw [h.source_transfer]
    exact hrange n hn
  have hundisturbed : h.transfer.Undisturbed N :=
    ⟨fun u n hu hn => by
      rw [h.source_transfer]
      exact hcpu.source u n hu hn, fun u n hu hn => by
      rw [h.destination_transfer]
      exact hcpu.destination u n hu hn⟩
  obtain ⟨T, hT⟩ := DMASystem.Transfer.exists_written hwords hpos hshort
  refine ⟨hT.done_once, ⟨T + 1, fun u hle n hn => ?_⟩, fun u => left_of_poll_ends,
    fun u => exists_ends⟩
  have hcopied :=
    (DMASystem.Transfer.words_of_written hwords hshort hinside hundisturbed hT hle).1 n hn
  rwa [h.source_transfer, h.destination_transfer] at hcopied

end MainRun

/-! ## A CPU that does nothing else -/

theorem target_address (register : BitVec 3) :
    DataMaster.target (address register) = .control := by
  revert register
  decide

/-- The program of `hello_world.c`, its first buffer at word 64. -/
def helloWorld : Globals :=
  ⟨0x100, 0x21000, 32, 8⟩

def helloInputs (p : Main) : CPUSystem.Inputs :=
  { CPUSystem.pollingInputs with
    core := signals helloWorld p CPUSystem.pollingInputs.core }

def helloNext (i : CPUSystem.Inputs)
    (s : CPUSystem.State (SyncRam.ofWords 14 10000) (SyncRam.ofWords 10 1024)) (p : Main) : Main :=
  let network := CPUSystem.network i s
  if (i.core.read || i.core.write) && decide (DataMaster.target i.core.address = .control) &&
      !DataMaster.avWaitrequest i.core network s.dataMaster || decide p.Left then
    p.next (DataMaster.avReaddata network)
  else p

theorem target_of_write {p : Main} (h : (helloInputs p).core.write = true) :
    DataMaster.target (helloInputs p).core.address = .control := by
  obtain ⟨point, enable⟩ := p
  cases point with
  | poll | handlerStatus | returned => cases h
  | _ => exact target_address _

/-- It writes to neither memory. -/
theorem hello_writes_control {p : Main}
    {s : CPUSystem.State (SyncRam.ofWords 14 10000) (SyncRam.ofWords 10 1024)}
    {k : DataMaster.Target} (hvalid : (CPUSystem.command (helloInputs p) s k).valid = true)
    (hwrite : (CPUSystem.command (helloInputs p) s k).av.write = true) : k = .control := by
  have hoffers : CPUSystem.offers (helloInputs p) s k = true := hvalid
  rw [CPUSystem.offers_eq, Bool.and_eq_true, decide_eq_true_eq] at hoffers
  rw [hoffers.1, target_of_write (Bool.and_eq_true_iff.mp hwrite).1]

def helloRun : CPUSystem.Run (SyncRam.ofWords 14 10000) (SyncRam.ofWords 10 1024) where
  toExecution := drive (CPUSystem.machine _ _) (fun _ => helloInputs) helloNext
    CPUSystem.afterReset Main.start
  dataMaster_reset := rfl
  debug_reset := ⟨rfl, SlavePort.isReset_afterReset⟩
  dma_reset := ⟨{ DMA.Bench.idle with iResetN := false }, DMA.Bench.powerUp, rfl, rfl⟩
  memory0_reset := ⟨rfl, rfl, SlavePort.isReset_afterReset⟩
  memory1_reset := ⟨rfl, rfl, SlavePort.isReset_afterReset⟩
  control_reset := ⟨rfl, SlavePort.isReset_afterReset⟩
  uart_reset := SlavePort.isReset_afterReset
  uartWaitrequest_reset := rfl
  range := by
    rintro t c (rfl | rfl) hvalid hwrite
    · cases hwrite
    · cases hello_writes_control hvalid hwrite

def helloMain (t : ℕ) : Main :=
  (driveState (CPUSystem.machine _ _) (fun _ => helloInputs) helloNext CPUSystem.afterReset
    Main.start t).2

theorem hello_main_succ (t : ℕ) : helloMain (t + 1) =
    if ends helloRun t || true && decide (helloMain t).Left then
      (helloMain t).next (readdata helloRun t)
    else helloMain t :=
  rfl

theorem hello_signals (p : Main) (c : Core) :
    signals helloWorld p (signals helloWorld p c) = signals helloWorld p c := by
  obtain ⟨point, enable⟩ := p
  cases point <;> rfl

theorem hello_holds : DataMaster.Holds helloRun.dataMaster where
  exclusive t hread := by
    have hread : (helloInputs (helloMain t)).core.read = true := hread
    show (helloInputs (helloMain t)).core.write = false
    generalize helloMain t = p at hread ⊢
    obtain ⟨point, enable⟩ := p
    cases point with
    | poll => rfl
    | _ => cases hread
  holds t hpresents hwaits := by
    have hpresents : ((helloInputs (helloMain t)).core.read ||
        (helloInputs (helloMain t)).core.write) = true := hpresents
    have hleft : ¬ (helloMain t).Left := by
      generalize helloMain t = p at hpresents ⊢
      obtain ⟨point, enable⟩ := p
      cases point with
      | handlerStatus | returned => cases hpresents
      | _ => simp [Main.Left]
    have hsame : helloMain (t + 1) = helloMain t := by
      rw [hello_main_succ, if_neg]
      simp [ends, hwaits, hleft]
    show (helloInputs (helloMain (t + 1))).core = (helloInputs (helloMain t)).core
    rw [hsame]

def hello : MainRun (SyncRam.ofWords 14 10000) (SyncRam.ofWords 10 1024) where
  toRun := helloRun
  globals := helloWorld
  main := helloMain
  steps _ := true
  holds := hello_holds
  instruction _ := rfl
  main_zero := rfl
  main_succ := hello_main_succ
  bus t _ := (hello_signals (helloMain t) _).symm

theorem hello_at_control {t : ℕ} (hleft : ¬ (hello.main t).Left) :
    atControl hello.toRun t = true := by
  show (((helloInputs (helloMain t)).core.read || (helloInputs (helloMain t)).core.write) &&
    decide (DataMaster.target (helloInputs (helloMain t)).core.address = .control)) = true
  have hleft : ¬ (helloMain t).Left := hleft
  generalize helloMain t = p at hleft ⊢
  obtain ⟨point, enable⟩ := p
  cases point with
  | handlerStatus => exact absurd (.inl rfl) hleft
  | returned => exact absurd (.inr rfl) hleft
  | _ => exact decide_eq_true (target_address _)

/-- The program moves on from each of its writes. -/
theorem hello_moves {t : ℕ} (hleft : ¬ (hello.main t).Left) (hpoll : (hello.main t).point ≠ .poll) :
    ∃ u, hello.main u = (hello.main t).next 0 := by
  obtain ⟨u, -, -, hends, hsame⟩ := MainRun.exists_ends (hello_at_control hleft)
  refine ⟨u + 1, ?_⟩
  rw [hello.main_succ, hends, Bool.true_or, if_pos rfl, hsame]
  exact MainRun.next_of_ne_poll hpoll _ _

theorem hello_sets_go : ∃ t, hello.SetsGo t := by
  -- through the four writes, however long each takes
  obtain ⟨t, ht⟩ := hello_moves (t := 0) (by decide) (by decide)
  have ht : hello.main t = ⟨.writePdata1, 1⟩ := ht
  obtain ⟨u, hu⟩ := hello_moves (t := t) (by rw [ht]; decide) (by rw [ht]; decide)
  have hu : hello.main u = ⟨.writeLength, 1⟩ := by rw [hu, ht]; rfl
  obtain ⟨v, hv⟩ := hello_moves (t := u) (by rw [hu]; decide) (by rw [hu]; decide)
  have hv : hello.main v = ⟨.writeControl, 1⟩ := by rw [hv, hu]; rfl
  obtain ⟨w, -, -, hends, hsame⟩ :=
    MainRun.exists_ends (hello_at_control (t := v) (by rw [hv]; decide))
  obtain ⟨x, -, htakes, hmain⟩ := MainRun.taken_of_ends hends
  exact ⟨x, htakes, by rw [hmain, hsame, hv], rfl⟩

theorem hello_leaves_alone (t N : ℕ) : hello.LeavesAlone t N where
  source := by
    rintro u n _ _ ⟨k, hk, hvalid, hwrite, _⟩
    match k with
    | 0 => cases hwrite
    | 1 => cases hello_writes_control hvalid hwrite
    | 2 => exact hk rfl
  destination := by
    rintro u n _ _ ⟨k, hk, hvalid, hwrite, _⟩
    match k with
    | 0 => cases hwrite
    | 1 => cases hello_writes_control hvalid hwrite
    | 2 => exact hk rfl

theorem hello_copies : ∃ t, hello.SetsGo t ∧ ∃ T, ∀ u, T ≤ u → ∀ n < 8,
    hello.system.word1 u (hello.destination n) =
      hello.system.word0 (t + 2) (hello.source n) := by
  obtain ⟨t, h⟩ := hello_sets_go
  exact ⟨t, h, (MainRun.program_copies (N := 8) h rfl (by decide) (by decide) (by decide)
    (hello_leaves_alone _ _)).2.1⟩

end CE213Lab.System.MainProgram
