import CE213Lab.DMA.Accesses
import CE213Lab.DMA.LastWord

/-!
# The polling program

`main` of `hello_world.c` next to the engine: four register writes, then a loop that reads the
status register until it shows a value of at most 2. A `Session` is a run of the engine whose CPU
port is driven by `main`, one statement at a time, in the cycles of an arbitrary schedule. The
status is never larger than 2, so the loop is left with its first poll; `waits_iff` says what
this means for the writes.
-/

namespace CE213Lab.DMA

open Foundation DMAFinal

/-! ## The program -/

/-- The globals `main` reads: the addresses of the two buffers, `length` and `control`. -/
structure Globals where
  pdata0 : Word
  pdata1 : Word
  length : Word
  control : Word

/-- The point `main` has reached: one of the four `IOWR_32DIRECT` statements, the `IORD_32DIRECT`
of the loop with the test of its value, the call of `handlerStatus`, or the end. -/
inductive Point where
  | writePdata0
  | writePdata1
  | writeLength
  | writeControl
  | poll
  | handlerStatus
  | returned
  deriving DecidableEq, Repr

/-- `main` with its loop variable. -/
structure Main where
  point : Point
  enable : Word
  deriving DecidableEq

namespace Main

/-- `enable` is initialised to 1. -/
def start : Main :=
  ⟨.writePdata0, 1⟩

/-- The loop head `while(enable)`. -/
def loopHead (m : Main) : Main :=
  { m with point := if m.enable ≠ 0 then .poll else .returned }

/-- One statement. `readdata` is the value an `IORD_32DIRECT` returns, compared as an `int`. -/
def next (readdata : Word) (m : Main) : Main :=
  match m.point with
  | .writePdata0 => { m with point := .writePdata1 }
  | .writePdata1 => { m with point := .writeLength }
  | .writeLength => { m with point := .writeControl }
  | .writeControl => m.loopHead
  | .poll => if readdata.sle 2#32 then ⟨.handlerStatus, 0⟩ else m.loopHead
  | .handlerStatus => m.loopHead
  | .returned => m

/-- The CPU port without an access. -/
def noAccess (i : Inputs) : Inputs :=
  { i with iChipselectN := true, iRead := false, iWrite := false }

/-- `IOWR_32DIRECT(DMA, 4 * address, data)` on the CPU port. -/
def write (address : BitVec 3) (data : Word) (i : Inputs) : Inputs :=
  { i with
    iChipselectN := false
    iRead := false
    iWrite := true
    iAddress := address
    iWritedata := data }

/-- `IORD_32DIRECT(DMA, 4 * address)` on the CPU port. -/
def read (address : BitVec 3) (i : Inputs) : Inputs :=
  { i with iChipselectN := false, iRead := true, iWrite := false, iAddress := address }

/-- The access of the statement `main` has reached. `handlerStatus` only reads the destination
buffer. -/
def access (g : Globals) (m : Main) (i : Inputs) : Inputs :=
  match m.point with
  | .writePdata0 => write 0 g.pdata0 i
  | .writePdata1 => write 1 g.pdata1 i
  | .writeLength => write 2 g.length i
  | .writeControl => write 3 g.control i
  | .poll => read 7 i
  | .handlerStatus | .returned => noAccess i

/-- The loop is left: `handlerStatus` is called. -/
def Left (m : Main) : Prop :=
  m.point = .handlerStatus ∨ m.point = .returned

instance (m : Main) : Decidable m.Left :=
  inferInstanceAs (Decidable (_ ∨ _))

/-- `enable` says whether the loop is left. -/
def Consistent (m : Main) : Prop :=
  m.enable = if m.Left then 0#32 else 1#32

theorem Consistent.next {m : Main} (h : m.Consistent) (readdata : Word) :
    (m.next readdata).Consistent := by
  obtain ⟨point, enable⟩ := m
  unfold Consistent at h
  cases point with
  | poll =>
      have h : enable = 1#32 := h
      by_cases hread : readdata.sle 2#32 <;>
        simp [Main.next, loopHead, Consistent, Left, hread, h]
  | _ => simp_all [Main.next, loopHead, Consistent, Left]

/-- GO has not been written yet. -/
def Programming (m : Main) : Prop :=
  m.point = .writePdata0 ∨ m.point = .writePdata1 ∨ m.point = .writeLength ∨
    m.point = .writeControl

/-- Once it has, the program does not come back. -/
theorem programming_of_next {m : Main} (h : m.Consistent) {readdata : Word}
    (hnext : (m.next readdata).Programming) :
    m.point = .writePdata0 ∨ m.point = .writePdata1 ∨ m.point = .writeLength := by
  obtain ⟨point, enable⟩ := m
  cases point with
  | writePdata0 | writePdata1 | writeLength => simp
  | writeControl | handlerStatus =>
      by_cases henable : enable = 0#32 <;>
        simp [Programming, Main.next, loopHead, henable] at hnext
  | poll =>
      by_cases hread : readdata.sle 2#32
      · simp [Programming, Main.next, hread] at hnext
      · have h : enable = 1#32 := h
        simp [Programming, Main.next, loopHead, hread, h] at hnext
  | returned => simp [Programming, Main.next] at hnext

/-- The loop is left by a poll only. -/
theorem poll_of_left_next {m : Main} (h : m.Consistent) {readdata : Word}
    (hbefore : ¬ m.Left) (hafter : (m.next readdata).Left) : m.point = .poll := by
  obtain ⟨point, enable⟩ := m
  cases point with
  | poll => rfl
  | writeControl =>
      have h : enable = 1#32 := h
      simp [Main.next, loopHead, Left, h] at hafter
  | writePdata0 | writePdata1 | writeLength => simp [Main.next, Left] at hafter
  | handlerStatus | returned => simp [Left] at hbefore

end Main

/-! ## The program and the engine -/

/-- A run of the engine under `main`. In a cycle in which `main` acts it performs the statement it
has reached; a read takes `oReaddata` as it stands in that cycle. -/
structure Session extends Run where
  globals : Globals
  main : ℕ → Main
  acts : ℕ → Bool
  main_zero : main 0 = Main.start
  main_succ : ∀ t, main (t + 1) =
    if acts t then (main t).next (state t).control.oReaddata else main t
  bus : ∀ t, input t =
    if acts t then (main t).access globals (input t) else Main.noAccess (input t)

/-- The read data register shows 0, 1 or 2, as the status does. -/
theorem Run.readdata_le (r : Run) (t : ℕ) : (r.state t).control.oReaddata.sle 2#32 = true := by
  have hstatus : ∀ u, (r.state u).control.status.sle 2#32 = true := by
    intro u
    rw [(r.in_phase u).status]
    cases r.phase u <;> decide
  rcases r.readdata_latches.value_eq_iff.mp (Eq.refl (r.state t).control.oReaddata) with
    ⟨u, -, hshown⟩ | ⟨-, hreset⟩
  · rw [← hshown]
    exact hstatus u
  · rw [← hreset, r.cleared.control]
    rfl

/-- The parameters the engine holds when `main` has reached `point`. -/
def Written (g : Globals) (point : Point) (c : ControlSlave.State) : Prop :=
  match point with
  | .writePdata1 => c.oRMStartaddress = g.pdata0
  | .writeLength => c.oRMStartaddress = g.pdata0 ∧ c.oWMStartaddress = g.pdata1
  | .writeControl =>
      c.oRMStartaddress = g.pdata0 ∧ c.oWMStartaddress = g.pdata1 ∧ c.oLength = g.length
  | _ => True

namespace Session

variable {s : Session} {t : ℕ}

/-- `main` reads the status register. -/
def Polls (s : Session) (t : ℕ) : Prop :=
  s.acts t = true ∧ (s.main t).point = .poll

/-- The loop is left only when the whole length has been written. -/
def WaitsForWrites (s : Session) : Prop :=
  ∀ t, (s.main t).Left → s.globals.length.toNat ≤ 4 * (s.ledger t).writes.length

theorem consistent (t : ℕ) : (s.main t).Consistent := by
  induction t with
  | zero =>
      rw [s.main_zero]
      rfl
  | succ t ih =>
      rw [s.main_succ]
      split
      · exact ih.next _
      · exact ih

/-- Whatever the status, the first poll leaves the loop. -/
theorem left_of_polls (h : s.Polls t) : (s.main (t + 1)).Left := by
  rw [s.main_succ, h.1, if_pos rfl, Main.next, h.2, s.readdata_le t]
  exact .inl rfl

theorem polls_of_left (h : (s.main t).Left) : ∃ u < t, s.Polls u := by
  induction t with
  | zero =>
      rw [s.main_zero] at h
      exact absurd h (by decide)
  | succ t ih =>
      by_cases hearlier : (s.main t).Left
      · obtain ⟨u, hlt, hu⟩ := ih hearlier
        exact ⟨u, by omega, hu⟩
      · rw [s.main_succ] at h
        split at h
        · rename_i hacts
          exact ⟨t, Nat.lt_succ_self t, hacts, Main.poll_of_left_next (consistent t) hearlier h⟩
        · exact absurd h hearlier

/-- The program waits for the writes exactly when its first poll comes after them. -/
theorem waits_iff (s : Session) :
    s.WaitsForWrites ↔
      ∀ t, s.Polls t → s.globals.length.toNat ≤ 4 * (s.ledger (t + 1)).writes.length := by
  refine ⟨?_, ?_⟩
  · intro hwaits t hpolls
    exact hwaits (t + 1) (left_of_polls hpolls)
  · intro hpolls t hleft
    obtain ⟨u, hlt, hu⟩ := polls_of_left hleft
    have hle := (Run.writes_mono (r := s.toRun) (show u + 1 ≤ t from hlt)).length_le
    exact (hpolls u hu).trans (Nat.mul_le_mul_left 4 hle)

/-! ### Programming the engine -/

theorem status_of_ready (hready : s.phase t = .ready) : (s.state t).control.status = 0 := by
  rw [(s.in_phase t).status, hready]
  rfl

/-- Without an access the registers are kept. -/
theorem registers_kept (hready : s.phase t = .ready) (hacts : s.acts t = false) :
    ControlSlave.registerBlock (controlInputs (s.input t) (s.state t)) (s.state t).control =
      (s.state t).control := by
  have hselect : (s.input t).iChipselectN = true := by
    have hbus := congrArg Inputs.iChipselectN (s.bus t)
    rwa [hacts, if_neg Bool.false_ne_true] at hbus
  simp [ControlSlave.registerBlock, controlInputs, s.iResetN, ControlSlave.done,
    status_of_ready hready, hselect]

/-- An `IOWR_32DIRECT` writes the register addressed. -/
theorem registers_written {address : BitVec 3} {data : Word} (hready : s.phase t = .ready)
    (hacts : s.acts t = true)
    (haccess : (s.main t).access s.globals (s.input t) = Main.write address data (s.input t)) :
    ControlSlave.registerBlock (controlInputs (s.input t) (s.state t)) (s.state t).control =
      ControlSlave.written (controlInputs (Main.write address data (s.input t)) (s.state t))
        (s.state t).control := by
  have hbus : s.input t = Main.write address data (s.input t) := by
    have hbus := s.bus t
    rwa [hacts, if_pos rfl, haccess] at hbus
  conv_lhs => rw [hbus]
  simp [ControlSlave.registerBlock, ControlSlave.written, controlInputs, Main.write, s.iResetN,
    ControlSlave.done, ControlSlave.busy, status_of_ready hready]

/-- Until then the engine is idle and holds the parameters that have been written. -/
theorem programmed (t : ℕ) (hbefore : (s.main t).Programming) :
    s.phase t = .ready ∧ (s.state t).control.control = 0 ∧
      Written s.globals (s.main t).point (s.state t).control := by
  induction t with
  | zero =>
      rw [s.main_zero, s.cleared.control]
      exact ⟨rfl, rfl, trivial⟩
  | succ t ih =>
      have hnext (h : (s.main t).Programming) : s.phase (t + 1) = .ready := by
        obtain ⟨hready, hcontrol, -⟩ := ih h
        rw [s.phase_succ, hready, ControlSlave.go, hcontrol]
        rfl
      have hstep : (s.state (t + 1)).control.control = (ControlSlave.registerBlock
          (controlInputs (s.input t) (s.state t)) (s.state t).control).control := by
        rw [s.state_succ]
        rfl
      have hwritten : Written s.globals (s.main (t + 1)).point (s.state (t + 1)).control ↔
          Written s.globals (s.main (t + 1)).point (ControlSlave.registerBlock
            (controlInputs (s.input t) (s.state t)) (s.state t).control) := by
        rw [s.state_succ]
        cases (s.main (t + 1)).point <;> exact Iff.rfl
      rw [hwritten, hstep]
      cases hacts : s.acts t with
      | false =>
          have hsame : s.main (t + 1) = s.main t := by
            rw [s.main_succ, hacts, if_neg Bool.false_ne_true]
          rw [hsame] at hbefore
          obtain ⟨hready, hcontrol, hparameters⟩ := ih hbefore
          rw [registers_kept hready hacts, hsame]
          exact ⟨hnext hbefore, hcontrol, hparameters⟩
      | true =>
          have hmove : s.main (t + 1) = (s.main t).next (s.state t).control.oReaddata := by
            rw [s.main_succ, hacts, if_pos rfl]
          rw [hmove] at hbefore
          rw [hmove]
          -- one of the three writes of a parameter
          rcases Main.programming_of_next (consistent t) hbefore with hpoint | hpoint | hpoint
          all_goals
            have hearlier : (s.main t).Programming := by simp [Main.Programming, hpoint]
            obtain ⟨hready, hcontrol, hparameters⟩ := ih hearlier
            rw [hpoint] at hparameters
            rw [registers_written hready hacts (by rw [Main.access, hpoint])]
            refine ⟨hnext hearlier, by simpa [ControlSlave.written, controlInputs, Main.write], ?_⟩
            simp_all [Main.next, Written, ControlSlave.written, controlInputs, Main.write]

/-- The next statement after the GO write is the first poll. -/
theorem poll_of_go (hacts : s.acts t = true) (hpoint : (s.main t).point = .writeControl) :
    (s.main (t + 1)).point = .poll := by
  have henable : (s.main t).enable = 1 := by
    have hconsistent := consistent (s := s) t
    rwa [Main.Consistent, if_neg (by simp [Main.Left, hpoint])] at hconsistent
  rw [s.main_succ, hacts, if_pos rfl, Main.next, hpoint]
  simp [Main.loopHead, henable]

/-- With GO among the control bits the engine starts two cycles after the GO write, with the
parameters of the program. -/
theorem starts (hgo : s.globals.control.getLsbD 3 = true) (hacts : s.acts t = true)
    (hpoint : (s.main t).point = .writeControl) :
    (s.state (t + 2)).control.oStart = true ∧
      Written s.globals .writeControl (s.state (t + 2)).control := by
  have hprogramming : (s.main t).Programming := by simp [Main.Programming, hpoint]
  obtain ⟨hready, hcontrol, hparameters⟩ := programmed t hprogramming
  rw [hpoint] at hparameters
  have hblock := registers_written hready hacts (by rw [Main.access, hpoint])
  have hnext : s.phase (t + 1) = .ready := by
    rw [s.phase_succ, hready, ControlSlave.go, hcontrol]
    rfl
  have hset : (s.state (t + 1)).control.control = s.globals.control := by
    rw [s.state_succ]
    show (ControlSlave.registerBlock (controlInputs _ _) (s.state t).control).control = _
    rw [hblock]
    rfl
  have hheld : Written s.globals .writeControl (s.state (t + 1)).control := by
    rw [s.state_succ]
    show Written s.globals .writeControl (ControlSlave.registerBlock
      (controlInputs (s.input t) (s.state t)) (s.state t).control)
    rw [hblock]
    exact hparameters
  refine ⟨Run.start_iff.mpr ?_, ?_⟩
  · rw [s.phase_succ, hnext, ControlSlave.go, hset, ← BitVec.getLsbD_eq_getElem, hgo]
    rfl
  · -- a poll writes nothing
    have hread : (s.input (t + 1)).iWrite = false := by
      have hbus := congrArg Inputs.iWrite (s.bus (t + 1))
      rw [Main.access, poll_of_go hacts hpoint] at hbus
      split at hbus <;> exact hbus
    rw [s.state_succ]
    show Written s.globals .writeControl (ControlSlave.registerBlock
      (controlInputs (s.input (t + 1)) (s.state (t + 1))) (s.state (t + 1)).control)
    have haccess := ControlSlave.registerBlock_access (s := (s.state (t + 1)).control)
      (i := controlInputs (s.input (t + 1)) (s.state (t + 1))) (s.iResetN (t + 1))
    generalize ControlSlave.registerBlock _ _ = next at haccess ⊢
    cases haccess with
    | clear | read | keep => exact hheld
    | write hwrite => simp [ControlSlave.writes, controlInputs, hread] at hwrite

end Session

/-! ## The demo -/

namespace Bench

/-- The inputs under `main` acting in every cycle, with an on-chip memory and no stalls. -/
def sessionInput (memory : Word → Word) (g : Globals) (env : Option Word × Main) : Inputs :=
  answer memory env.1 (env.2.access g idle)

/-- The pending read and `main` after a cycle. -/
def sessionNext (i : Inputs) (s : State) (env : Option Word × Main) : Option Word × Main :=
  (request i s, env.2.next s.control.oReaddata)

/-- `main` acting in every cycle, with an on-chip memory and no stalls. -/
def session (memory : Word → Word) (g : Globals) : Session where
  toExecution :=
    drive engine (fun _ => sessionInput memory g) sessionNext afterReset (none, Main.start)
  reset := ⟨{ idle with iResetN := false }, powerUp, rfl, rfl⟩
  iResetN _ := rfl
  globals := g
  main t := (driveState engine (fun _ => sessionInput memory g) sessionNext afterReset
    (none, Main.start) t).2.2
  acts _ := true
  main_zero := rfl
  main_succ _ := rfl
  bus t := by
    show sessionInput memory g _ = Main.access g _ (sessionInput memory g _)
    unfold sessionInput Main.access
    split <;> rfl

theorem session_fixed_latency {memory : Word → Word} {g : Globals} :
    (session memory g).FixedLatency :=
  ⟨rfl, fun _ => request_isSome _ _⟩

end Bench

/-- The demo's own transfer of 32 bytes, polled in the cycle after the GO write. -/
def demo : Session :=
  Bench.session id ⟨0x1000, 0x2000, 32, 8⟩

/-- `handlerStatus` is called before the first word is written. -/
theorem demo_left_before_writes :
    demo.FixedLatency ∧ demo.globals.length = 32 ∧ ¬ demo.WaitsForWrites := by
  refine ⟨Bench.session_fixed_latency, rfl, fun hwaits => ?_⟩
  have hleft : (demo.main 5).Left := by decide +kernel
  have hwrites : (demo.ledger 5).writes = [] := by decide +kernel
  have hle := hwaits 5 hleft
  rw [hwrites] at hle
  exact absurd hle (by decide)

end CE213Lab.DMA
