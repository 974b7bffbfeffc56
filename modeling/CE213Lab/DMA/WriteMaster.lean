import CE213Lab.DMA.ReadMaster

/-!
# The write master

`write_master.v`: pops a word from the FIFO, presents it at the Avalon write port and steps the
address when the command is accepted. In state 1 the source assigns `state` twice: the end test
sends it to state 2 with `oWM_done` set, and the acceptance test, written after it, overrides that
with state 0. `Move.acceptLast` and `Move.stallLast` are the two outcomes.
-/

namespace CE213Lab.DMA.WriteMaster

structure State where
  state : BitVec 2
  oWMWrite : Bool
  oWMDone : Bool
  oWMWritedata : Word
  oWMWriteaddress : Word
  wmLastwriteaddress : Word

structure Inputs where
  iResetN : Bool
  iStart : Bool
  iWMStartaddress : Word
  iLength : Word
  iWMWaitrequest : Bool
  iFFEmpty : Bool
  iFFQ : Word

def oFFReadrequest (i : Inputs) (s : State) : Bool :=
  if !i.iResetN then false else !i.iFFEmpty && s.state == 0

/-- State 1, its two tests in the order of the source: the second overrides the first. -/
def present (i : Inputs) (s : State) : State :=
  let tested :=
    if s.wmLastwriteaddress == s.oWMWriteaddress + 4 then { s with state := 2, oWMDone := true }
    else s
  if !i.iWMWaitrequest then
    { tested with oWMWriteaddress := s.oWMWriteaddress + 4, oWMWrite := false, state := 0 }
  else tested

def step (i : Inputs) (s : State) : State :=
  if !i.iResetN then
    { state := 0, oWMWrite := false, oWMDone := false, oWMWritedata := 0, oWMWriteaddress := 0,
      wmLastwriteaddress := 0 }
  else if i.iStart then
    { s with
      oWMWriteaddress := i.iWMStartaddress
      wmLastwriteaddress := i.iWMStartaddress + i.iLength }
  else if !i.iFFEmpty || s.state != 0 then
    match s.state with
    | 0 => { s with state := 1, oWMWrite := true, oWMWritedata := i.iFFQ }
    | 1 => present i s
    | 2 => { s with oWMDone := false, state := 0 }
    | _ => s
  else s

/-- A reset edge clears every register. -/
theorem step_reset {i : Inputs} (hreset : i.iResetN = false) (s : State) :
    step i s = ⟨0, false, false, 0, 0, 0⟩ := by
  simp [step, hreset]

/-- The command presented is the one the end test takes for the last of the transfer. -/
def AtEnd (s : State) : Prop :=
  s.wmLastwriteaddress = s.oWMWriteaddress + 4

instance (s : State) : Decidable (AtEnd s) :=
  inferInstanceAs (Decidable (_ = _))

/-- The registers an edge without reset and start pulse leads to. -/
inductive Move (i : Inputs) (s : State) : State → Prop where
  | empty : s.state = 0#2 → i.iFFEmpty = true → Move i s s
  | take : s.state = 0#2 → i.iFFEmpty = false →
      Move i s { s with state := 1, oWMWrite := true, oWMWritedata := i.iFFQ }
  | stall : s.state = 1#2 → ¬ AtEnd s → i.iWMWaitrequest = true → Move i s s
  | accept : s.state = 1#2 → ¬ AtEnd s → i.iWMWaitrequest = false →
      Move i s
        { s with oWMWriteaddress := s.oWMWriteaddress + 4, oWMWrite := false, state := 0 }
  | stallLast : s.state = 1#2 → AtEnd s → i.iWMWaitrequest = true →
      Move i s { s with state := 2, oWMDone := true }
  | acceptLast : s.state = 1#2 → AtEnd s → i.iWMWaitrequest = false →
      Move i s
        { s with
          oWMDone := true
          oWMWriteaddress := s.oWMWriteaddress + 4
          oWMWrite := false
          state := 0 }
  | clear : s.state = 2#2 → Move i s { s with oWMDone := false, state := 0 }
  | unused : s.state = 3#2 → Move i s s

/-- State 1 is one of the four moves of a presented command. -/
theorem present_move {i : Inputs} {s : State} (h : s.state = 1#2) : Move i s (present i s) := by
  have htest : (s.wmLastwriteaddress == s.oWMWriteaddress + 4) = decide (AtEnd s) := by
    rw [Bool.eq_iff_iff, beq_iff_eq, decide_eq_true_eq, AtEnd]
  unfold present
  rw [htest]
  by_cases hend : AtEnd s
  · rw [decide_eq_true hend]
    cases hwait : i.iWMWaitrequest with
    | true => exact Move.stallLast h hend hwait
    | false => exact Move.acceptLast h hend hwait
  · rw [decide_eq_false hend]
    cases hwait : i.iWMWaitrequest with
    | true => exact Move.stall h hend hwait
    | false => exact Move.accept h hend hwait

/-- Every edge without reset and start pulse is one of the moves. -/
theorem step_move {i : Inputs} {s : State} (hreset : i.iResetN = true)
    (hstart : i.iStart = false) : Move i s (step i s) := by
  rcases ReadMaster.state_cases s.state with h | h | h | h
  · cases hempty : i.iFFEmpty with
    | true => simpa [step, hreset, hstart, h, hempty] using Move.empty h hempty
    | false => simpa [step, hreset, hstart, h, hempty] using Move.take h hempty
  · simpa [step, hreset, hstart, h] using present_move (i := i) h
  · simpa [step, hreset, hstart, h] using Move.clear (i := i) h
  · simpa [step, hreset, hstart, h] using Move.unused (i := i) h

/-- The registers an edge outside reset leads to: a start pulse loads the two addresses and does
nothing else. -/
inductive Edge (i : Inputs) (s : State) : State → Prop where
  | start : i.iStart = true →
      Edge i s
        { s with
          oWMWriteaddress := i.iWMStartaddress
          wmLastwriteaddress := i.iWMStartaddress + i.iLength }
  | move {next : State} : Move i s next → Edge i s next

theorem step_edge {i : Inputs} {s : State} (hreset : i.iResetN = true) : Edge i s (step i s) := by
  cases hstart : i.iStart with
  | true => simpa [step, hreset, hstart] using Edge.start (s := s) hstart
  | false => exact Edge.move (step_move hreset hstart)

end CE213Lab.DMA.WriteMaster
