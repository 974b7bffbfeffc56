import CE213Lab.DMA.FIFO

/-!
# The read master

`read_master.v`: an Avalon read port that walks from the start address in steps of four until its
address equals the end address, and hands returned words to the FIFO. The walk is a machine of
three states; `walk_move` lists what one clock edge can do in each of them.
-/

namespace CE213Lab.DMA.ReadMaster

/-- The registers, with the latch the combinational block of `oFF_data` implies. -/
structure State where
  state : BitVec 2
  oRMRead : Bool
  oRMReadaddress : Word
  rmLastwriteaddress : Word
  ffDataLatch : Word

structure Inputs where
  iResetN : Bool
  iStart : Bool
  iLength : Word
  iRMStartaddress : Word
  iRMReaddatavalid : Bool
  iRMWaitrequest : Bool
  iRMReaddata : Word
  iFFAlmostfull : Bool

/-- The FIFO is offered a word only while the walk is in state 0. -/
def oFFWriterequest (i : Inputs) (s : State) : Bool :=
  if !i.iResetN then false
  else !i.iFFAlmostfull && s.state == 0 && i.iRMReaddatavalid

/-- The word offered. The source assigns `oFF_data` on no other branch, so it is held. -/
def oFFData (i : Inputs) (s : State) : Word :=
  let held := if !i.iResetN then 0 else s.ffDataLatch
  if i.iRMReaddatavalid then i.iRMReaddata else held

/-- The `always` block of the walk. -/
def walk (i : Inputs) (s : State) : State :=
  if !i.iResetN then
    { s with state := 0, oRMReadaddress := 0, oRMRead := false, rmLastwriteaddress := 0 }
  else if i.iStart then
    { s with
      oRMReadaddress := i.iRMStartaddress
      rmLastwriteaddress := i.iRMStartaddress + i.iLength }
  else if !i.iFFAlmostfull || s.state != 0 then
    match s.state with
    | 0 => { s with state := 1 }
    | 1 =>
        if s.oRMReadaddress == s.rmLastwriteaddress then { s with state := 0 }
        else { s with oRMRead := true, state := 2 }
    | 2 =>
        if !i.iRMWaitrequest then
          { s with oRMReadaddress := s.oRMReadaddress + 4, oRMRead := false, state := 0 }
        else s
    | _ => s
  else s

def step (i : Inputs) (s : State) : State :=
  { walk i s with ffDataLatch := oFFData i s }

/-- A reset edge clears every register but the latch, which still follows the read data. -/
theorem step_reset {i : Inputs} (hreset : i.iResetN = false) (s : State) :
    step i s = ⟨0, false, 0, 0, oFFData i s⟩ := by
  simp [step, walk, hreset]

/-- The registers of the walk an edge without reset and start pulse leads to: how the state, the
read command and the address change, the end address being kept. -/
inductive Move (i : Inputs) (s : State) : State → Prop where
  | full : s.state = 0#2 → i.iFFAlmostfull = true → Move i s s
  | leave : s.state = 0#2 → i.iFFAlmostfull = false → Move i s { s with state := 1 }
  | finish : s.state = 1#2 → s.oRMReadaddress = s.rmLastwriteaddress →
      Move i s { s with state := 0 }
  | issue : s.state = 1#2 → s.oRMReadaddress ≠ s.rmLastwriteaddress →
      Move i s { s with oRMRead := true, state := 2 }
  | stall : s.state = 2#2 → i.iRMWaitrequest = true → Move i s s
  | accept : s.state = 2#2 → i.iRMWaitrequest = false →
      Move i s { s with oRMReadaddress := s.oRMReadaddress + 4, oRMRead := false, state := 0 }
  | unused : s.state = 3#2 → Move i s s

/-- A two-bit state is one of four. -/
theorem state_cases (state : BitVec 2) : state = 0#2 ∨ state = 1#2 ∨ state = 2#2 ∨ state = 3#2 := by
  revert state
  decide

/-- Every edge without reset and start pulse is one of the moves. -/
theorem walk_move {i : Inputs} {s : State} (hreset : i.iResetN = true)
    (hstart : i.iStart = false) : Move i s (walk i s) := by
  rcases state_cases s.state with h | h | h | h
  · cases hfull : i.iFFAlmostfull with
    | true => simpa [walk, hreset, hstart, h, hfull] using Move.full h hfull
    | false => simpa [walk, hreset, hstart, h, hfull] using Move.leave h hfull
  · by_cases hend : s.oRMReadaddress = s.rmLastwriteaddress
    · simpa [walk, hreset, hstart, h, hend] using Move.finish (i := i) h hend
    · simpa [walk, hreset, hstart, h, hend] using Move.issue (i := i) h hend
  · cases hwait : i.iRMWaitrequest with
    | true => simpa [walk, hreset, hstart, h, hwait] using Move.stall h hwait
    | false => simpa [walk, hreset, hstart, h, hwait] using Move.accept h hwait
  · simpa [walk, hreset, hstart, h] using Move.unused (i := i) h

end CE213Lab.DMA.ReadMaster
