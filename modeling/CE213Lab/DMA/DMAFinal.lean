import CE213Lab.DMA.ControlSlave
import CE213Lab.Foundation.Machine

/-!
# The composed engine

`DMAFinal.v`: the control slave, the two masters and the FIFO, wired together. One step is one
rising clock edge. The second half names what can be observed in a cycle (a word entering or
leaving the FIFO, a command accepted on either Avalon port) and records it in a `Ledger`.
-/

namespace CE213Lab.DMA.DMAFinal

open Foundation

structure State where
  control : ControlSlave.State
  rm : ReadMaster.State
  fi : FIFO.State
  wm : WriteMaster.State

structure Inputs where
  iResetN : Bool
  iChipselectN : Bool
  iRead : Bool
  iWrite : Bool
  iAddress : BitVec 3
  iWritedata : Word
  iRMReaddatavalid : Bool
  iRMWaitrequest : Bool
  iRMReaddata : Word
  iWMWaitrequest : Bool

/-! ## Wires -/

/-- The FIFO registers as they stand in a cycle, after the asynchronous reset. -/
def fifo (i : Inputs) (s : State) : FIFO.State :=
  FIFO.negedgeReset i.iResetN s.fi

def controlInputs (i : Inputs) (s : State) : ControlSlave.Inputs where
  iResetN := i.iResetN
  iChipselectN := i.iChipselectN
  iWrite := i.iWrite
  iRead := i.iRead
  iMWDone := s.wm.oWMDone
  iAddress := i.iAddress
  iWritedata := i.iWritedata

def wmInputs (i : Inputs) (s : State) : WriteMaster.Inputs where
  iResetN := i.iResetN
  iStart := s.control.oStart
  iWMStartaddress := s.control.oWMStartaddress
  iLength := s.control.oLength
  iWMWaitrequest := i.iWMWaitrequest
  iFFEmpty := FIFO.ffEmpty (fifo i s)
  iFFQ := FIFO.ffQ (fifo i s)

def rmInputs (i : Inputs) (s : State) : ReadMaster.Inputs where
  iResetN := i.iResetN
  iStart := s.control.oStart
  iLength := s.control.oLength
  iRMStartaddress := s.control.oRMStartaddress
  iRMReaddatavalid := i.iRMReaddatavalid
  iRMWaitrequest := i.iRMWaitrequest
  iRMReaddata := i.iRMReaddata
  iFFAlmostfull := FIFO.ffAlmostfull (fifo i s)

def fiInputs (i : Inputs) (s : State) : FIFO.Inputs where
  iResetN := i.iResetN
  ffReadrequest := WriteMaster.oFFReadrequest (wmInputs i s) s.wm
  ffWriterequest := ReadMaster.oFFWriterequest (rmInputs i s) s.rm
  ffData := ReadMaster.oFFData (rmInputs i s) s.rm

/-! ## Clock edge -/

def step (i : Inputs) (s : State) : State where
  control := ControlSlave.step (controlInputs i s) s.control
  rm := ReadMaster.step (rmInputs i s) s.rm
  fi := FIFO.step (fiInputs i s) (fifo i s)
  wm := WriteMaster.step (wmInputs i s) s.wm

/-- The engine as a clocked machine. -/
def engine : Machine Inputs State := ⟨step⟩

/-! ## What happens in a cycle -/

/-- The read slave takes the command presented: `oRM_read` is high and `iRM_waitrequest` low. -/
def acceptsRead (i : Inputs) (s : State) : Bool :=
  s.rm.oRMRead && !i.iRMWaitrequest

/-- The destination slave takes the command presented. -/
def acceptsWrite (i : Inputs) (s : State) : Bool :=
  s.wm.oWMWrite && !i.iWMWaitrequest

/-- A word enters the FIFO. -/
def pushes (i : Inputs) (s : State) : Bool :=
  FIFO.fifoWr (fiInputs i s) (fifo i s)

/-- A word leaves the FIFO. -/
def pops (i : Inputs) (s : State) : Bool :=
  FIFO.fifoRd (fiInputs i s) (fifo i s)

/-- What has happened so far, in order: the addresses of the accepted reads, the words the read
slave returned, the words that entered and left the FIFO, and the accepted writes. -/
structure Ledger where
  reads : List Word
  returned : List Word
  pushed : List Word
  popped : List Word
  writes : List (Word × Word)

/-- Nothing has happened. -/
def Ledger.empty : Ledger := ⟨[], [], [], [], []⟩

/-- The ledger after a cycle. -/
def record (i : Inputs) (s : State) (l : Ledger) : Ledger where
  reads := l.reads ++ if acceptsRead i s then [s.rm.oRMReadaddress] else []
  returned := l.returned ++ if i.iRMReaddatavalid then [i.iRMReaddata] else []
  pushed := l.pushed ++
    if pushes i s then [ReadMaster.oFFData (rmInputs i s) s.rm] else []
  popped := l.popped ++ if pops i s then [FIFO.ffQ (fifo i s)] else []
  writes := l.writes ++
    if acceptsWrite i s then [(s.wm.oWMWriteaddress, s.wm.oWMWritedata)] else []

/-! ## Reset edges -/

/-- What a reset edge leaves: all registers zero and an empty FIFO. The FIFO's memory and the
reader's latch may hold anything. -/
structure Cleared (s : State) : Prop where
  control : s.control = ⟨0, 0, 0, 0, 0, 0, false, false, 0⟩
  reader : s.rm = ⟨0, false, 0, 0, s.rm.ffDataLatch⟩
  writer : s.wm = ⟨0, false, false, 0, 0, 0⟩
  bounded : FIFO.Bounded s.fi
  words : FIFO.words s.fi = []

theorem cleared_step {i : Inputs} (hreset : i.iResetN = false) (s : State) :
    Cleared (step i s) where
  control := ControlSlave.step_reset (i := controlInputs i s) hreset s.control
  reader := by
    show ReadMaster.step (rmInputs i s) s.rm = _
    rw [ReadMaster.step_reset (i := rmInputs i s) hreset]
    rfl
  writer := WriteMaster.step_reset (i := wmInputs i s) hreset s.wm
  bounded := (FIFO.step_reset (i := fiInputs i s) hreset (fifo i s)).1
  words := (FIFO.step_reset (i := fiInputs i s) hreset (fifo i s)).2

/-! ## Cycles outside reset -/

section

variable {i : Inputs} {s : State}

theorem fifo_eq (hreset : i.iResetN = true) : fifo i s = s.fi := by
  simp [fifo, FIFO.negedgeReset, hreset]

/-- A word enters the FIFO when one is returned, the reader is in state 0 and there is room. -/
theorem pushes_eq (hreset : i.iResetN = true) :
    pushes i s =
      (!FIFO.ffAlmostfull s.fi && s.rm.state == 0 && i.iRMReaddatavalid) := by
  simp only [pushes, FIFO.fifoWr, fiInputs, ReadMaster.oFFWriterequest, rmInputs,
    fifo_eq hreset, hreset]
  cases FIFO.ffAlmostfull s.fi <;> simp

/-- A word leaves the FIFO when there is one and the writer is in state 0. -/
theorem pops_eq (hreset : i.iResetN = true) :
    pops i s = (!FIFO.ffEmpty s.fi && s.wm.state == 0) := by
  simp only [pops, FIFO.fifoRd, fiInputs, WriteMaster.oFFReadrequest, wmInputs,
    fifo_eq hreset, hreset]
  cases FIFO.ffEmpty s.fi <;> simp

/-- The word that enters the FIFO is the one the read slave returns. -/
theorem pushed_word (hvalid : i.iRMReaddatavalid = true) :
    ReadMaster.oFFData (rmInputs i s) s.rm = i.iRMReaddata := by
  simp [ReadMaster.oFFData, rmInputs, hvalid]

theorem valid_of_pushes (hreset : i.iResetN = true) (h : pushes i s = true) :
    i.iRMReaddatavalid = true := by
  rw [pushes_eq hreset, Bool.and_eq_true] at h
  exact h.2

/-- The word that leaves the FIFO is its oldest. -/
theorem words_of_pops (hreset : i.iResetN = true) (h : pops i s = true) :
    FIFO.words s.fi = FIFO.ffQ s.fi :: (FIFO.words s.fi).tail := by
  rw [pops_eq hreset, Bool.and_eq_true] at h
  exact FIFO.words_eq_cons (by simpa using h.1)

/-- The FIFO after a cycle: the oldest word is gone if one was popped, and the word returned has
joined if it was pushed. -/
theorem words_step (hreset : i.iResetN = true) (hbound : FIFO.Bounded s.fi) :
    FIFO.words (step i s).fi =
      (if pops i s then (FIFO.words s.fi).tail else FIFO.words s.fi) ++
        if pushes i s then [i.iRMReaddata] else [] := by
  have hfifo : FIFO.Bounded (fifo i s) := by rwa [fifo_eq hreset]
  have hwr : FIFO.words (FIFO.writeBlock (fiInputs i s) (fifo i s)) =
      FIFO.words s.fi ++ if pushes i s then [i.iRMReaddata] else [] := by
    rw [FIFO.words_writeBlock hreset hfifo, fifo_eq hreset]
    cases hpush : pushes i s with
    | false => simpa [pushes, fifo_eq hreset] using hpush
    | true =>
        have hdata : (fiInputs i s).ffData = i.iRMReaddata :=
          pushed_word (valid_of_pushes hreset hpush)
        have hwr : FIFO.fifoWr (fiInputs i s) s.fi = true := by
          simpa [pushes, fifo_eq hreset] using hpush
        rw [hwr, hdata]
  have hstep : FIFO.words (step i s).fi = _ := FIFO.words_readBlock hreset hfifo
  rw [hstep, hwr]
  show (if pops i s then _ else _) = _
  cases hpop : pops i s with
  | false => simp
  | true =>
      rw [words_of_pops hreset hpop]
      simp

theorem bounded_step (hreset : i.iResetN = true) (hbound : FIFO.Bounded s.fi) :
    FIFO.Bounded (step i s).fi :=
  FIFO.bounded_step hreset (by rwa [fifo_eq hreset])

end

end CE213Lab.DMA.DMAFinal
