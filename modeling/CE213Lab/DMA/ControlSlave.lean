import CE213Lab.DMA.WriteMaster

/-!
# The control slave

`control_slave.v`: the CPU's registers and the handshake that turns the GO bit into one start
pulse and the write master's done signal into one cycle of the DONE status. The handshake refines
the five phases of `Phase`, which only ever move forward: `enable` is set by the first transfer
and no branch but the reset clears it.
-/

namespace CE213Lab.DMA.ControlSlave

structure State where
  oRMStartaddress : Word
  oWMStartaddress : Word
  oLength : Word
  control : Word
  status : Word
  state : BitVec 2
  enable : Bool
  oStart : Bool
  oReaddata : Word

structure Inputs where
  iResetN : Bool
  iChipselectN : Bool
  iWrite : Bool
  iRead : Bool
  iMWDone : Bool
  iAddress : BitVec 3
  iWritedata : Word

/-! ## Named bits: `{GO, WORD, HW, BYTE} = control[3:0]` and `{BUSY, DONE} = status[1:0]` -/

def go (s : State) : Bool :=
  s.control[3]

def busy (s : State) : Bool :=
  s.status[1]

def done (s : State) : Bool :=
  s.status[0]

/-! ## Clock edge -/

/-- The `always` block of the CPU's registers. -/
def registerBlock (i : Inputs) (s : State) : State :=
  if !i.iResetN then
    { s with
      oRMStartaddress := 0
      oWMStartaddress := 0
      oLength := 0
      control := 0
      oReaddata := 0 }
  else if done s then { s with control := 0 }
  else if !i.iChipselectN then
    if i.iWrite && !busy s then
      match i.iAddress with
      | 0 => { s with oRMStartaddress := i.iWritedata }
      | 1 => { s with oWMStartaddress := i.iWritedata }
      | 2 => { s with oLength := i.iWritedata }
      | 3 => { s with control := i.iWritedata }
      | _ => s
    else if i.iRead then
      match i.iAddress with
      | 7 => { s with oReaddata := s.status }
      | _ => s
    else s
  else s

/-- The `always` block of the handshake. -/
def stateBlock (i : Inputs) (s : State) : State :=
  if !i.iResetN then { s with status := 0, oStart := false, state := 0, enable := false }
  else
    match s.state with
    | 0 => if go s && !s.enable then { s with status := 2, oStart := true, state := 1 } else s
    | 1 =>
        let s := { s with oStart := false, enable := true }
        if i.iMWDone then { s with status := 1, state := 2 } else s
    | 2 => { s with status := 0, state := 0 }
    | _ => s

/-- Both blocks read the registers before the edge; each assigns registers of its own. -/
def step (i : Inputs) (s : State) : State :=
  { registerBlock i s with
    status := (stateBlock i s).status
    state := (stateBlock i s).state
    enable := (stateBlock i s).enable
    oStart := (stateBlock i s).oStart }

/-- A reset edge clears every register. -/
theorem step_reset {i : Inputs} (hreset : i.iResetN = false) (s : State) :
    step i s = ⟨0, 0, 0, 0, 0, 0, false, false, 0⟩ := by
  simp [step, registerBlock, stateBlock, hreset]

/-! ## The handshake's phases -/

/-- The life of the handshake after a reset: waiting for GO, the start pulse, the transfer, the
cycle that reports DONE, and idle with `enable` set. -/
inductive Phase where
  | ready
  | starting
  | busy
  | done
  | spent
  deriving DecidableEq, Repr

namespace Phase

def next (go mwDone : Bool) : Phase → Phase
  | ready => if go then starting else ready
  | starting | busy => if mwDone then done else busy
  | done | spent => spent

def state : Phase → BitVec 2
  | ready | spent => 0
  | starting | busy => 1
  | done => 2

def status : Phase → Word
  | ready | spent => 0
  | starting | busy => 2
  | done => 1

def enable : Phase → Bool
  | ready | starting => false
  | busy | done | spent => true

def oStart : Phase → Bool
  | starting => true
  | _ => false

/-- The position of a phase in the life of the handshake. -/
def rank : Phase → ℕ
  | ready => 0
  | starting => 1
  | busy => 2
  | done => 3
  | spent => 4

/-- No edge moves the handshake backwards. -/
theorem rank_next (go mwDone : Bool) (p : Phase) : p.rank ≤ (p.next go mwDone).rank := by
  cases p <;> cases go <;> cases mwDone <;> decide

/-- The start pulse and the DONE report last one cycle. -/
theorem rank_next_lt {p : Phase} (h : p = starting ∨ p = done) (go mwDone : Bool) :
    p.rank < (p.next go mwDone).rank := by
  rcases h with rfl | rfl <;> cases go <;> cases mwDone <;> decide

/-- Only the busy phase can be skipped: an edge that reaches or passes the rank of another phase
enters that phase. -/
theorem next_eq_of_rank {p q : Phase} {go mwDone : Bool} (hp : p ≠ busy) (hbefore : q.rank < p.rank)
    (hafter : p.rank ≤ (q.next go mwDone).rank) : q.next go mwDone = p := by
  cases p <;> cases q <;> cases go <;> cases mwDone <;> simp [next, rank] at hp hbefore hafter ⊢

/-- DONE is reported only after `oWM_done`. -/
theorem mw_done_of_next_done {p : Phase} {go mwDone : Bool} (h : p.next go mwDone = done) :
    mwDone = true := by
  cases p <;> cases go <;> cases mwDone <;> simp [next] at h ⊢

end Phase

/-- The handshake registers are those of the phase. -/
structure InPhase (p : Phase) (s : State) : Prop where
  state : s.state = p.state
  status : s.status = p.status
  enable : s.enable = p.enable
  oStart : s.oStart = p.oStart

/-- The handshake refines its phases: an edge outside reset takes a phase to its successor. -/
theorem InPhase.step {p : Phase} {i : Inputs} {s : State} (h : InPhase p s)
    (hreset : i.iResetN = true) : InPhase (p.next (go s) i.iMWDone) (step i s) := by
  obtain ⟨hstate, hstatus, henable, hstart⟩ := h
  cases p with
  | ready =>
      cases hgo : go s <;> constructor <;>
        simp [ControlSlave.step, stateBlock, hreset, hstate, hstatus, henable, hstart, hgo,
          Phase.state, Phase.next, Phase.status, Phase.enable, Phase.oStart]
  | starting | busy =>
      cases hdone : i.iMWDone <;> constructor <;>
        simp [ControlSlave.step, stateBlock, hreset, hstate, hstatus, hdone,
          Phase.state, Phase.next, Phase.status, Phase.enable, Phase.oStart]
  | done =>
      constructor <;>
        simp [ControlSlave.step, stateBlock, hreset, hstate, henable, hstart,
          Phase.state, Phase.next, Phase.status, Phase.enable, Phase.oStart]
  | spent =>
      constructor <;>
        simp [ControlSlave.step, stateBlock, hreset, hstate, hstatus, henable, hstart,
          Phase.state, Phase.next, Phase.status, Phase.enable, Phase.oStart]

/-! ## What an access does to the CPU's registers -/

/-- The write of the register addressed. Addresses from 4 on have none. -/
def written (i : Inputs) (s : State) : State :=
  match i.iAddress with
  | 0 => { s with oRMStartaddress := i.iWritedata }
  | 1 => { s with oWMStartaddress := i.iWritedata }
  | 2 => { s with oLength := i.iWritedata }
  | 3 => { s with control := i.iWritedata }
  | _ => s

/-- A write is performed. -/
def writes (i : Inputs) (s : State) : Bool :=
  !i.iChipselectN && i.iWrite && !busy s && !done s

/-- A read of the status is performed. -/
def readsStatus (i : Inputs) (s : State) : Bool :=
  !i.iChipselectN && !(i.iWrite && !busy s) && i.iRead && i.iAddress == 7 && !done s

/-- The registers an edge outside reset leads to. DONE comes before any access. -/
inductive Access (i : Inputs) (s : State) : State → Prop where
  | clear : done s = true → Access i s { s with control := 0 }
  | write : writes i s = true → Access i s (written i s)
  | read : readsStatus i s = true → Access i s { s with oReaddata := s.status }
  | keep : done s = false → writes i s = false → readsStatus i s = false → Access i s s

/-- A write keeps a read in the same cycle from being performed. -/
theorem not_writes_of_reads {i : Inputs} {s : State} (h : readsStatus i s = true) :
    writes i s = false := by
  simp only [readsStatus, Bool.and_eq_true, Bool.not_eq_true'] at h
  simp [writes, h]

theorem registerBlock_access {i : Inputs} {s : State} (hreset : i.iResetN = true) :
    Access i s (registerBlock i s) := by
  unfold registerBlock
  simp only [hreset, Bool.not_true, Bool.false_eq_true, if_false]
  cases hdone : done s with
  | true => exact Access.clear hdone
  | false =>
      cases hselect : i.iChipselectN with
      | true => exact Access.keep hdone (by simp [writes, hselect]) (by simp [readsStatus, hselect])
      | false =>
          cases hwrite : i.iWrite && !busy s with
          | true => exact Access.write (by simpa [writes, hselect, hdone] using hwrite)
          | false =>
              have hnone : writes i s = false := by simpa [writes, hselect, hdone] using hwrite
              cases hread : i.iRead with
              | false => exact Access.keep hdone hnone (by simp [readsStatus, hread])
              | true =>
                  by_cases haddress : i.iAddress = 7#3
                  · have hstatus : readsStatus i s = true := by
                      simp [readsStatus, hselect, hdone, hread, haddress, hwrite]
                    simpa [haddress] using Access.read hstatus
                  · have hstatus : readsStatus i s = false := by
                      simp [readsStatus, haddress]
                    simpa [haddress] using Access.keep hdone hnone hstatus

/-- While BUSY is set no access changes the parameter registers. -/
theorem parameters_of_busy {i : Inputs} {s : State} (hreset : i.iResetN = true)
    (h : busy s = true) :
    (step i s).oRMStartaddress = s.oRMStartaddress ∧
      (step i s).oWMStartaddress = s.oWMStartaddress ∧ (step i s).oLength = s.oLength := by
  have haccess := registerBlock_access (s := s) hreset
  show (registerBlock i s).oRMStartaddress = _ ∧ (registerBlock i s).oWMStartaddress = _ ∧
    (registerBlock i s).oLength = _
  generalize registerBlock i s = next at haccess ⊢
  cases haccess with
  | clear | read | keep => exact ⟨rfl, rfl, rfl⟩
  | write hwrite => simp [writes, h] at hwrite

end CE213Lab.DMA.ControlSlave
