import CE213Lab.System.SlavePort

/-!
# The port of an on-chip memory

A slave port with a read latency of one and no wait request, and the on-chip memory behind it. The
RAM primitive inside the memory is a parameter.
-/

namespace CE213Lab.System

open Foundation

/-! ## The RAM -/

/-- What an edge of the RAM primitive samples, its clock being enabled. -/
structure RamPort (aw : ℕ) where
  addressA : BitVec aw
  byteenaA : BitVec 4
  dataA : BitVec 32
  wrenA : Bool

/-- The bits the byte enables select. -/
def byteMask (byteen : BitVec 4) : BitVec 32 :=
  BitVec.fill 8 (byteen.getLsbD 3) ++ BitVec.fill 8 (byteen.getLsbD 2) ++
    BitVec.fill 8 (byteen.getLsbD 1) ++ BitVec.fill 8 (byteen.getLsbD 0)

/-- A word after a write of the enabled bytes. -/
def writeBytes (byteen : BitVec 4) (data old : BitVec 32) : BitVec 32 :=
  (data &&& byteMask byteen) ||| (old &&& ~~~byteMask byteen)

theorem writeBytes_all (data old : BitVec 32) : writeBytes 15 data old = data := by
  have hmask : byteMask 15 = BitVec.allOnes 32 := by
    decide
  rw [writeBytes, hmask, BitVec.and_allOnes, BitVec.not_allOnes, BitVec.and_zero, BitVec.or_zero]

/-- A single-port RAM of `numwords` words, as the vendor documents its primitive: an edge with
`wren_a` writes the enabled bytes, and one without it reads, the word being at `q_a` until the next
edge. Nothing is said about addresses past the last word, nor about `q_a` after a write. -/
structure SyncRam (aw numwords : ℕ) where
  State : Type
  edge : RamPort aw → State → State
  qA : State → BitVec 32
  word : State → BitVec aw → BitVec 32
  word_edge : ∀ p s a, a.toNat < numwords → (p.wrenA = true → p.addressA.toNat < numwords) →
    word (edge p s) a =
      if p.wrenA = true ∧ p.addressA = a then writeBytes p.byteenaA p.dataA (word s a)
      else word s a
  qA_edge : ∀ p s, p.wrenA = false → p.addressA.toNat < numwords →
    qA (edge p s) = word s p.addressA

/-- Such a RAM: its words, and the word read last. -/
def SyncRam.ofWords (aw numwords : ℕ) : SyncRam aw numwords where
  State := (BitVec aw → BitVec 32) × BitVec 32
  edge p s :=
    if p.wrenA then
      (Function.update s.1 p.addressA (writeBytes p.byteenaA p.dataA (s.1 p.addressA)), s.2)
    else (s.1, s.1 p.addressA)
  qA s := s.2
  word s := s.1
  word_edge p s a _ _ := by
    cases p.wrenA with
    | false => simp
    | true =>
        by_cases heq : p.addressA = a
        · subst heq
          simp
        · simp [heq, Function.update_of_ne (Ne.symm heq)]
  qA_edge p s hwren _ := by simp [hwren]

namespace MemoryPort

open SlavePort (Inputs localRead localWrite asks accepted avAddress)

variable {aw numwords : ℕ} {ram : SyncRam aw numwords}

/-- The translator of an on-chip memory. -/
def translator : SlavePort.Params where
  avReadlatency := 1
  useWaitrequest := false

structure State (ram : SyncRam aw numwords) where
  agent : SlavePort.State
  ram : ram.State

/-- The memory has no wait request. -/
def slave (s : State ram) : SlavePort.Slave where
  avWaitrequest := false
  avReaddata := ram.qA s.ram

def cpReady (s : State ram) : Bool :=
  SlavePort.cpReady translator (slave s) s.agent

def rpValid (s : State ram) : Bool :=
  SlavePort.rpValid s.agent

def rpData (s : State ram) : Packet :=
  SlavePort.rpData translator (slave s) s.agent

/-- `wren` is `chipselect & write`. -/
def ramPort (i : Inputs) (s : State ram) : RamPort aw where
  addressA := avAddress aw i.cpData
  byteenaA := i.cpData.byteen
  dataA := i.cpData.data
  wrenA := SlavePort.avChipselect i s.agent && SlavePort.m0Write i s.agent

def step (i : Inputs) (s : State ram) : State ram where
  agent := SlavePort.step translator i (slave s) s.agent
  ram := ram.edge (ramPort i s) s.ram

/-! ## One command at a time -/

section Holding

variable {i : Inputs} {s : State ram} {pending : Option Inputs} {memory : BitVec aw → BitVec 32}

/-- The words after a command. -/
def store (i : Inputs) (memory : BitVec aw → BitVec 32) : BitVec aw → BitVec 32 :=
  if localWrite i then
    Function.update memory (avAddress aw i.cpData)
      (writeBytes i.cpData.byteen i.cpData.data (memory (avAddress aw i.cpData)))
  else memory

/-- The port answers `pending` in this cycle, and the memory holds `memory`. -/
structure Holding (s : State ram) (pending : Option Inputs) (memory : BitVec aw → BitVec 32) :
    Prop where
  agent : SlavePort.Holding s.agent pending
  words : ∀ a, a.toNat < numwords → ram.word s.ram a = memory a
  read : ∀ p ∈ pending, localRead p = true → localWrite p = false →
    (avAddress aw p.cpData).toNat < numwords →
      ram.qA s.ram = memory (avAddress aw p.cpData)

theorem wrenA_ramPort (hready : SlavePort.rfSourceReady s.agent = true) :
    (ramPort i s).wrenA = localWrite i := by
  simp only [ramPort, SlavePort.avChipselect, SlavePort.m0Read, SlavePort.m0Write, hready,
    Bool.true_and]
  cases localRead i <;> cases localWrite i <;> rfl

namespace Holding

/-- The port takes every command at once. -/
theorem accepts_eq (h : Holding s pending memory) (i : Inputs) :
    SlavePort.accepts translator i (slave s) s.agent = asks i := by
  rw [SlavePort.accepts, h.agent.not_waiting rfl, if_neg Bool.false_ne_true]

/-- The RAM stores the command's word. -/
theorem words_step (h : Holding s pending memory)
    (hrange : localWrite i = true → (avAddress aw i.cpData).toNat < numwords)
    {a : BitVec aw} (ha : a.toNat < numwords) :
    ram.word (step i s).ram a = store i memory a := by
  have hwren : (ramPort i s).wrenA = localWrite i := wrenA_ramPort h.agent.rf_source_ready
  show ram.word (ram.edge (ramPort i s) s.ram) a = _
  rw [ram.word_edge _ _ a ha (by rw [hwren]; exact hrange), hwren, h.words a ha, store]
  cases localWrite i with
  | false => simp
  | true =>
      by_cases heq : avAddress aw i.cpData = a
      · subst heq
        simp [ramPort]
      · simp [ramPort, heq, Function.update_of_ne (Ne.symm heq)]

/-- One cycle of the port. -/
theorem step (h : Holding s pending memory)
    (hready : pending.isSome = true → i.rpReady = true)
    (hrange : localWrite i = true → (avAddress aw i.cpData).toNat < numwords) :
    Holding (MemoryPort.step i s) (asks i) (store i memory) where
  agent := by
    rw [← h.accepts_eq i]
    exact h.agent.step hready
  words a ha := h.words_step hrange ha
  read p hp hr hw ha := by
    rw [SlavePort.eq_of_mem_asks hp] at hw ha ⊢
    have hwren : (ramPort i s).wrenA = false := by
      rw [wrenA_ramPort h.agent.rf_source_ready, hw]
    show ram.qA (ram.edge (ramPort i s) s.ram) = _
    rw [ram.qA_edge _ _ hwren ha, store, hw]
    exact h.words _ ha

end Holding

/-- After its first cycle out of reset, in which it takes no command, the port holds the words of
the RAM. -/
theorem step_reset (h : SlavePort.IsReset s.agent) (hquiet : i.cpValid = false) :
    Holding (MemoryPort.step i s) none (ram.word s.ram) := by
  refine ⟨h.step (h.accepts_none rfl), fun a ha => ?_, fun _ hp => by cases hp⟩
  have hwren : (ramPort i s).wrenA = false := by
    simp [ramPort, SlavePort.m0Write, localWrite, hquiet]
  show ram.word (ram.edge (ramPort i s) s.ram) a = _
  rw [ram.word_edge _ _ a ha (by rw [hwren]; exact fun hno => absurd hno Bool.false_ne_true),
    hwren, if_neg (by simp)]

end Holding

/-! ## Over a run -/

def machine (ram : SyncRam aw numwords) : Machine Inputs (State ram) where
  step := step

section Run

variable {e : Execution (machine ram)} {t : ℕ}

/-- No command in the first cycle out of reset, every response taken when it comes, and no write
past the last word. -/
structure WellUsed (e : Execution (machine ram)) : Prop where
  reset : SlavePort.IsReset (e.state 0).agent
  quiet : (e.input 0).cpValid = false
  rpReady : ∀ t, rpValid (e.state t) = true → (e.input t).rpReady = true
  range : ∀ t, localWrite (e.input t) = true →
    (avAddress aw (e.input t).cpData).toNat < numwords

/-- The words of the memory before cycle `t`: those the RAM began with, after every write so far. -/
def contents (e : Execution (machine ram)) (t : ℕ) : BitVec aw → BitVec 32 :=
  e.history (fun i _ memory => store i memory) (ram.word (e.state 0).ram) t

theorem WellUsed.holding (h : WellUsed e) (t : ℕ) :
    Holding (e.state (t + 1)) (asks (e.input t)) (contents e (t + 1)) := by
  induction t with
  | zero =>
      have hfirst := step_reset h.reset h.quiet
      have hstore : store (e.input 0) (ram.word (e.state 0).ram) = ram.word (e.state 0).ram := by
        rw [store, localWrite, h.quiet]
        rfl
      have hasks : asks (e.input 0) = none := by
        rw [asks, SlavePort.nonpostedWriteEndofpacket, localRead, localWrite, h.quiet]
        simp
      show Holding (e.state 1) (asks (e.input 0)) (store (e.input 0) (ram.word (e.state 0).ram))
      rwa [hasks, hstore, e.state_succ]
  | succ t ih =>
      rw [e.state_succ]
      exact ih.step (fun hsome => h.rpReady _ (ih.agent.rp_valid.trans hsome)) (h.range _)

/-- What a read gets. -/
theorem WellUsed.data_succ (h : WellUsed e) (hread : localRead (e.input t) = true)
    (hwrite : localWrite (e.input t) = false)
    (hrange : (avAddress aw (e.input t).cpData).toNat < numwords) :
    (rpData (e.state (t + 1))).data = contents e t (avAddress aw (e.input t).cpData) := by
  have hasks : asks (e.input t) = some (e.input t) := by
    rw [asks, hread, Bool.true_or]
    rfl
  have hsame : contents e (t + 1) = contents e t := by
    show store (e.input t) (contents e t) = contents e t
    rw [store, hwrite]
    rfl
  have hdata : (rpData (e.state (t + 1))).data = ram.qA (e.state (t + 1)).ram := by
    rw [rpData, SlavePort.data_rpData]
    rfl
  rw [hdata, (h.holding t).read _ hasks hread hwrite hrange, hsame]

/-- The agent and the translator of the port. -/
def agentRun (e : Execution (machine ram)) : Execution (SlavePort.machine translator) where
  input t := (e.input t, slave (e.state t))
  state t := (e.state t).agent
  state_succ t := by
    rw [e.state_succ]
    rfl

theorem WellUsed.agent (h : WellUsed e) : SlavePort.WellUsed (agentRun e) where
  reset := h.reset
  quiet := h.reset.accepts_none rfl
  rpReady := h.rpReady

/-- From the second cycle on a command is never held up. The port responds in exactly the cycles
after a read or a write to be answered, to the master that sent it, and a read gets the word stored
by all the writes before it. -/
theorem answers_next_cycle (h : WellUsed e) (t : ℕ) :
    cpReady (e.state (t + 1)) = true ∧
      rpValid (e.state (t + 1)) = (asks (e.input t)).isSome ∧
      (rpValid (e.state (t + 1)) = true →
        (rpData (e.state (t + 1))).destId = (e.input t).cpData.srcId ∧
        (localRead (e.input t) = true → localWrite (e.input t) = false →
          (avAddress aw (e.input t).cpData).toNat < numwords →
            (rpData (e.state (t + 1))).data =
              contents e t (avAddress aw (e.input t).cpData))) :=
  ⟨h.agent.cp_ready_succ rfl _ t, (h.holding t).agent.rp_valid, fun hvalid =>
    ⟨h.agent.dest_id_succ hvalid _, h.data_succ⟩⟩

end Run

/-- A word of four is written and read back, over and over. -/
def rewritten : Execution (machine (SyncRam.ofWords 2 4)) :=
  drive (machine (SyncRam.ofWords 2 4))
    (fun t _ =>
      { cpValid := t != 0
        cpData := MasterAgent.routed MasterAgent.dataMaster 4
          { address := 8
            write := t % 2 == 1
            read := t % 2 == 0
            writedata := BitVec.ofNat 32 t
            byteenable := 15
            debugaccess := false }
        cpStartofpacket := true
        cpEndofpacket := true
        rpReady := true })
    (fun _ _ env => env)
    { agent := SlavePort.afterReset
      ram := (fun _ => 0, 0) } ()

theorem rewritten_answers :
    cpReady (rewritten.state 3) = true ∧
      rpValid (rewritten.state 3) = (asks (rewritten.input 2)).isSome ∧
      (rpValid (rewritten.state 3) = true →
        (rpData (rewritten.state 3)).destId = (rewritten.input 2).cpData.srcId ∧
        (localRead (rewritten.input 2) = true → localWrite (rewritten.input 2) = false →
          (avAddress 2 (rewritten.input 2).cpData).toNat < 4 →
            (rpData (rewritten.state 3)).data =
              contents rewritten 2 (avAddress 2 (rewritten.input 2).cpData))) :=
  answers_next_cycle
    ⟨SlavePort.isReset_afterReset, rfl, fun _ _ => rfl, fun _ _ => BitVec.isLt _⟩ 2

end MemoryPort

end CE213Lab.System
