import CE213Lab.DMA.Hold
import CE213Lab.DMA.SharedSlaves
import CE213Lab.System.MemoryPath

/-!
# The engine in its system

`System.v` as the DMA sees it: the engine, its read master on the path to the memory of 10000 words
and its write master on the path to the memory of 1024 words. The CPU is left open: it drives the
control port and sends either memory what it likes, short of writing past the last word of the
first.
-/

namespace CE213Lab.System.DMASystem

open Foundation DMA MasterAgent
open SlavePath (Command)

variable {ram0 : SyncRam 14 10000} {ram1 : SyncRam 10 1024}

/-- The read master has id 0 and the first memory id 3. -/
def readPath : MemoryPath.Ids where
  own := ⟨0, 7⟩
  destid := 3
  own_ne_data := by decide
  own_ne_instruction := by decide

/-- The write master has id 1 and the second memory id 4. -/
def writePath : MemoryPath.Ids where
  own := ⟨1, 7⟩
  destid := 4
  own_ne_data := by decide
  own_ne_instruction := by decide

structure State (ram0 : SyncRam 14 10000) (ram1 : SyncRam 10 1024) where
  dma : DMAFinal.State
  memory0 : MemoryPath.State ram0
  memory1 : MemoryPath.State ram1

/-- What the CPU drives. -/
structure Inputs where
  iChipselectN : Bool
  iRead : Bool
  iWrite : Bool
  iAddress : BitVec 3
  iWritedata : Word
  instruction0 : Command
  data0 : Command
  instruction1 : Command
  data1 : Command

/-! ## Wires -/

def dmaRead (s : DMAFinal.State) : Master where
  address := s.rm.oRMReadaddress
  write := false
  read := s.rm.oRMRead
  writedata := 0
  byteenable := 15
  debugaccess := false

def dmaWrite (s : DMAFinal.State) : Master where
  address := s.wm.oWMWriteaddress
  write := s.wm.oWMWrite
  read := false
  writedata := s.wm.oWMWritedata
  byteenable := 15
  debugaccess := false

def memory0Inputs (i : Inputs) (s : State ram0 ram1) : MemoryPath.Inputs :=
  ⟨i.instruction0, i.data0, dmaRead s.dma⟩

def memory1Inputs (i : Inputs) (s : State ram0 ram1) : MemoryPath.Inputs :=
  ⟨i.instruction1, i.data1, dmaWrite s.dma⟩

def dmaInputs (i : Inputs) (s : State ram0 ram1) : DMAFinal.Inputs where
  iResetN := true
  iChipselectN := i.iChipselectN
  iRead := i.iRead
  iWrite := i.iWrite
  iAddress := i.iAddress
  iWritedata := i.iWritedata
  iRMReaddatavalid := MemoryPath.avReaddatavalid readPath s.memory0
  iRMWaitrequest := MemoryPath.avWaitrequest readPath (memory0Inputs i s) s.memory0
  iRMReaddata := MemoryPath.avReaddata s.memory0
  iWMWaitrequest := MemoryPath.avWaitrequest writePath (memory1Inputs i s) s.memory1

/-! ## Clock edge -/

def step (i : Inputs) (s : State ram0 ram1) : State ram0 ram1 where
  dma := DMAFinal.step (dmaInputs i s) s.dma
  memory0 := MemoryPath.step readPath (memory0Inputs i s) s.memory0
  memory1 := MemoryPath.step writePath (memory1Inputs i s) s.memory1

def machine (ram0 : SyncRam 14 10000) (ram1 : SyncRam 10 1024) :
    Machine Inputs (State ram0 ram1) where
  step := step

/-- A run of the system from reset. -/
structure Run (ram0 : SyncRam 14 10000) (ram1 : SyncRam 10 1024) extends
    Execution (machine ram0 ram1) where
  reset : ∃ i s, i.iResetN = false ∧ (state 0).dma = DMAFinal.step i s
  reset0 : MemoryPath.IsReset (state 0).memory0
  reset1 : MemoryPath.IsReset (state 0).memory1
  range : ∀ t c, c = (input t).instruction0 ∨ c = (input t).data0 → c.valid = true →
    c.av.write = true → (MemoryPath.wordAddress 14 c.av.address).toNat < 10000

namespace Run

variable (r : Run ram0 ram1)

/-- The engine in the run. -/
def dma : DMA.Run where
  input t := dmaInputs (r.input t) (r.state t)
  state t := (r.state t).dma
  state_succ t := by
    rw [r.state_succ]
    rfl
  reset := r.reset
  iResetN _ := rfl

/-- The path to the first memory. -/
def memory0 : MemoryPath.Run readPath ram0 where
  input t := memory0Inputs (r.input t) (r.state t)
  state t := (r.state t).memory0
  state_succ t := by
    rw [r.state_succ]
    rfl
  reset := r.reset0
  range t k hvalid hwrite := by
    match k with
    | 0 => exact r.range t _ (.inl rfl) hvalid hwrite
    | 1 => exact r.range t _ (.inr rfl) hvalid hwrite
    | 2 => exact absurd hwrite Bool.false_ne_true

/-- The path to the second memory. -/
def memory1 : MemoryPath.Run writePath ram1 where
  input t := memory1Inputs (r.input t) (r.state t)
  state t := (r.state t).memory1
  state_succ t := by
    rw [r.state_succ]
    rfl
  reset := r.reset1
  range _ _ _ _ := BitVec.isLt _

/-- The words of the first memory. -/
def word0 (t : ℕ) : BitVec 14 → Word :=
  ram0.word (r.state t).memory0.port.ram

/-- The words of the second memory. -/
def word1 (t : ℕ) : BitVec 10 → Word :=
  ram1.word (r.state t).memory1.port.ram

variable {r} {t : ℕ}

theorem word0_eq {a : BitVec 14} (ha : a.toNat < 10000) :
    r.word0 t a = r.memory0.contents t a :=
  MemoryPath.Run.word_eq (r := r.memory0) (by decide) ha t

theorem word1_eq : r.word1 t = r.memory1.contents t :=
  funext fun a => MemoryPath.Run.word_eq (r := r.memory1) (by decide) a.isLt t

/-! ## The two slaves of the engine -/

theorem reads_offered (t : ℕ) :
    cpValid (r.memory0.input t).dma = (r.dma.state t).rm.oRMRead := by
  show (false || _) = _
  rw [Bool.false_or]
  rfl

theorem writes_offered (t : ℕ) :
    cpValid (r.memory1.input t).dma = (r.dma.state t).wm.oWMWrite := by
  show (_ || false) = _
  rw [Bool.or_false]
  rfl

/-- Every read is answered in the cycle after it is accepted. -/
theorem fixed_latency : r.dma.FixedLatency := by
  refine ⟨MemoryPath.Run.readdatavalid_zero (r := r.memory0), fun t => ?_⟩
  show MemoryPath.avReaddatavalid readPath (r.memory0.state (t + 1)) = _
  rw [MemoryPath.Run.readdatavalid_succ]
  show (_ && !false && _) = _
  rw [Bool.not_false, Bool.and_true]
  rfl

theorem holds_write : r.dma.HoldsWrite := by
  intro t hwrite hwait
  rcases r.dma.idle_or_transfer t with hnone | ⟨x, heq, hlt⟩
  · simp [(fixed_latency.conformant.writer_idle hnone).write] at hwrite
  · have hx : x.Conformant := by
      show x.toRun.Conformant
      rw [heq]
      exact fixed_latency.conformant
    rw [← heq] at hwrite hwait ⊢
    exact Transfer.holds_write hx hlt hwrite hwait

theorem reads_within : r.dma.ReadsWithin 3 := by
  intro t hread
  obtain ⟨u, hle, hbound, hvalid, hwait⟩ := MemoryPath.Run.served_within (r := r.memory0) (t := t)
    (fun u hvalid hwait => by
      rw [reads_offered] at hvalid ⊢
      exact (DMA.Run.holds_read u hvalid hwait).1)
    (by rwa [reads_offered])
  exact ⟨u, hle, hbound, by rwa [reads_offered] at hvalid, hwait⟩

theorem writes_within : r.dma.WritesWithin 3 := by
  intro t hwrite
  obtain ⟨u, hle, hbound, hvalid, hwait⟩ := MemoryPath.Run.served_within (r := r.memory1) (t := t)
    (fun u hvalid hwait => by
      rw [writes_offered] at hvalid ⊢
      exact (holds_write u hvalid hwait).1)
    (by rwa [writes_offered])
  exact ⟨u, hle, hbound, by rwa [writes_offered] at hvalid, hwait⟩

/-- Each read waits in the cycle it is first presented. -/
theorem reads_stalled_at_first : r.dma.ReadsStalledAtFirst := by
  intro t hbefore hread
  refine MemoryPath.Run.waits_at_once (r := r.memory0) ?_ ?_ <;>
    rwa [reads_offered]

/-- Each write waits in the cycle it is first presented. -/
theorem writes_stalled_at_first : r.dma.WritesStalledAtFirst := by
  intro t hbefore hwrite
  refine MemoryPath.Run.waits_at_once (r := r.memory1) ?_ ?_ <;>
    rwa [writes_offered]

/-- An accepted read gets what the first memory holds. -/
theorem readdata_succ (haccept : DMAFinal.acceptsRead (r.dma.input t) (r.dma.state t) = true)
    (hrange : (MemoryPath.wordAddress 14 (r.dma.state t).rm.oRMReadaddress).toNat < 10000) :
    (r.dma.input (t + 1)).iRMReaddata =
      r.memory0.contents t (MemoryPath.wordAddress 14 (r.dma.state t).rm.oRMReadaddress) := by
  obtain ⟨hread, hwait⟩ := Bool.and_eq_true_iff.mp haccept
  exact MemoryPath.Run.readdata_succ (r := r.memory0) (by decide) hread rfl
    ((Bool.not_eq_true' _).mp hwait) hrange

/-- The DMA writes nothing to the first memory. -/
theorem contents0_succ {a : BitVec 14} (hcpu : ¬ r.memory0.CpuWrites t a) :
    r.memory0.contents (t + 1) a = r.memory0.contents t a :=
  MemoryPath.Run.contents_succ_of_not_taken (by decide) hcpu fun h =>
    absurd h.1 Bool.false_ne_true

/-- An accepted write stores its word in the second memory. -/
theorem contents1_succ_of_accepts
    (haccept : DMAFinal.acceptsWrite (r.dma.input t) (r.dma.state t) = true) :
    r.memory1.contents (t + 1) = Function.update (r.memory1.contents t)
      (MemoryPath.wordAddress 10 (r.dma.state t).wm.oWMWriteaddress)
      (r.dma.state t).wm.oWMWritedata := by
  obtain ⟨hwrite, hwait⟩ := Bool.and_eq_true_iff.mp haccept
  exact MemoryPath.Run.contents_succ_of_taken (by decide) rfl hwrite
    ((Bool.not_eq_true' _).mp hwait)

/-- Without one, a word the CPU does not write is kept. -/
theorem contents1_succ_of_not_accepts {a : BitVec 10} (hcpu : ¬ r.memory1.CpuWrites t a)
    (hnot : DMAFinal.acceptsWrite (r.dma.input t) (r.dma.state t) = false) :
    r.memory1.contents (t + 1) a = r.memory1.contents t a := by
  refine MemoryPath.Run.contents_succ_of_not_taken (by decide) hcpu fun ⟨hwrite, hwait⟩ => ?_
  have hwait : (r.dma.input t).iWMWaitrequest = false := hwait
  have hwrite : (r.dma.state t).wm.oWMWrite = true := hwrite
  rw [DMAFinal.acceptsWrite, hwrite, hwait] at hnot
  cases hnot

/-- The system keeps what the engine is promised by its slaves, whatever the CPU does: every command
is stalled in its first cycle and accepted within three more, a read is answered in the cycle after
it is accepted and at no other time, with the word its memory holds. -/
theorem meets_assumptions (r : Run ram0 ram1) :
    r.dma.ReadsStalledAtFirst ∧ r.dma.ReadsWithin 3 ∧
      r.dma.WritesStalledAtFirst ∧ r.dma.WritesWithin 3 ∧ r.dma.FixedLatency ∧
      ∀ t, DMAFinal.acceptsRead (r.dma.input t) (r.dma.state t) = true →
        (MemoryPath.wordAddress 14 (r.dma.state t).rm.oRMReadaddress).toNat < 10000 →
          (r.dma.input (t + 1)).iRMReaddata =
            r.word0 t (MemoryPath.wordAddress 14 (r.dma.state t).rm.oRMReadaddress) := by
  refine ⟨reads_stalled_at_first, reads_within, writes_stalled_at_first, writes_within,
    fixed_latency, fun t haccept hrange => ?_⟩
  rw [word0_eq hrange]
  exact readdata_succ haccept hrange

end Run

/-! ## Word addresses -/

/-- Strides of four bytes are strides of one word. -/
theorem word_address_strideAt {aw : ℕ} (haw : aw ≤ 30) (W : Word) (n : ℕ) :
    MemoryPath.wordAddress aw (strideAt W 4 n) =
      strideAt (MemoryPath.wordAddress aw W) 1 n := by
  have hdvd : 2 ^ aw ∣ 2 ^ 30 := pow_dvd_pow 2 haw
  have hword : ∀ a : ℕ, a % 2 ^ 32 / 4 % 2 ^ aw = a / 4 % 2 ^ aw := by
    intro a
    rw [show 2 ^ 32 = 4 * 2 ^ 30 by decide, Nat.mod_mul_right_div_self, Nat.mod_mod_of_dvd _ hdvd]
  refine BitVec.eq_of_toNat_eq ?_
  simp only [MemoryPath.wordAddress, getField, strideAt, BitVec.extractLsb'_toNat,
    BitVec.toNat_add, BitVec.toNat_ofNat, Nat.shiftRight_eq_div_pow, Nat.add_mod_mod, hword,
    Nat.one_mul, Nat.mod_add_mod]
  rw [Nat.add_mul_div_left _ _ (by decide)]

/-- The writes of the DMA as the second memory sees them. -/
def placed (writes : List (Word × Word)) : List (BitVec 10 × Word) :=
  writes.map (Prod.map (MemoryPath.wordAddress 10) id)

/-- A run of the system with the cycle of the start pulse. -/
structure Transfer (ram0 : SyncRam 14 10000) (ram1 : SyncRam 10 1024) extends Run ram0 ram1 where
  start : ℕ
  oStart : (state start).dma.control.oStart = true

namespace Transfer

variable (x : Transfer ram0 ram1)

/-- The transfer of the engine. -/
def engine : DMA.Transfer where
  toRun := x.toRun.dma
  start := x.start
  oStart := x.oStart

/-- The `n`-th word of the region to be read. -/
def source (n : ℕ) : BitVec 14 :=
  MemoryPath.wordAddress 14 (strideAt x.engine.readStart 4 n)

/-- The `n`-th word of the region to be written. -/
def destination (n : ℕ) : BitVec 10 :=
  MemoryPath.wordAddress 10 (strideAt x.engine.writeStart 4 n)

/-- From the start pulse on the CPU writes none of the `N` words of either region. -/
structure Undisturbed (N : ℕ) : Prop where
  source : ∀ t n, x.start ≤ t → n < N → ¬ x.memory0.CpuWrites t (x.source n)
  destination : ∀ t n, x.start ≤ t → n < N → ¬ x.memory1.CpuWrites t (x.destination n)

/-! ## A contended copy -/

/-- A master of the CPU that reads word 0 in every cycle. -/
def fetching : Command where
  valid := true
  av :=
    { address := 0
      write := false
      read := true
      writedata := 0
      byteenable := 15
      debugaccess := false }

/-- The path to a memory whose words hold their own addresses, just reset. -/
def resetPath (aw numwords : ℕ) : MemoryPath.State (SyncRam.ofWords aw numwords) where
  holdWaitrequest := true
  mux := CmdXbarMux.reset
  port :=
    { agent := SlavePort.afterReset
      ram := (fun a => a.setWidth 32, 0) }

/-- What the CPU does: it programs a copy of four words and fetches from both memories all the
time. -/
def contendedCpu (t : ℕ) : Inputs :=
  let access := Bench.program 0x100 0x40 16 (fun _ => Bench.idle) t
  { iChipselectN := access.iChipselectN
    iRead := access.iRead
    iWrite := access.iWrite
    iAddress := access.iAddress
    iWritedata := access.iWritedata
    instruction0 := fetching
    data0 := fetching
    instruction1 := fetching
    data1 := fetching }

def contendedRun : Run (SyncRam.ofWords 14 10000) (SyncRam.ofWords 10 1024) where
  toExecution := drive (machine _ _) (fun t _ => contendedCpu t) (fun _ _ env => env)
    ⟨Bench.afterReset, resetPath 14 10000, resetPath 10 1024⟩ ()
  reset := ⟨{ Bench.idle with iResetN := false }, Bench.powerUp, rfl, rfl⟩
  reset0 := ⟨rfl, rfl, SlavePort.isReset_afterReset⟩
  reset1 := ⟨rfl, rfl, SlavePort.isReset_afterReset⟩
  range := by
    rintro t c (rfl | rfl) _ hwrite <;> exact absurd hwrite Bool.false_ne_true

theorem contended_control : (contendedRun.state 5).dma.control =
    ⟨0x100, 0x40, 16, 8, 2, 1, false, true, 0⟩ :=
  Bench.control_program (r := contendedRun.dma) rfl (fun _ => ⟨rfl, rfl, rfl, rfl⟩) rfl

def contendedCopy : Transfer (SyncRam.ofWords 14 10000) (SyncRam.ofWords 10 1024) where
  toRun := contendedRun
  start := 5
  oStart := by rw [contended_control]

theorem contended_length : contendedCopy.engine.length.toNat = 4 * 4 := by
  show (contendedRun.state 5).dma.control.oLength.toNat = 4 * 4
  rw [contended_control]
  rfl

theorem contended_source : ∀ n < 4, (contendedCopy.source n).toNat < 10000 := by
  have hstart : contendedCopy.engine.readStart = 0x100 := by
    show (contendedRun.state 5).dma.control.oRMStartaddress = 0x100
    rw [contended_control]
  have hsource : ∀ n, contendedCopy.source n = MemoryPath.wordAddress 14 (strideAt 0x100 4 n) :=
    fun n => by rw [source, hstart]
  simp only [hsource]
  decide

theorem contended_undisturbed : contendedCopy.Undisturbed 4 where
  source := by
    rintro t n _ _ ⟨k, hk, _, hwrite, _⟩
    match k with
    | 0 | 1 => exact absurd hwrite Bool.false_ne_true
    | 2 => exact hk rfl
  destination := by
    rintro t n _ _ ⟨k, hk, _, hwrite, _⟩
    match k with
    | 0 | 1 => exact absurd hwrite Bool.false_ne_true
    | 2 => exact hk rfl

/-! ## What the system provides -/

variable {x} {t N : ℕ}

theorem latency : x.engine.FixedLatency :=
  Run.fixed_latency (r := x.toRun)

theorem lossless (hlength : x.engine.length.toNat = 4 * N) (hshort : N ≤ 639) :
    x.engine.Lossless :=
  DMA.Transfer.lossless_of_shared latency (Run.reads_stalled_at_first (r := x.toRun))
    (Run.writes_within (r := x.toRun)) ⟨N, hlength⟩ (by omega)

/-! ## What is read -/

theorem contents0_eq {a : BitVec 14} (hcpu : ∀ u, x.start ≤ u → ¬ x.memory0.CpuWrites u a)
    (hle : x.start ≤ t) : x.memory0.contents t a = x.memory0.contents x.start a := by
  induction t, hle using Nat.le_induction with
  | base => rfl
  | succ t hle ih => rw [Run.contents0_succ (hcpu t hle), ih]

/-- The words returned are those the region held at the start pulse. -/
theorem returned_succ (hlength : x.engine.length.toNat = 4 * N)
    (hrange : ∀ n < N, (x.source n).toNat < 10000)
    (hcpu : ∀ t n, x.start ≤ t → n < N → ¬ x.memory0.CpuWrites t (x.source n))
    (hle : x.start ≤ t) :
    (x.engine.ledger (t + 1)).returned = (x.engine.ledger t).reads.map fun a =>
      x.memory0.contents x.start (MemoryPath.wordAddress 14 a) := by
  induction t, hle using Nat.le_induction with
  | base =>
      have hnone : (x.engine.ledger x.start).reads = [] := (DMA.Transfer.reader_idle le_rfl).reads
      have hcount := latency.returned_succ (r := x.engine.toRun) x.start
      rw [hnone, List.length_nil] at hcount
      rw [hnone, List.map_nil, List.length_eq_zero_iff.mp hcount]
  | succ t hle ih =>
      have hvalid : (x.engine.input (t + 1)).iRMReaddatavalid =
          DMAFinal.acceptsRead (x.engine.input t) (x.engine.state t) := latency.2 t
      have hreads : (x.engine.ledger (t + 1)).reads = (x.engine.ledger t).reads ++
          if DMAFinal.acceptsRead (x.engine.input t) (x.engine.state t)
          then [(x.engine.state t).rm.oRMReadaddress] else [] := rfl
      rw [x.engine.ledger_succ]
      show (x.engine.ledger (t + 1)).returned ++ _ = _
      rw [ih, hvalid, hreads, List.map_append]
      cases haccept : DMAFinal.acceptsRead (x.engine.input t) (x.engine.state t) with
      | false => rfl
      | true =>
          obtain ⟨hlt, _, _⟩ := DMA.Transfer.reading_of_accepts haccept
          have haddress : MemoryPath.wordAddress 14 (x.engine.state t).rm.oRMReadaddress =
              x.source (x.engine.ledger t).reads.length :=
            congrArg _ (DMA.Transfer.walking hlt).address
          have hbound := DMA.Transfer.reads_bound (x := x.engine) (t := t + 1) ⟨N, hlength⟩
          rw [hreads, haccept, if_pos rfl, List.length_append, List.length_singleton] at hbound
          have hread : (x.engine.ledger t).reads.length < N := by omega
          have hword : (x.engine.input (t + 1)).iRMReaddata = x.memory0.contents t
              (MemoryPath.wordAddress 14 (x.engine.state t).rm.oRMReadaddress) :=
            Run.readdata_succ (r := x.toRun) haccept (by
              rw [show MemoryPath.wordAddress 14 (x.toRun.dma.state t).rm.oRMReadaddress = _
                from haddress]
              exact hrange _ hread)
          rw [hword, haddress, contents0_eq (fun u hu => hcpu u _ hu hread) hle, ← haddress]
          rfl

/-! ## What is written -/

/-- The second memory is what the accepted writes make of it, at the words the CPU does not
write. -/
theorem contents1_eq {a : BitVec 10}
    (hcpu : ∀ u, x.start ≤ u → u < t → ¬ x.memory1.CpuWrites u a) (hle : x.start ≤ t) :
    x.memory1.contents t a =
      afterWrites (x.memory1.contents x.start) (placed (x.engine.ledger t).writes) a := by
  induction t, hle using Nat.le_induction with
  | base =>
      have hnone : (x.engine.ledger x.start).writes = [] :=
        (DMA.Transfer.writer_idle latency.conformant le_rfl).writes
      rw [hnone]
      rfl
  | succ t hle ih =>
      have ih := ih fun u hu hlt => hcpu u hu (by omega)
      have hwrites : (x.engine.ledger (t + 1)).writes = (x.engine.ledger t).writes ++
          if DMAFinal.acceptsWrite (x.engine.input t) (x.engine.state t)
          then [((x.engine.state t).wm.oWMWriteaddress, (x.engine.state t).wm.oWMWritedata)]
          else [] := rfl
      rw [hwrites]
      cases haccept : DMAFinal.acceptsWrite (x.engine.input t) (x.engine.state t) with
      | false =>
          rw [Run.contents1_succ_of_not_accepts (hcpu t hle (Nat.lt_succ_self t)) haccept, ih]
          simp
      | true =>
          rw [Run.contents1_succ_of_accepts haccept, if_pos rfl, placed, List.map_append,
            List.map_singleton, after_writes_concat]
          show Function.update (x.memory1.contents t)
              (MemoryPath.wordAddress 10 (x.engine.state t).wm.oWMWriteaddress)
              (x.engine.state t).wm.oWMWritedata a =
            Function.update
              (afterWrites (x.memory1.contents x.start) (placed (x.engine.ledger t).writes))
              (MemoryPath.wordAddress 10 (x.engine.state t).wm.oWMWriteaddress)
              (x.engine.state t).wm.oWMWritedata a
          rw [Function.update_apply, Function.update_apply, ih]

theorem map_fst_placed (pushed : List Word) :
    (placed (course x.engine.writeStart pushed)).map Prod.fst =
      (List.range pushed.length).map x.destination := by
  have haddresses : (course x.engine.writeStart pushed).map Prod.fst =
      stride x.engine.writeStart 4 pushed.length := List.map_fst_zip (by simp)
  have hfst : Prod.fst ∘ Prod.map (MemoryPath.wordAddress 10) (id : Word → Word) =
      MemoryPath.wordAddress 10 ∘ Prod.fst := rfl
  rw [placed, List.map_map, hfst, ← List.map_map, haddresses, stride, List.map_map]
  rfl

/-- The words of the region are as many words of the memory. -/
theorem nodup_destination (hshort : N ≤ 1024) :
    ((List.range N).map x.destination).Nodup := by
  have hwords : x.destination =
      strideAt (MemoryPath.wordAddress 10 x.engine.writeStart) 1 :=
    funext fun n => word_address_strideAt (by decide) _ n
  rw [hwords]
  exact nodup_stride one_pos (by omega)

/-- A transfer of up to 639 words is written in the end. -/
theorem exists_written (hlength : x.engine.length.toNat = 4 * N) (hpos : 0 < N)
    (hshort : N ≤ 639) : ∃ T, x.engine.Written T :=
  DMA.Transfer.exists_written latency (lossless hlength hshort)
    (DMA.Transfer.reads_served_of_within (Run.reads_within (r := x.toRun)))
    (DMA.Transfer.writes_served_of_within (Run.writes_within (r := x.toRun))) hlength hpos

/-- From then on the second region holds the words the first held at the start pulse, and what the
CPU leaves alone besides is left alone. -/
theorem words_of_written (hlength : x.engine.length.toNat = 4 * N) (hshort : N ≤ 639)
    (hrange : ∀ n < N, (x.source n).toNat < 10000) (hcpu : x.Undisturbed N) {T t : ℕ}
    (hT : x.engine.Written T) (hle : T + 1 ≤ t) :
    (∀ n < N, x.word1 t (x.destination n) = x.word0 x.start (x.source n)) ∧
      ∀ a, (∀ n < N, a ≠ x.destination n) →
        (∀ u, x.start ≤ u → u < t → ¬ x.memory1.CpuWrites u a) →
          x.word1 t a = x.word1 x.start a := by
  have h := latency.conformant (r := x.engine.toRun)
  have hlossless := lossless hlength hshort
  obtain ⟨v, hv, hstarted, _⟩ := hT.reported
  have hstarted : x.start < v := hstarted
  obtain ⟨t, rfl⟩ : ∃ s, t = s + 1 := ⟨t - 1, by omega⟩
  obtain ⟨ht, _⟩ := DMA.Transfer.written_later h hT (show T ≤ t + 1 by omega)
  have hcount : (x.engine.ledger (t + 1)).pushed.length = N := by
    have hall := ht.pushed
    omega
  have hpushed := hlossless (t + 1)
  rw [returned_succ hlength hrange hcpu.source (by omega)] at hpushed
  have hreads : (x.engine.ledger t).reads = stride x.engine.readStart 4 N := by
    rw [hpushed, List.length_map] at hcount
    rw [← hcount]
    exact DMA.Transfer.reads_eq
  have haddresses := map_fst_placed (x := x) (x.engine.ledger (t + 1)).pushed
  rw [hcount] at haddresses
  have hnodup : ((placed (course x.engine.writeStart
      (x.engine.ledger (t + 1)).pushed)).map Prod.fst).Nodup := by
    rw [haddresses]
    exact nodup_destination (by omega)
  have hmemory : afterWrites (x.memory1.contents x.start)
        (placed (x.engine.ledger (t + 1)).writes) =
      afterWrites (x.memory1.contents x.start)
        (placed (course x.engine.writeStart (x.engine.ledger (t + 1)).pushed)) := by
    refine ((DMA.Transfer.writes_repeat_last h).map _).after_writes ?_ hnodup
    simpa using ht.writes
  refine ⟨fun n hn => ?_, fun a ha hkept => ?_⟩
  · rw [Run.word1_eq, Run.word0_eq (hrange n hn),
      contents1_eq (fun u hu _ => hcpu.destination u n hu hn) (by omega), hmemory]
    have hword : (x.engine.ledger (t + 1)).pushed[n]? =
        some (x.memory0.contents x.start (x.source n)) := by
      rw [hpushed, hreads, List.getElem?_map, stride, List.getElem?_map,
        List.getElem?_range hn]
      rfl
    have hentry : (course x.engine.writeStart (x.engine.ledger (t + 1)).pushed)[n]? =
        some (strideAt x.engine.writeStart 4 n, x.memory0.contents x.start (x.source n)) := by
      rw [getElem?_course, hword]
      rfl
    exact after_writes_of_nodup hnodup
      (List.mem_map_of_mem (f := Prod.map (MemoryPath.wordAddress 10) id)
        (List.mem_of_getElem? hentry))
  · rw [Run.word1_eq, Run.word1_eq, contents1_eq hkept (by omega), hmemory]
    refine after_writes_of_not_mem ?_
    rw [haddresses]
    simpa using fun n hn heq => ha n hn heq.symm

/-- In this system, whatever contention the CPU makes for the two memories, a transfer of up to 639
words whose regions the CPU leaves alone reports DONE once and copies the words the first region
held at the start pulse to the second, and what the CPU leaves alone besides is left alone. -/
theorem copies_memory (hlength : x.engine.length.toNat = 4 * N) (hpos : 0 < N) (hshort : N ≤ 639)
    (hrange : ∀ n < N, (x.source n).toNat < 10000) (hcpu : x.Undisturbed N) :
    (∃ T, ∀ t, ControlSlave.done (x.state t).dma.control = true ↔ t = T) ∧
      ∃ T, ∀ t, T ≤ t →
        (∀ n < N, x.word1 t (x.destination n) = x.word0 x.start (x.source n)) ∧
        ∀ a, (∀ n < N, a ≠ x.destination n) →
          (∀ u, x.start ≤ u → u < t → ¬ x.memory1.CpuWrites u a) →
            x.word1 t a = x.word1 x.start a := by
  obtain ⟨T, hT⟩ := exists_written hlength hpos hshort
  exact ⟨hT.done_once, T + 1, fun t hle => words_of_written hlength hshort hrange hcpu hT hle⟩

theorem contended_copies_memory :
    (∃ T, ∀ t, ControlSlave.done (contendedCopy.state t).dma.control = true ↔ t = T) ∧
      ∃ T, ∀ t, T ≤ t →
        (∀ n < 4, contendedCopy.word1 t (contendedCopy.destination n) =
          contendedCopy.word0 contendedCopy.start (contendedCopy.source n)) ∧
        ∀ a, (∀ n < 4, a ≠ contendedCopy.destination n) →
          (∀ u, contendedCopy.start ≤ u → u < t → ¬ contendedCopy.memory1.CpuWrites u a) →
            contendedCopy.word1 t a = contendedCopy.word1 contendedCopy.start a :=
  copies_memory contended_length (by decide) (by decide) contended_source contended_undisturbed

/-- The first word is there 19 cycles after the start pulse. -/
example : contendedRun.word1 24 0x10 = 0x40 := by decide +kernel

/-! ## After the report -/

/-- From a stalled last word on, the command on offer is that of the last word. -/
theorem last_offered {u : ℕ} (hlength : x.engine.length.toNat = 4 * N)
    (hstalled : x.engine.LastStalled u) (hlt : u < t) :
    (x.engine.state t).wm.oWMWriteaddress = strideAt x.engine.writeStart 4 (N - 1) ∧
      (x.engine.ledger t).pushed.length = N ∧
      (x.engine.ledger t).pushed[N - 1]? = some (x.engine.state t).wm.oWMWritedata := by
  have h := latency.conformant (r := x.engine.toRun)
  have hall := (DMA.Transfer.offered_after h hstalled hlt).2.2
  have hcount : (x.engine.ledger t).pushed.length = N := by
    omega
  have hlast := (DMA.Transfer.offering_after h hstalled hlt).last
  rw [List.getLast?_eq_getElem?, length_course, hcount, getElem?_course,
    Option.map_eq_some_iff] at hlast
  obtain ⟨word, hword, heq⟩ := hlast
  obtain ⟨haddress, rfl⟩ := Prod.mk.injEq .. ▸ heq
  exact ⟨haddress.symm, hcount, hword⟩

/-- In cycle `t` the command on offer writes `word` as the last of `N` words. -/
structure OffersLast (x : Transfer ram0 ram1) (N : ℕ) (word : BitVec 32) (t : ℕ) : Prop where
  write : (x.state t).dma.wm.oWMWrite = true
  address : (x.state t).dma.wm.oWMWriteaddress = strideAt x.engine.writeStart 4 (N - 1)
  word : (x.state t).dma.wm.oWMWritedata = word

/-- It stays on offer: nothing enters the FIFO any more, so it is the same word in every cycle. -/
theorem offers_last {u : ℕ} {word : BitVec 32} (hlength : x.engine.length.toNat = 4 * N)
    (hlossless : x.engine.Lossless) (hstalled : x.engine.LastStalled u)
    (hword : (x.engine.ledger (u + 1)).pushed[N - 1]? = some word) (hlt : u < t) :
    x.OffersLast N word t := by
  have h := latency.conformant (r := x.engine.toRun)
  obtain ⟨_, hcount, _⟩ := last_offered hlength hstalled (Nat.lt_succ_self u)
  obtain ⟨haddress, hcount', hword'⟩ := last_offered hlength hstalled hlt
  have hsame : (x.engine.ledger (u + 1)).pushed = (x.engine.ledger t).pushed := by
    have hmono := DMA.Run.returned_mono (r := x.engine.toRun) (show u + 1 ≤ t from hlt)
    rw [← hlossless, ← hlossless] at hmono
    exact hmono.eq_of_length (hcount.trans hcount'.symm)
  rw [hsame, hword', Option.some.injEq] at hword
  exact ⟨(DMA.Transfer.offered_after h hstalled hlt).1, haddress, hword⟩

/-- An accepted offer leaves the word in its place. -/
theorem OffersLast.word1_succ {word : BitVec 32} (h : x.OffersLast N word t)
    (hwait : (x.engine.input t).iWMWaitrequest = false) :
    x.word1 (t + 1) (x.destination (N - 1)) = word := by
  have haccept : DMAFinal.acceptsWrite (x.toRun.dma.input t) (x.toRun.dma.state t) = true := by
    rw [DMAFinal.acceptsWrite, show (x.toRun.dma.state t).wm.oWMWrite = true from h.write,
      show (x.toRun.dma.input t).iWMWaitrequest = false from hwait]
    rfl
  rw [Run.word1_eq, Run.contents1_succ_of_accepts haccept]
  show Function.update (x.memory1.contents t)
    (MemoryPath.wordAddress 10 (x.state t).dma.wm.oWMWriteaddress)
    (x.state t).dma.wm.oWMWritedata (x.destination (N - 1)) = word
  rw [h.address, h.word]
  exact Function.update_self _ _ _

/-- In this system completion is always reported one word early, and the command of the last word is
never withdrawn: within four cycles the last word of the region is the last word the DMA has read,
whatever the CPU puts in its place, again and again for ever. -/
theorem rewrites_last_word (hlength : x.engine.length.toNat = 4 * N) (hpos : 0 < N)
    (hshort : N ≤ 639) :
    ∃ T word, (∀ t, (x.state t).dma.wm.oWMDone = true ↔ t = T) ∧
      (x.engine.ledger T).writes.length + 1 = N ∧
      (x.engine.ledger T).pushed[N - 1]? = some word ∧ (∀ t, T ≤ t → x.OffersLast N word t) ∧
        ∀ t, T ≤ t → ∃ u, t < u ∧ u ≤ t + 4 ∧ x.word1 u (x.destination (N - 1)) = word := by
  have h := latency.conformant (r := x.engine.toRun)
  have hlossless := lossless hlength hshort
  obtain ⟨v, hv⟩ := DMA.Transfer.exists_written latency hlossless
    (DMA.Transfer.reads_served_of_within (Run.reads_within (r := x.toRun)))
    (DMA.Transfer.writes_served_of_within (Run.writes_within (r := x.toRun))) hlength hpos
  obtain ⟨d, _, _, hdone⟩ := hv.reported
  obtain ⟨u, _, hstalled⟩ := DMA.Transfer.last_stalled_of_done h
    (Run.writes_stalled_at_first (r := x.toRun)) hdone
  obtain ⟨_, hs⟩ := DMA.Transfer.stalled_of_last_stalled h hstalled
  obtain ⟨_, hcount, hword⟩ := last_offered hlength hstalled (Nat.lt_succ_self u)
  have hoffers : ∀ t, u + 1 ≤ t →
      x.OffersLast N (x.engine.state (u + 1)).wm.oWMWritedata t :=
    fun t hle => offers_last hlength hlossless hstalled hword hle
  have hreported : ∀ t, (x.state t).dma.wm.oWMDone = true ↔ t = u + 1 := fun _ =>
    DMA.Transfer.done_iff_of_last_stalled h (Run.writes_stalled_at_first (r := x.toRun)) hstalled
  refine ⟨u + 1, (x.engine.state (u + 1)).wm.oWMWritedata, hreported, ?_, hword, hoffers,
    fun t hle => ?_⟩
  · have hcomplete := hs.complete
    omega
  · obtain ⟨w, hlater, hbound, _, hwait⟩ :=
      Run.writes_within (r := x.toRun) t (hoffers t hle).write
    exact ⟨w + 1, by omega, by omega, (hoffers w (by omega)).word1_succ hwait⟩

theorem contended_rewrites_last_word :
    ∃ T word, (∀ t, (contendedCopy.state t).dma.wm.oWMDone = true ↔ t = T) ∧
      (contendedCopy.engine.ledger T).writes.length + 1 = 4 ∧
      (contendedCopy.engine.ledger T).pushed[4 - 1]? = some word ∧
      (∀ t, T ≤ t → contendedCopy.OffersLast 4 word t) ∧
        ∀ t, T ≤ t → ∃ u, t < u ∧ u ≤ t + 4 ∧
          contendedCopy.word1 u (contendedCopy.destination (4 - 1)) = word :=
  rewrites_last_word contended_length (by decide) (by decide)

end Transfer

end CE213Lab.System.DMASystem
