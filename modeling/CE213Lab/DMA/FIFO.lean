import CE213Lab.Foundation.Queue

/-!
# The FIFO between the two masters

`FIFO.v`: a memory addressed by two wrapping 8-bit pointers. Full and empty are read off the
pointers' top bits and low seven bits. `step_words` shows that, as long as at most 128 words are
stored, a clock edge is one cycle of the bounded queue of capacity 128 on the words between the
pointers.
-/

namespace CE213Lab.DMA

open Foundation

/-- The 32-bit data and address words of the engine. -/
abbrev Word := BitVec 32

namespace FIFO

/-- The registers. `buffer` has 257 entries, of which an 8-bit pointer reaches 256. -/
structure State where
  buffer : Fin 257 → Word
  posRead : BitVec 8
  posWrite : BitVec 8

structure Inputs where
  iResetN : Bool
  ffReadrequest : Bool
  ffWriterequest : Bool
  ffData : Word

/-- The buffer entry a pointer addresses. -/
def slot (p : BitVec 8) : Fin 257 :=
  ⟨p.toNat, p.isLt.trans (by decide)⟩

/-! ## Combinational outputs -/

def ffQ (s : State) : Word :=
  s.buffer (slot s.posRead)

def compare (s : State) : Bool :=
  s.posWrite[7] ^^ s.posRead[7]

def equal (s : State) : Bool :=
  if s.posWrite.extractLsb 6 0 - s.posRead.extractLsb 6 0 ≠ 0 then false else true

def ffAlmostfull (s : State) : Bool :=
  compare s && equal s

def ffEmpty (s : State) : Bool :=
  !compare s && equal s

def fifoWr (i : Inputs) (s : State) : Bool :=
  !ffAlmostfull s && i.ffWriterequest

def fifoRd (i : Inputs) (s : State) : Bool :=
  !ffEmpty s && i.ffReadrequest

/-! ## Clock edge -/

/-- The effect of `negedge iReset_n`: while the reset is low the pointers are zero at once, without
waiting for the clock. -/
def negedgeReset (iResetN : Bool) (s : State) : State :=
  if !iResetN then { s with posRead := 0, posWrite := 0 } else s

/-- The `always` block of the write pointer and the buffer. -/
def writeBlock (i : Inputs) (s : State) : State :=
  if !i.iResetN then { s with posWrite := 0 }
  else if fifoWr i s then
    { s with
      buffer := Function.update s.buffer (slot s.posWrite) i.ffData
      posWrite := s.posWrite + 1 }
  else s

/-- The `always` block of the read pointer. -/
def readBlock (i : Inputs) (s : State) : BitVec 8 :=
  if !i.iResetN then 0
  else if fifoRd i s then s.posRead + 1
  else s.posRead

def step (i : Inputs) (s : State) : State :=
  { writeBlock i s with posRead := readBlock i s }

/-! ## The words between the pointers -/

/-- The words stored, oldest first. -/
def words (s : State) : List Word :=
  ring (fun p => s.buffer (slot p)) s.posRead s.posWrite

/-- The number of words stored. -/
def occupancy (s : State) : ℕ :=
  (s.posWrite - s.posRead).toNat

/-- At most 128 words are stored, half the pointers' range. -/
def Bounded (s : State) : Prop :=
  occupancy s ≤ 128

@[simp] theorem length_words (s : State) : (words s).length = occupancy s :=
  length_ring

theorem slot_injective : Function.Injective slot := by
  intro p q h
  exact BitVec.toNat_inj.mp (Fin.mk.inj h)

/-- The top bit of a pointer says which half of its range it is in. -/
theorem top_bit_eq (p : BitVec 8) : p[7] = decide (p.toNat / 128 % 2 = 1) := by
  rw [BitVec.getElem_eq_testBit_toNat, Nat.testBit_eq_decide_div_mod_eq]

theorem equal_eq (s : State) :
    equal s = decide (s.posWrite.toNat % 128 = s.posRead.toNat % 128) := by
  have hw : (s.posWrite.extractLsb 6 0).toNat = s.posWrite.toNat % 128 :=
    BitVec.extractLsb_toNat 6 0 s.posWrite
  have hr : (s.posRead.extractLsb 6 0).toNat = s.posRead.toNat % 128 :=
    BitVec.extractLsb_toNat 6 0 s.posRead
  have hsub : s.posWrite.extractLsb 6 0 - s.posRead.extractLsb 6 0 = 0 ↔
      s.posWrite.toNat % 128 = s.posRead.toNat % 128 := by
    rw [← BitVec.toNat_inj, BitVec.toNat_sub, hw, hr]
    show (128 - s.posRead.toNat % 128 + s.posWrite.toNat % 128) % 128 = 0 ↔ _
    omega
  by_cases hsame : s.posWrite.toNat % 128 = s.posRead.toNat % 128
  · rw [equal, if_neg (not_not.mpr (hsub.mpr hsame)), decide_eq_true hsame]
  · rw [equal, if_pos (mt hsub.mp hsame), decide_eq_false hsame]

/-- The two flags compare the pointers' difference with 0 and with 128. -/
theorem flags_iff (s : State) :
    (ffEmpty s = true ↔ occupancy s = 0) ∧ (ffAlmostfull s = true ↔ occupancy s = 128) := by
  have hoccupancy : occupancy s = (256 - s.posRead.toNat + s.posWrite.toNat) % 256 :=
    BitVec.toNat_sub _ _
  have hr := s.posRead.isLt
  have hw := s.posWrite.isLt
  simp only [ffEmpty, ffAlmostfull, compare, top_bit_eq, equal_eq, hoccupancy, Bool.and_eq_true,
    Bool.not_eq_true', bne_eq_false_iff_eq, bne_iff_ne, ne_eq, decide_eq_true_eq,
    decide_eq_decide]
  omega

theorem ffEmpty_iff (s : State) : ffEmpty s = true ↔ words s = [] := by
  rw [(flags_iff s).1, ← length_words, List.length_eq_zero_iff]

theorem ffAlmostfull_iff (s : State) : ffAlmostfull s = true ↔ (words s).length = 128 := by
  rw [(flags_iff s).2, length_words]

/-- A FIFO that is not empty presents its oldest word. -/
theorem words_eq_cons {s : State} (h : ffEmpty s = false) : words s = ffQ s :: (words s).tail := by
  have hpos : 0 < occupancy s := by
    have hne : occupancy s ≠ 0 := fun hzero => by simp [(flags_iff s).1.mpr hzero] at h
    omega
  have hpop : words s = ffQ s :: _ := ring_pop (fun p => s.buffer (slot p)) hpos
  rw [hpop, List.tail_cons]

/-- The write port appends the word offered, unless 128 words are stored. -/
theorem words_writeBlock {i : Inputs} {s : State} (hreset : i.iResetN = true) (h : Bounded s) :
    words (writeBlock i s) = words s ++ if fifoWr i s then [i.ffData] else [] := by
  cases hwr : fifoWr i s with
  | false => simp [writeBlock, hreset, hwr]
  | true =>
      have hspace : (s.posWrite - s.posRead).toNat + 1 < 2 ^ 8 := by
        have hbound : (s.posWrite - s.posRead).toNat ≤ 128 := h
        omega
      have hbuffer : (fun p => Function.update s.buffer (slot s.posWrite) i.ffData (slot p)) =
          Function.update (fun p => s.buffer (slot p)) s.posWrite i.ffData :=
        Function.update_comp_eq_of_injective s.buffer slot_injective s.posWrite i.ffData
      simp only [words, writeBlock, hreset, hwr, Bool.not_true, Bool.false_eq_true, if_false,
        if_true, hbuffer]
      exact ring_push _ i.ffData hspace

/-- The read port removes the oldest word, if there is one. -/
theorem words_readBlock {i : Inputs} {s : State} (hreset : i.iResetN = true) (h : Bounded s) :
    words (step i s) =
      if fifoRd i s then (words (writeBlock i s)).tail else words (writeBlock i s) := by
  have hread : (writeBlock i s).posRead = s.posRead := by
    unfold writeBlock
    split
    · rfl
    · split <;> rfl
  cases hrd : fifoRd i s with
  | false => simp [step, readBlock, hreset, hrd, words, hread]
  | true =>
      have hne : words s ≠ [] := fun hempty => by
        simp [fifoRd, (ffEmpty_iff s).mpr hempty] at hrd
      have hpos : 0 < ((writeBlock i s).posWrite - s.posRead).toNat := by
        have hlength := congrArg List.length (words_writeBlock hreset h)
        rw [length_words, occupancy, hread, List.length_append] at hlength
        have := List.length_pos_iff.mpr hne
        omega
      have hpop := ring_pop (fun p => (writeBlock i s).buffer (slot p)) hpos
      simp only [words, step, readBlock, hreset, hrd, hread, Bool.not_true, Bool.false_eq_true,
        if_false, if_true]
      rw [hpop, List.tail_cons]

/-- A reset edge empties the FIFO, whatever its memory holds. -/
theorem step_reset {i : Inputs} (hreset : i.iResetN = false) (s : State) :
    Bounded (step i s) ∧ words (step i s) = [] := by
  have hoccupancy : occupancy (step i s) = 0 := by
    simp [occupancy, step, writeBlock, readBlock, hreset]
  refine ⟨by simp [Bounded, hoccupancy], ?_⟩
  rw [← List.length_eq_zero_iff, length_words, hoccupancy]

/-- A clock edge is one cycle of the bounded queue. -/
theorem step_words {i : Inputs} {s : State} (hreset : i.iResetN = true) (h : Bounded s) :
    words (step i s) =
      BoundedQueue.cycleItems 128 i.ffReadrequest i.ffWriterequest i.ffData (words s) := by
  have hwr : fifoWr i s = (i.ffWriterequest && (words s).length != 128) := by
    have hfull : ffAlmostfull s = ((words s).length == 128) := by
      rw [Bool.eq_iff_iff, ffAlmostfull_iff, beq_iff_eq]
    rw [fifoWr, hfull, Bool.and_comm]
    rfl
  rw [words_readBlock hreset h, words_writeBlock hreset h, hwr, BoundedQueue.cycleItems, fifoRd]
  cases hempty : ffEmpty s with
  | true => cases i.ffReadrequest <;> simp [(ffEmpty_iff s).mp hempty]
  | false =>
      rw [words_eq_cons hempty]
      cases i.ffReadrequest <;> simp

/-- The bound is kept. -/
theorem bounded_step {i : Inputs} {s : State} (hreset : i.iResetN = true) (h : Bounded s) :
    Bounded (step i s) := by
  rw [Bounded, ← length_words, step_words hreset h]
  exact BoundedQueue.cycle_items_bounded _ _ _ (by rwa [length_words])

end FIFO

end CE213Lab.DMA
