import CE213Lab.DMA.Run
import CE213Lab.Foundation.Stride

/-!
# The walk of the read master

Before the start pulse the reader idles between states 0 and 1 with both its addresses zero and
issues nothing. From the start pulse on it walks from the start address in strides of four, one
accepted read for each address, whatever the slaves and the FIFO do. When the length is a
multiple of four the walk stops at the end of the region.
-/

namespace CE213Lab.DMA

open Foundation DMAFinal

/-- An edge without reset and start pulse makes one move of the walk, and the latch follows. -/
theorem rm_move {i : Inputs} {s : State} (hreset : i.iResetN = true)
    (hstart : s.control.oStart = false) :
    ∃ next, ReadMaster.Move (rmInputs i s) s.rm next ∧
      (step i s).rm = { next with ffDataLatch := ReadMaster.oFFData (rmInputs i s) s.rm } :=
  ⟨_, ReadMaster.walk_move hreset hstart, rfl⟩

/-! ## Before the start pulse -/

/-- The reader has nothing to read and has read nothing. -/
structure ReaderIdle (s : ReadMaster.State) (reads : List Word) : Prop where
  state : s.state = 0#2 ∨ s.state = 1#2
  read : s.oRMRead = false
  address : s.oRMReadaddress = s.rmLastwriteaddress
  reads : reads = []

theorem ReaderIdle.step {i : Inputs} {s : State} {l : Ledger} (h : ReaderIdle s.rm l.reads)
    (hreset : i.iResetN = true) (hstart : s.control.oStart = false) :
    ReaderIdle (step i s).rm (record i s l).reads := by
  have hreads : (record i s l).reads = [] := by
    simp [record, acceptsRead, h.read, h.reads]
  obtain ⟨next, hmove, hnext⟩ := rm_move hreset hstart
  rw [hnext]
  cases hmove with
  | full => exact ⟨h.state, h.read, h.address, hreads⟩
  | leave => exact ⟨.inr rfl, h.read, h.address, hreads⟩
  | finish => exact ⟨.inl rfl, h.read, h.address, hreads⟩
  | issue _ hne => exact absurd h.address hne
  | stall hstate | accept hstate | unused hstate => rcases h.state with h | h <;> simp [h] at hstate

/-- Up to its first start pulse every run keeps the reader idle. -/
theorem Run.reader_idle {r : Run} {t : ℕ}
    (hnone : ∀ u < t, (r.state u).control.oStart = false) :
    ReaderIdle (r.state t).rm (r.ledger t).reads := by
  induction t with
  | zero =>
      rw [r.cleared.reader]
      exact ⟨.inl rfl, rfl, rfl, rfl⟩
  | succ t ih =>
      rw [r.state_succ]
      exact (ih fun u hlt => hnone u (by omega)).step (r.iResetN t) (hnone t (by omega))

/-! ## From the start pulse on -/

/-- The reader walks the region of `L` bytes from `R`; `reads` are the accepted addresses. -/
structure Walking (R L : Word) (s : ReadMaster.State) (reads : List Word) : Prop where
  last : s.rmLastwriteaddress = R + L
  address : s.oRMReadaddress = strideAt R 4 reads.length
  walked : reads = stride R 4 reads.length
  state : s.state = 0#2 ∨ s.state = 1#2 ∨ s.state = 2#2
  read : s.oRMRead = (s.state == 2#2)
  pending : s.state = 2#2 → s.oRMReadaddress ≠ s.rmLastwriteaddress
  bound : 4 ∣ L.toNat → 4 * reads.length ≤ L.toNat

namespace Walking

variable {R L : Word} {s : ReadMaster.State} {reads : List Word}

/-- The end test succeeds exactly when the whole length has been read. -/
theorem at_end_iff (h : Walking R L s reads) :
    s.oRMReadaddress = s.rmLastwriteaddress ↔ 4 * reads.length = L.toNat := by
  rw [h.last, h.address, eq_comm, strideAt_eq_end]
  have hlt := L.isLt
  refine ⟨?_, ?_⟩
  · intro hmod
    have hbound := h.bound (dvd_of_mod_eq (by decide) hmod)
    rwa [Nat.mod_eq_of_lt (by omega)] at hmod
  · intro heq
    rw [Nat.mod_eq_of_lt (by omega), heq]

/-- Short of the end, a length that is a multiple of four leaves room for another word. -/
theorem bound_succ (h : Walking R L s reads)
    (hne : s.oRMReadaddress ≠ s.rmLastwriteaddress) (hdvd : 4 ∣ L.toNat) :
    4 * (reads.length + 1) ≤ L.toNat := by
  have hbound := h.bound hdvd
  rw [Ne, h.at_end_iff] at hne
  omega

end Walking

theorem Walking.step {R L : Word} {i : Inputs} {s : State} {l : Ledger}
    (h : Walking R L s.rm l.reads) (hreset : i.iResetN = true)
    (hstart : s.control.oStart = false) :
    Walking R L (step i s).rm (record i s l).reads := by
  obtain ⟨next, hmove, hnext⟩ := rm_move hreset hstart
  rw [hnext]
  -- only state 2 has a command out, so every other move accepts nothing
  have hreads : s.rm.state ≠ 2#2 → (record i s l).reads = l.reads := by
    intro hne
    simp [record, acceptsRead, h.read, hne]
  cases hmove with
  | full hstate _ =>
      rw [hreads (by simp [hstate])]
      exact { h with }
  | leave hstate _ =>
      rw [hreads (by simp [hstate])]
      exact { h with
        state := .inr (.inl rfl)
        read := by simp [h.read, hstate]
        pending := by simp }
  | finish hstate _ =>
      rw [hreads (by simp [hstate])]
      exact { h with
        state := .inl rfl
        read := by simp [h.read, hstate]
        pending := by simp }
  | issue hstate hne =>
      rw [hreads (by simp [hstate])]
      exact { h with
        state := .inr (.inr rfl)
        read := by simp
        pending := fun _ => hne }
  | stall hstate hwait =>
      have hsame : (record i s l).reads = l.reads := by
        have hwait : i.iRMWaitrequest = true := hwait
        simp [record, acceptsRead, hwait]
      rw [hsame]
      exact { h with }
  | accept hstate hwait =>
      have hmore : (record i s l).reads = l.reads ++ [s.rm.oRMReadaddress] := by
        have hwait : i.iRMWaitrequest = false := hwait
        simp [record, acceptsRead, h.read, hstate, hwait]
      rw [hmore]
      exact {
        last := h.last
        address := by
          simp only [h.address, List.length_append, List.length_singleton]
          exact strideAt_succ
        walked := by
          rw [List.length_append, List.length_singleton, stride_succ, ← h.walked, h.address]
        state := .inl rfl
        read := by simp
        pending := by simp
        bound := by
          rw [List.length_append, List.length_singleton]
          exact h.bound_succ (h.pending hstate) }
  | unused hstate => rcases h.state with h | h | h <;> simp [h] at hstate

/-! ## Over a transfer -/

namespace Transfer

variable {x : Transfer} {t : ℕ}

theorem reader_idle (h : t ≤ x.start) : ReaderIdle (x.state t).rm (x.ledger t).reads :=
  Run.reader_idle fun _ hlt => oStart_before (hlt.trans_le h)

/-- From the cycle after the start pulse on, the reader walks the programmed region. -/
theorem walking (h : x.start < t) :
    Walking x.readStart x.length (x.state t).rm (x.ledger t).reads := by
  refine x.invariant_history record Ledger.empty
    (fun s l => Walking x.readStart x.length s.rm l.reads) (x.start + 1) ?_
    (fun u hle hw => hw.step (x.iResetN u) (oStart_after hle)) h
  have hidle := reader_idle (x := x) le_rfl
  have hreads : (x.ledger (x.start + 1)).reads = [] := by
    rw [x.ledger_succ]
    simp [record, acceptsRead, hidle.read, hidle.reads]
  show Walking _ _ _ (x.ledger (x.start + 1)).reads
  rw [hreads, x.state_succ]
  -- the start pulse loads the two addresses and leaves the idling state alone
  have hwalk : ReadMaster.walk (rmInputs (x.input x.start) (x.state x.start))
      (x.state x.start).rm = { (x.state x.start).rm with
        oRMReadaddress := x.readStart
        rmLastwriteaddress := x.readStart + x.length } := by
    simp [ReadMaster.walk, rmInputs, x.iResetN, x.oStart, readStart, length]
  have hstep : (engine.step (x.input x.start) (x.state x.start)).rm =
      { ReadMaster.walk (rmInputs (x.input x.start) (x.state x.start)) (x.state x.start).rm with
        ffDataLatch := ReadMaster.oFFData (rmInputs (x.input x.start) (x.state x.start))
          (x.state x.start).rm } := rfl
  rw [hstep, hwalk]
  constructor
  · rfl
  · simp
  · simp
  · exact hidle.state.imp_right .inl
  · rcases hidle.state with h | h <;> simp [h, hidle.read]
  · intro h
    rcases hidle.state with h' | h' <;> simp [h'] at h
  · simp

/-- At all times the accepted reads are the first addresses of the walk. -/
theorem reads_eq : (x.ledger t).reads = stride x.readStart 4 (x.ledger t).reads.length := by
  rcases Nat.lt_or_ge x.start t with h | h
  · exact (walking h).walked
  · simp [(reader_idle h).reads]

/-- A length that is a multiple of four bounds the number of reads. -/
theorem reads_bound (hdvd : 4 ∣ x.length.toNat) :
    4 * (x.ledger t).reads.length ≤ x.length.toNat := by
  rcases Nat.lt_or_ge x.start t with h | h
  · exact (walking h).bound hdvd
  · simp [(reader_idle h).reads]

/-! ## Single cycles of the walk -/

/-- Reads are accepted in state 2 only. -/
theorem reads_succ (hlt : x.start < t) :
    (x.ledger (t + 1)).reads.length = (x.ledger t).reads.length +
      if (x.state t).rm.state = 2#2 ∧ (x.input t).iRMWaitrequest = false then 1 else 0 := by
  rw [x.ledger_succ]
  simp only [record, acceptsRead, (walking hlt).read, List.length_append]
  cases (x.input t).iRMWaitrequest <;> by_cases hstate : (x.state t).rm.state = 2#2 <;>
    simp [hstate]

/-- After the start pulse every edge is one of the reader's moves. -/
theorem rm_succ (hlt : x.start < t) : ∃ next,
    ReadMaster.Move (rmInputs (x.input t) (x.state t)) (x.state t).rm next ∧
      (x.state (t + 1)).rm.state = next.state := by
  obtain ⟨next, hmove, hnext⟩ := rm_move (x.iResetN t) (oStart_after hlt)
  refine ⟨next, hmove, ?_⟩
  rw [x.state_succ]
  show (step _ _).rm.state = _
  rw [hnext]

/-- State 0 is left at once unless the FIFO is at its mark. -/
theorem state_of_zero (hlt : x.start < t) (hstate : (x.state t).rm.state = 0#2) :
    (x.state (t + 1)).rm.state =
      if FIFO.ffAlmostfull (x.state t).fi then 0#2 else 1#2 := by
  obtain ⟨next, hmove, hnext⟩ := rm_succ hlt
  have hfull : (rmInputs (x.input t) (x.state t)).iFFAlmostfull =
      FIFO.ffAlmostfull (x.state t).fi := by
    rw [← fifo_eq (x.iResetN t)]
    rfl
  rw [hnext, ← hfull]
  cases hmove with
  | full _ hmark => simp [hstate, hmark]
  | leave _ hroom => simp [hroom]
  | finish h | issue h | stall h | accept h | unused h => simp [hstate] at h

/-- State 1 issues the next read, or rests when the walk is at its end. -/
theorem state_of_one (hlt : x.start < t) (hstate : (x.state t).rm.state = 1#2) :
    (x.state (t + 1)).rm.state =
      if 4 * (x.ledger t).reads.length = x.length.toNat then 0#2 else 2#2 := by
  obtain ⟨next, hmove, hnext⟩ := rm_succ hlt
  rw [hnext]
  cases hmove with
  | finish _ hend => exact (if_pos ((walking hlt).at_end_iff.mp hend)).symm
  | issue _ hne => exact (if_neg fun hend => hne ((walking hlt).at_end_iff.mpr hend)).symm
  | full h | leave h | stall h | accept h | unused h => simp [hstate] at h

/-- State 2 holds its command until the read slave takes it. -/
theorem state_of_two (hlt : x.start < t) (hstate : (x.state t).rm.state = 2#2) :
    (x.state (t + 1)).rm.state = if (x.input t).iRMWaitrequest then 2#2 else 0#2 := by
  obtain ⟨next, hmove, hnext⟩ := rm_succ hlt
  rw [hnext]
  cases hmove with
  | stall _ hwait =>
      have hwait : (x.input t).iRMWaitrequest = true := hwait
      simp [hstate, hwait]
  | accept _ hwait =>
      have hwait : (x.input t).iRMWaitrequest = false := hwait
      simp [hwait]
  | full h | leave h | finish h | issue h | unused h => simp [hstate] at h

end Transfer

end CE213Lab.DMA
