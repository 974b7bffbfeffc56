import CE213Lab.DMA.Stages

/-!
# The pace of an unstalled writer

When the destination slave never stalls, the writer takes a word every second cycle and the reader
delivers at most one in two, so the FIFO never holds more than one word and never holds the
reader up. The reader then reaches every address of its walk.
-/

namespace CE213Lab.DMA

open Foundation DMAFinal

/-- The destination slave accepts every command in its first cycle. -/
def Run.WritesUnstalled (r : Run) : Prop :=
  ∀ t, (r.input t).iWMWaitrequest = false

/-- The FIFO holds at most one word, and holds one only while the writer is free to take it and
the reader is past state 0. -/
structure Paced (s : State) : Prop where
  state : s.wm.state = 0#2 ∨ s.wm.state = 1#2
  words : FIFO.words s.fi = [] ∨
    (FIFO.words s.fi).length = 1 ∧ s.wm.state = 0#2 ∧ s.rm.state ≠ 0#2

theorem Paced.not_full {s : State} (h : Paced s) : FIFO.ffAlmostfull s.fi = false := by
  rw [Bool.eq_false_iff, Ne, FIFO.ffAlmostfull_iff]
  rcases h.words with h | ⟨h, -⟩ <;> simp [h]

theorem Paced.step {i : Inputs} {s : State} (h : Paced s) (hreset : i.iResetN = true)
    (hstart : s.control.oStart = false) (hbound : FIFO.Bounded s.fi)
    (hwait : i.iWMWaitrequest = false) : Paced (step i s) := by
  have hwords := words_step hreset hbound
  have hpops := pops_eq (s := s) hreset
  have hpushes := pushes_eq (s := s) hreset
  have hmove := wm_move hreset hstart
  rcases h.words with hempty | ⟨hone, hfree, hbusy⟩
  · -- an empty FIFO: whatever the writer does it ends in state 0, and a push leaves state 0
    have hstate : (DMAFinal.step i s).wm.state = 0#2 := by
      generalize (DMAFinal.step i s).wm = next at hmove
      cases hmove with
      | empty hstate _ => exact hstate
      | take _ h' => simp [(empty_iff hreset).mpr hempty] at h'
      | stall _ _ h' | stallLast _ _ h' => exact absurd (hwait.symm.trans h') Bool.false_ne_true
      | accept | acceptLast | clear => rfl
      | unused h' => rcases h.state with h | h <;> simp [h] at h'
    refine ⟨.inl hstate, ?_⟩
    cases hpush : pushes i s with
    | false => exact .inl (by simp [hwords, hempty, hpush])
    | true =>
        refine .inr ⟨by simp [hwords, hempty, hpush], hstate, ?_⟩
        rw [hpushes] at hpush
        simp only [Bool.and_eq_true, Bool.not_eq_true', beq_iff_eq] at hpush
        obtain ⟨next, hrm, hnext⟩ := rm_move (i := i) hreset hstart
        rw [hnext]
        cases hrm with
        | full _ h' =>
            have h' : FIFO.ffAlmostfull (fifo i s) = true := h'
            rw [fifo_eq hreset, hpush.1.1] at h'
            simp at h'
        | leave => simp
        | finish h' | issue h' | stall h' | accept h' | unused h' => simp [hpush.1.2] at h'
  · -- one word: the writer takes it, and a reader past state 0 pushes nothing
    have hne : FIFO.ffEmpty s.fi = false := by
      rw [Bool.eq_false_iff, Ne, FIFO.ffEmpty_iff]
      intro h
      simp [h] at hone
    have hdrained : FIFO.words (DMAFinal.step i s).fi = [] := by
      have hpop : pops i s = true := by simp [hpops, hne, hfree]
      have hpush : pushes i s = false := by simp [hpushes, hbusy]
      obtain ⟨word, hword⟩ := List.length_eq_one_iff.mp hone
      simp [hwords, hpop, hpush, hword]
    refine ⟨?_, .inl hdrained⟩
    generalize (DMAFinal.step i s).wm = next at hmove
    cases hmove with
    | empty | accept | acceptLast | clear => simp_all
    | take => exact .inr rfl
    | stall h' | stallLast h' | unused h' => simp [hfree] at h'

namespace Transfer

variable {x : Transfer} {t : ℕ}

/-- An unstalled writer keeps the pace over the whole transfer. -/
theorem paced (h : x.Conformant) (hwait : x.WritesUnstalled) (hlt : x.start < t) :
    Paced (x.state t) := by
  refine x.invariant Paced (x.start + 1) ?_ (fun u hle hp =>
    hp.step (x.iResetN u) (oStart_after hle) (Run.stored u).bounded (hwait u)) hlt
  have hmoving := moving_start h
  refine ⟨hmoving.state, .inl ?_⟩
  have hlength := hmoving.length_pushed
  have hle := h.pushed_le (x.start + 1)
  have hreads : (x.ledger (x.start + 1)).reads.length = 0 := by
    have hidle := reader_idle (x := x) le_rfl
    simp [x.ledger_succ, record, acceptsRead, hidle.read, hidle.reads]
  exact List.length_eq_zero_iff.mp (by omega)

/-- The read slave accepts again and again. -/
def ReadsFair (x : Transfer) : Prop :=
  InfinitelyOften fun t => (x.input t).iRMWaitrequest = false

/-- The transfer has started and `n` reads have been accepted. -/
def HasRead (x : Transfer) (n t : ℕ) : Prop :=
  x.start < t ∧ (x.ledger t).reads.length = n

/-- With `n` reads accepted, the reader is in `state`. -/
def Pending (x : Transfer) (state : BitVec 2) (n t : ℕ) : Prop :=
  x.start < t ∧ (x.state t).rm.state = state ∧ (x.ledger t).reads.length = n

/-- Short of its end address, a reader the FIFO does not hold up reads another word. -/
theorem reads_progress (hfair : x.ReadsFair)
    (hroom : ∀ t, x.start < t → FIFO.ffAlmostfull (x.state t).fi = false) {n : ℕ}
    (hne : 4 * n ≠ x.length.toNat) : LeadsTo (x.HasRead n) (x.HasRead (n + 1)) := by
  have htwo : LeadsTo (x.Pending 2#2 n) (x.HasRead (n + 1)) := by
    refine .of_fair hfair ?_ ?_
    · intro t ⟨hlt, hstate, hreads⟩ hwait
      exact ⟨by omega, by simp [state_of_two hlt hstate, hwait],
        by simp [reads_succ hlt, hreads, hwait]⟩
    · intro t ⟨hlt, hstate, hreads⟩ hwait
      exact ⟨by omega, by simp [reads_succ hlt, hstate, hreads, hwait]⟩
  have hone : LeadsTo (x.Pending 1#2 n) (x.HasRead (n + 1)) := by
    refine LeadsTo.trans (.of_next ?_) htwo
    intro t ⟨hlt, hstate, hreads⟩
    exact ⟨by omega, by rw [state_of_one hlt hstate, hreads, if_neg hne],
      by simp [reads_succ hlt, hstate, hreads]⟩
  have hzero : LeadsTo (x.Pending 0#2 n) (x.HasRead (n + 1)) := by
    refine LeadsTo.trans (.of_next ?_) hone
    intro t ⟨hlt, hstate, hreads⟩
    exact ⟨by omega, by simp [state_of_zero hlt hstate, hroom t hlt],
      by simp [reads_succ hlt, hstate, hreads]⟩
  intro t ⟨hlt, hreads⟩
  rcases (walking hlt).state with hstate | hstate | hstate
  · exact hzero t ⟨hlt, hstate, hreads⟩
  · exact hone t ⟨hlt, hstate, hreads⟩
  · exact htwo t ⟨hlt, hstate, hreads⟩

/-- The reader reaches the `n`-th word of its walk unless the region ends before it. -/
theorem reads_reach (hfair : x.ReadsFair)
    (hroom : ∀ t, x.start < t → FIFO.ffAlmostfull (x.state t).fi = false) {n : ℕ}
    (hbefore : ∀ m < n, 4 * m ≠ x.length.toNat) :
    ∃ t, x.HasRead n t := by
  induction n with
  | zero =>
      have hidle := reader_idle (x := x) le_rfl
      exact ⟨x.start + 1, Nat.lt_succ_self _, by
        simp [x.ledger_succ, record, acceptsRead, hidle.read, hidle.reads]⟩
  | succ n ih =>
      obtain ⟨t, hlt, hreads⟩ := ih (fun m hm => hbefore m (by omega))
      obtain ⟨u, _, hu⟩ := reads_progress hfair hroom (hbefore n (Nat.lt_succ_self n)) t
        ⟨hlt, hreads⟩
      exact ⟨u, hu⟩

end Transfer

end CE213Lab.DMA
