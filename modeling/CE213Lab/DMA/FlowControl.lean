import CE213Lab.DMA.Stages
import CE213Lab.DMA.Bench

/-!
# Flow control with a read slave of latency one

The reader looks at `FF_almostfull` in state 0, the very cycle in which the word it has read last
arrives. The read it then commits to is accepted two cycles later at the earliest and answered in
state 0 again, where a FIFO still at its mark refuses the word. `lossless_iff` says that this is
the only way a word is lost. It takes 128 stored words, one more held by a stalled writer and one
in flight, so no transfer of up to 129 words loses any.
-/

namespace CE213Lab.DMA

open Foundation DMAFinal

namespace Run

/-- At all times the words that have entered the FIFO are the words returned, so each returned
word enters in the cycle it is returned. -/
def Lossless (r : Run) : Prop :=
  ∀ t, (r.ledger t).pushed = (r.ledger t).returned

theorem lossless_iff_pushes {r : Run} :
    r.Lossless ↔
      ∀ t, (r.input t).iRMReaddatavalid = true → pushes (r.input t) (r.state t) = true := by
  refine ⟨?_, ?_⟩
  · intro hall t hvalid
    by_contra hpush
    have hnow := congrArg List.length (hall t)
    have hnext := congrArg List.length (hall (t + 1))
    rw [ledger_succ, record_pushed (r.iResetN t)] at hnext
    simp [record, hvalid, hpush, hnow] at hnext
  · intro hpushes t
    induction t with
    | zero => rfl
    | succ t ih =>
        rw [ledger_succ, record_pushed (r.iResetN t), ih]
        cases hvalid : (r.input t).iRMReaddatavalid with
        | true => simp [record, hvalid, hpushes t hvalid]
        | false =>
            have hpush : pushes (r.input t) (r.state t) = false := by
              simp [pushes_eq (r.iResetN t), hvalid]
            simp [record, hvalid, hpush]

end Run

namespace Transfer

variable {x : Transfer} {t : ℕ}

/-! ## An accepted read and its answer -/

/-- A read is accepted in state 2 of a started walk. -/
theorem reading_of_accepts (h : acceptsRead (x.input t) (x.state t) = true) :
    x.start < t ∧ (x.state t).rm.state = 2#2 ∧ (x.input t).iRMWaitrequest = false := by
  simp only [acceptsRead, Bool.and_eq_true, Bool.not_eq_true'] at h
  have hlt : x.start < t := by
    by_contra hge
    simp [(reader_idle (Nat.le_of_not_lt hge)).read] at h
  have hread := (walking hlt).read
  rw [h.1] at hread
  exact ⟨hlt, by simpa using hread.symm, h.2⟩

/-- After an accepted read the reader is in state 0. -/
theorem state_after_accepts (h : acceptsRead (x.input t) (x.state t) = true) :
    (x.state (t + 1)).rm.state = 0#2 := by
  obtain ⟨hlt, hstate, hwait⟩ := reading_of_accepts h
  simp [state_of_two hlt hstate, hwait]

/-- With latency one a word enters the FIFO in the cycle it is returned if there is room. -/
theorem pushes_of_room (hlatency : x.FixedLatency) (hvalid : (x.input t).iRMReaddatavalid = true)
    (hroom : FIFO.ffAlmostfull (x.state t).fi = false) :
    pushes (x.input t) (x.state t) = true := by
  cases t with
  | zero => simp [hlatency.1] at hvalid
  | succ t =>
      have hstate := state_after_accepts (x := x) (t := t) (by rw [← hlatency.2, hvalid])
      simp [pushes_eq (x.iResetN (t + 1)), hroom, hstate, hvalid]

/-! ## The mark -/

/-- A read is accepted while the FIFO is at its mark and the writer takes nothing from it. -/
def ReadsAtMark (x : Transfer) (t : ℕ) : Prop :=
  acceptsRead (x.input t) (x.state t) = true ∧ FIFO.ffAlmostfull (x.state t).fi = true ∧
    (x.state t).wm.state ≠ 0#2

/-- The FIFO is at its mark after an accepted read exactly when it was before and nothing left. -/
theorem mark_after_accepts (h : acceptsRead (x.input t) (x.state t) = true) :
    FIFO.ffAlmostfull (x.state (t + 1)).fi = true ↔ x.ReadsAtMark t := by
  have hstored := Run.stored (r := x.toRun) t
  have hbound : (FIFO.words (x.state t).fi).length ≤ 128 := by
    rw [FIFO.length_words]
    exact hstored.bounded
  have hpush : pushes (x.input t) (x.state t) = false := by
    simp [pushes_eq (x.iResetN t), (reading_of_accepts h).2.1]
  have hwords := words_step (x.iResetN t) hstored.bounded
  rw [hpush, pops_eq (x.iResetN t)] at hwords
  rw [FIFO.ffAlmostfull_iff, x.state_succ, ReadsAtMark, FIFO.ffAlmostfull_iff]
  show (FIFO.words (step _ _).fi).length = 128 ↔ _
  rw [hwords]
  by_cases hfree : (x.state t).wm.state = 0#2
  · cases hempty : FIFO.ffEmpty (x.state t).fi with
    | true => simp [hfree, (FIFO.ffEmpty_iff _).mp hempty]
    | false =>
        have hleft : (FIFO.words (x.state t).fi).tail.length ≠ 128 := by
          rw [List.length_tail]
          omega
        simpa [hfree] using hleft
  · simp [hfree, h]

/-- If no read is accepted at the mark, every word returned finds room. -/
theorem room_of_valid (hlatency : x.FixedLatency) (hnever : ∀ u, ¬ x.ReadsAtMark u)
    (hvalid : (x.input t).iRMReaddatavalid = true) :
    FIFO.ffAlmostfull (x.state t).fi = false := by
  cases t with
  | zero => simp [hlatency.1] at hvalid
  | succ t =>
      rw [hlatency.2] at hvalid
      by_contra hmark
      exact hnever t ((mark_after_accepts hvalid).mp (by simpa using hmark))

/-- With latency one nothing is lost exactly when no read is accepted while the FIFO is at its mark
and the writer takes nothing from it. -/
theorem lossless_iff (hlatency : x.FixedLatency) : x.Lossless ↔ ∀ t, ¬ x.ReadsAtMark t := by
  rw [Run.lossless_iff_pushes]
  refine ⟨?_, ?_⟩
  · intro hpushes t hmark
    have hvalid : (x.input (t + 1)).iRMReaddatavalid = true := by rw [hlatency.2, hmark.1]
    have hpush := hpushes (t + 1) hvalid
    rw [pushes_eq (x.iResetN (t + 1)), (mark_after_accepts hmark.1).mpr hmark] at hpush
    simp at hpush
  · intro hnever t hvalid
    exact pushes_of_room hlatency hvalid (room_of_valid hlatency hnever hvalid)

/-- A read at the mark is at least the 130th: 128 words are stored and the writer holds one. -/
theorem not_reads_at_mark (h : x.Conformant) (hdvd : 4 ∣ x.length.toNat)
    (hshort : x.length.toNat ≤ 4 * 129) : ¬ x.ReadsAtMark t := by
  rintro ⟨haccept, hmark, hbusy⟩
  obtain ⟨hlt, hstate, hwait⟩ := reading_of_accepts haccept
  have hfull := (FIFO.ffAlmostfull_iff _).mp hmark
  cases stage h hlt with
  | moving hm =>
      have hholds : (x.state t).wm.state = 1#2 := hm.state.resolve_left hbusy
      have hpushed := hm.length_pushed
      rw [hm.write, hholds] at hpushed
      have hle := h.pushed_le t
      have hreads := reads_succ hlt
      have hbound := reads_bound (x := x) (t := t + 1) hdvd
      simp only [beq_self_eq_true, if_true] at hpushed
      simp only [hstate, hwait, and_self, if_true] at hreads
      omega
  | finished hf => simp [hf.words] at hfull
  | stalled hs => simp [hs.words] at hfull
  | stuck hs => simp [hs.words] at hfull

/-- A transfer of up to 129 words loses nothing, whatever the stalls. -/
theorem lossless_of_short (hlatency : x.FixedLatency) (hdvd : 4 ∣ x.length.toNat)
    (hshort : x.length.toNat ≤ 4 * 129) : x.Lossless :=
  Run.lossless_iff_pushes.mpr fun _ hvalid => pushes_of_room hlatency hvalid <|
    room_of_valid hlatency (fun _ => not_reads_at_mark hlatency.conformant hdvd hshort) hvalid

/-- One word always gets through. -/
theorem lossless_one_word :
    (Bench.transfer id 0x1000 0x2000 4 (fun _ => false) (fun _ => true)).Lossless :=
  (lossless_iff Bench.transfer_fixed_latency).mpr fun _ =>
    not_reads_at_mark Bench.transfer_fixed_latency.conformant
      (by rw [Bench.transfer_length]; decide)
      (by rw [Bench.transfer_length]; decide)

/-! ## A stalled writer -/

/-- The writer is held up with a word while `k` more are stored and another one arrives. -/
structure Filling (x : Transfer) (k t : ℕ) : Prop where
  started : x.start < t
  reader : (x.state t).rm.state = 0#2
  reads : (x.ledger t).reads.length = k + 2
  valid : (x.input t).iRMReaddatavalid = true
  writer : (x.state t).wm.state = 1#2
  short : ¬ WriteMaster.AtEnd (x.state t).wm
  words : (FIFO.words (x.state t).fi).length = k

/-- A stalled writer stays as it is, and the FIFO only receives. -/
theorem held_up_succ (hlt : x.start < t) (hstate : (x.state t).wm.state = 1#2)
    (hshort : ¬ WriteMaster.AtEnd (x.state t).wm) (hwait : (x.input t).iWMWaitrequest = true) :
    (x.state (t + 1)).wm = (x.state t).wm ∧
      (FIFO.words (x.state (t + 1)).fi).length = (FIFO.words (x.state t).fi).length +
        if pushes (x.input t) (x.state t) then 1 else 0 := by
  have hmove := wm_succ hlt
  have hwords := words_step (x.iResetN t) (Run.stored (r := x.toRun) t).bounded
  refine ⟨?_, ?_⟩
  · generalize (x.state (t + 1)).wm = next at hmove ⊢
    cases hmove with
    | stall => rfl
    | stallLast _ hend => exact absurd hend hshort
    | accept _ _ haccept | acceptLast _ _ haccept =>
        exact absurd (hwait.symm.trans haccept) (by decide)
    | empty h | take h | clear h | unused h => simp [hstate] at h
  · rw [x.state_succ]
    show (FIFO.words (step _ _).fi).length = _
    rw [hwords, pops_eq (x.iResetN t), hstate]
    cases pushes (x.input t) (x.state t) <;> simp

/-- Three cycles later another word is stored. -/
theorem Filling.succ {k : ℕ} (h : x.Filling k t) (hlatency : x.FixedLatency) (hroom : k < 128)
    (hlong : 4 * (k + 2) ≠ x.length.toNat)
    (hread : ∀ u, (x.input u).iRMWaitrequest = false)
    (hwrite : ∀ u < t + 3, (x.input u).iWMWaitrequest = true) : x.Filling (k + 1) (t + 3) := by
  have hlt := h.started
  have hempty : FIFO.ffAlmostfull (x.state t).fi = false := by
    rw [Bool.eq_false_iff, Ne, FIFO.ffAlmostfull_iff, h.words]
    omega
  have hpush := pushes_of_room hlatency h.valid hempty
  -- the word in flight enters and the reader leaves state 0
  have hone : (x.state (t + 1)).rm.state = 1#2 := by
    rw [state_of_zero hlt h.reader, hempty]
    rfl
  have hreadsOne : (x.ledger (t + 1)).reads.length = k + 2 := by
    simp [reads_succ hlt, h.reader, h.reads]
  obtain ⟨hwmOne, hwordsOne⟩ := held_up_succ hlt h.writer h.short (hwrite t (by omega))
  -- the next read is issued
  have htwo : (x.state (t + 2)).rm.state = 2#2 := by
    rw [state_of_one (by omega) hone, hreadsOne, if_neg hlong]
  have hreadsTwo : (x.ledger (t + 2)).reads.length = k + 2 := by
    simp [reads_succ (show x.start < t + 1 by omega), hone, hreadsOne]
  obtain ⟨hwmTwo, hwordsTwo⟩ := held_up_succ (x := x) (t := t + 1) (by omega)
    (by rw [hwmOne, h.writer]) (by rw [hwmOne]; exact h.short) (hwrite (t + 1) (by omega))
  -- it is accepted at once, to be answered in the cycle after
  have haccept : acceptsRead (x.input (t + 2)) (x.state (t + 2)) = true := by
    simp [acceptsRead, (walking (show x.start < t + 2 by omega)).read, htwo, hread]
  obtain ⟨hwmThree, hwordsThree⟩ := held_up_succ (x := x) (t := t + 2) (by omega)
    (by rw [hwmTwo, hwmOne, h.writer]) (by rw [hwmTwo, hwmOne]; exact h.short)
    (hwrite (t + 2) (by omega))
  exact {
    started := by omega
    reader := state_after_accepts haccept
    reads := by simp [reads_succ (show x.start < t + 2 by omega), htwo, hread, hreadsTwo]
    valid := by rw [hlatency.2, haccept]
    writer := by rw [hwmThree, hwmTwo, hwmOne, h.writer]
    short := by rw [hwmThree, hwmTwo, hwmOne]; exact h.short
    words := by
      have hpushOne : pushes (x.input (t + 1)) (x.state (t + 1)) = false := by
        simp [pushes_eq (x.iResetN _), hone]
      have hpushTwo : pushes (x.input (t + 2)) (x.state (t + 2)) = false := by
        simp [pushes_eq (x.iResetN _), htwo]
      rw [hwordsThree, hpushTwo, hwordsTwo, hpushOne, hwordsOne, hpush, h.words]
      rfl }

/-- A writer held up long enough in a transfer of more than 129 words costs a word. -/
theorem Filling.drops (h : x.Filling 0 t) (hlatency : x.FixedLatency)
    (hlong : 4 * 129 < x.length.toNat) (hread : ∀ u, (x.input u).iRMWaitrequest = false)
    (hwrite : ∀ u < t + 3 * 128, (x.input u).iWMWaitrequest = true) : ¬ x.Lossless := by
  have hfilling : ∀ k ≤ 128, x.Filling k (t + 3 * k) := by
    intro k
    induction k with
    | zero => exact fun _ => h
    | succ k ih =>
        intro hle
        exact (ih (by omega)).succ hlatency (by omega) (by omega) hread
          fun u hu => hwrite u (by omega)
  have hfull := hfilling 128 le_rfl
  intro hlossless
  have hpush := Run.lossless_iff_pushes.mp hlossless _ hfull.valid
  rw [pushes_eq (x.iResetN _), (FIFO.ffAlmostfull_iff _).mpr hfull.words] at hpush
  simp at hpush

/-- Two hundred words, with the destination slave busy during the first four hundred cycles. -/
def backedUp : Transfer :=
  Bench.transfer id 0x1000 0x8000 800 (fun _ => false) (fun t => t < 400)

/-- The FIFO fills up to its mark and a word returned after that is dropped. -/
theorem word_dropped_at_mark :
    backedUp.FixedLatency ∧ backedUp.length.toNat = 4 * 200 ∧ ¬ backedUp.Lossless := by
  have hlength : backedUp.length.toNat = 4 * 200 := by
    rw [backedUp, Bench.transfer_length]
    rfl
  have hfilling : backedUp.Filling 0 11 :=
    ⟨by decide, by decide +kernel, by decide +kernel, by decide +kernel, by decide +kernel,
      by unfold WriteMaster.AtEnd; decide +kernel, by decide +kernel⟩
  refine ⟨Bench.transfer_fixed_latency, hlength, ?_⟩
  refine hfilling.drops Bench.transfer_fixed_latency (by omega) (fun _ => rfl) fun u hu => ?_
  exact decide_eq_true (show u < 400 by omega)

end Transfer

end CE213Lab.DMA
