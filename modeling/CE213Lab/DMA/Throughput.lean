import CE213Lab.DMA.Completion

/-!
# The timing of an unstalled transfer

With latency one and no stalls the engine keeps a beat of three cycles: state 1 of the reader, the
read, and the word that comes back, while the writer takes and writes the word before. `Beat` is
what the registers are like at the beginning of a beat. An idle reader alternates between its
states 0 and 1 from reset on, so the first beat depends on whether the cycle of the start pulse is
even or odd; everything after it is fixed to the cycle.
-/

namespace CE213Lab.DMA

open Foundation DMAFinal
open ControlSlave (Phase)

namespace Transfer

variable {x : Transfer} {k t N : ℕ}

/-- The beginning of the beat in which word `k` is read and word `k - 1` is written. -/
structure Beat (x : Transfer) (k t : ℕ) : Prop where
  started : x.start < t
  reader : (x.state t).rm.state = 1#2
  reads : (x.ledger t).reads.length = k
  returned : (x.ledger t).returned.length = k
  moving : Moving x.writeStart x.length (x.state t) (x.ledger t)
  writer : (x.state t).wm.state = 0#2
  writes : (x.ledger t).writes.length = k - 1

/-! ## Before the first beat -/

/-- Up to the start pulse the reader is in state 0 in even cycles and in state 1 in odd ones. -/
theorem idle_state (h : x.Conformant) (hle : t ≤ x.start) :
    (x.state t).rm.state = if t % 2 = 0 then 0#2 else 1#2 := by
  induction t with
  | zero =>
      rw [x.toRun.cleared.reader]
      rfl
  | succ t ih =>
      have hstate := ih (by omega)
      have hidle := reader_idle (x := x) (t := t) (by omega)
      have hempty : FIFO.ffAlmostfull (fifo (x.input t) (x.state t)) = false := by
        rw [fifo_eq (x.iResetN t), Bool.eq_false_iff, Ne, FIFO.ffAlmostfull_iff,
          (nothing_before h (show t ≤ x.start by omega)).2.2]
        decide
      obtain ⟨next, hmove, hnext⟩ := rm_move (x.iResetN t) (oStart_before (x := x) hle)
      rw [x.state_succ]
      show (step _ _).rm.state = _
      rw [hnext]
      rcases Nat.mod_two_eq_zero_or_one t with heven | hodd
      · rw [if_pos heven] at hstate
        rw [if_neg (by omega)]
        cases hmove with
        | leave => rfl
        | full _ hfull => exact absurd (hempty.symm.trans hfull) Bool.false_ne_true
        | finish h | issue h | stall h | accept h | unused h => simp [hstate] at h
      · rw [if_neg (by omega)] at hstate
        rw [if_pos (by omega)]
        cases hmove with
        | finish => rfl
        | issue _ hne => exact absurd hidle.address hne
        | full h | leave h | stall h | accept h | unused h => simp [hstate] at h

/-- The start pulse loads the addresses and leaves the state of the reader as it is. -/
theorem state_after_start :
    (x.state (x.start + 1)).rm.state = (x.state x.start).rm.state := by
  rw [x.state_succ]
  show (ReadMaster.walk _ _).state = _
  simp [ReadMaster.walk, rmInputs, x.iResetN, x.oStart]

theorem reads_after_start : (x.ledger (x.start + 1)).reads.length = 0 := by
  have hidle := reader_idle (x := x) le_rfl
  simp [x.ledger_succ, record, acceptsRead, hidle.read, hidle.reads]

/-- Nothing having entered the FIFO, a moving writer is free. -/
theorem writer_free_of_nothing (hm : Moving x.writeStart x.length (x.state t) (x.ledger t))
    (hpushed : (x.ledger t).pushed.length = 0) :
    (x.state t).wm.state = 0#2 ∧ (x.ledger t).writes.length = 0 ∧
      FIFO.words (x.state t).fi = [] := by
  have hlength := hm.length_pushed
  rw [hpushed, hm.write] at hlength
  refine ⟨hm.state.resolve_right fun hone => ?_, by omega, List.length_eq_zero_iff.mp (by omega)⟩
  simp [hone] at hlength
  omega

/-- The first beat begins two cycles after an even start pulse, one cycle after an odd one. -/
theorem first_beat (hlatency : x.FixedLatency) (hwait : x.WritesUnstalled) :
    x.Beat 0 (x.start + 2 - x.start % 2) := by
  have h := hlatency.conformant
  have hpushed := lossless_of_unstalled hlatency hwait
  have hreturned := hlatency.returned_succ
  have hmoving := moving_start h
  have hreads := reads_after_start (x := x)
  have hzero : (x.ledger x.start).reads.length = 0 := by simp [(reader_idle le_rfl).reads]
  have hstate := idle_state h (le_refl x.start)
  rw [← state_after_start] at hstate
  have hnothing : (x.ledger (x.start + 1)).returned.length = 0 := by rw [hreturned, hzero]
  rcases Nat.mod_two_eq_zero_or_one x.start with heven | hodd
  · -- the reader spends one more cycle in state 0
    rw [if_pos heven] at hstate
    rw [heven]
    have hlt : x.start < x.start + 1 := Nat.lt_succ_self _
    obtain ⟨hfree, _, _⟩ := writer_free_of_nothing hmoving (by rw [hpushed, hnothing])
    have hnext := (moving_succ h hlt hmoving).resolve_right fun hlast => by
      rcases hlast with ⟨hlast, _⟩ | ⟨hlast, _⟩ <;> simp [hlast.1] at hfree
    have hlater : (x.ledger (x.start + 2)).returned.length = 0 := by rw [hreturned, hreads]
    obtain ⟨hfree', hwrites, _⟩ := writer_free_of_nothing hnext.2 (by rw [hpushed, hlater])
    exact {
      started := by omega
      reader := by
        show (x.state (x.start + 1 + 1)).rm.state = _
        rw [state_of_zero hlt hstate, (paced h hwait hlt).not_full]
        rfl
      reads := by
        show (x.ledger (x.start + 1 + 1)).reads.length = _
        simp [reads_succ hlt, hstate, hreads]
      returned := hlater
      moving := hnext.2
      writer := hfree'
      writes := hwrites }
  · rw [if_neg (by omega)] at hstate
    have hcycle : x.start + 2 - x.start % 2 = x.start + 1 := by omega
    obtain ⟨hfree, hwrites, _⟩ := writer_free_of_nothing hmoving (by rw [hpushed, hnothing])
    rw [hcycle]
    exact ⟨Nat.lt_succ_self _, hstate, hreads, hnothing, hmoving, hfree, hwrites⟩

/-! ## One beat -/

/-- How many words wait for the writer: none in the first beat, one in every later one. -/
theorem Beat.waiting (h : x.Beat k t) (hlossless : x.Lossless) :
    (FIFO.words (x.state t).fi).length = k - (k - 1) := by
  have hlength := h.moving.length_pushed
  rw [hlossless t, h.returned, h.writes, h.moving.write, h.writer] at hlength
  simp only [show (0#2 == 1#2) = false from rfl, Bool.false_eq_true, if_false] at hlength
  omega

/-- The second cycle of a beat: the writer presents the word that was waiting, if there was one. -/
theorem Beat.presents (h : x.Beat k t) (hlatency : x.FixedLatency) (hlossless : x.Lossless) :
    (x.state (t + 1)).wm.state = (if k = 0 then 0#2 else 1#2) ∧
      (x.ledger (t + 1)).writes.length = k - 1 ∧ (x.ledger (t + 1)).reads.length = k ∧
      Moving x.writeStart x.length (x.state (t + 1)) (x.ledger (t + 1)) := by
  have hwaiting := h.waiting hlossless
  have hwrites : (x.ledger (t + 1)).writes = (x.ledger t).writes := by
    simp [x.ledger_succ, record, acceptsWrite, h.moving.write, h.writer]
  refine ⟨?_, by rw [hwrites, h.writes], by simp [reads_succ h.started, h.reader, h.reads], ?_⟩
  · by_cases hzero : k = 0
    · have hempty : FIFO.words (x.state t).fi = [] :=
        List.length_eq_zero_iff.mp (by omega)
      rw [if_pos hzero, x.state_succ]
      show (step _ _).wm.state = _
      rw [wm_step_of_empty (x.iResetN t) (oStart_after h.started) h.writer hempty, h.writer]
    · rw [if_neg hzero]
      refine takes_of_waiting h.started h.writer fun hempty => ?_
      rw [hempty, List.length_nil] at hwaiting
      omega
  · refine ((moving_succ hlatency.conformant h.started h.moving).resolve_right ?_).2
    have hfree := h.writer
    rintro (⟨hlast, _⟩ | ⟨hlast, _⟩) <;> simp [hlast.1] at hfree

/-- The third cycle of a beat that is not the last: the word presented has been written, and the
next one is read. -/
theorem Beat.writes_word (h : x.Beat k t) (hlatency : x.FixedLatency) (hlossless : x.Lossless)
    (hread : x.ReadsUnstalled) (hwait : x.WritesUnstalled)
    (hlength : x.length.toNat = 4 * N) (hlt : k < N) :
    (x.state (t + 2)).wm.state = 0#2 ∧ (x.ledger (t + 2)).writes.length = k ∧
      Moving x.writeStart x.length (x.state (t + 2)) (x.ledger (t + 2)) ∧
      (x.state (t + 2)).rm.state = 0#2 ∧ (x.ledger (t + 2)).reads.length = k + 1 ∧
      FIFO.words (x.state (t + 2)).fi = [] := by
  obtain ⟨hwm, hwrites, hreads, hmoving⟩ := h.presents hlatency hlossless
  have hstart : x.start < t + 1 := h.started.trans (Nat.lt_succ_self t)
  have hstate : (x.state (t + 1)).rm.state = 2#2 := by
    rw [state_of_one h.started h.reader, h.reads, if_neg (by omega)]
  have hnext : Moving x.writeStart x.length (x.state (t + 2)) (x.ledger (t + 2)) := by
    refine ((moving_succ hlatency.conformant hstart hmoving).resolve_right ?_).2
    intro hlast
    have hpresented : LastPresented (x.state (t + 1)) := by
      rcases hlast with ⟨hlast, _⟩ | ⟨hlast, _⟩ <;> exact hlast
    have hend := (hmoving.last_word hpresented (pushed_bound hlatency.conformant)).1
    have hone := hpresented.1
    split at hwm
    · simp [hwm] at hone
    · omega
  have hcount : (x.ledger (t + 2)).writes.length = k := by
    by_cases hzero : k = 0
    · rw [if_pos hzero] at hwm
      show (x.ledger (t + 1 + 1)).writes.length = k
      rw [x.ledger_succ]
      simp [record, acceptsWrite, hmoving.write, hwm, hwrites, hzero]
    · rw [if_neg hzero] at hwm
      show (x.ledger (t + 1 + 1)).writes.length = k
      rw [writes_succ_of_write (by simp [hmoving.write, hwm]), hwrites, hwait]
      simp only [Bool.false_eq_true, if_false]
      omega
  -- the words written are all that have come back, so none waits and none is presented
  have hpushed := hnext.length_pushed
  rw [hlossless, hlatency.returned_succ, hreads, hcount] at hpushed
  have hwrite : (x.state (t + 2)).wm.oWMWrite = false := by
    by_contra hwrite
    rw [if_pos (by simpa using hwrite)] at hpushed
    omega
  refine ⟨?_, hcount, hnext, ?_, ?_, ?_⟩
  · refine hnext.state.resolve_right fun hone => ?_
    rw [hnext.write, hone] at hwrite
    exact absurd hwrite (by decide)
  · show (x.state (t + 1 + 1)).rm.state = _
    rw [state_of_two hstart hstate, hread]
    rfl
  · show (x.ledger (t + 1 + 1)).reads.length = _
    simp [reads_succ hstart, hstate, hread (t + 1), hreads]
  · rw [hwrite] at hpushed
    exact List.length_eq_zero_iff.mp (by simpa using hpushed)

/-- A beat takes three cycles. -/
theorem Beat.succ (h : x.Beat k t) (hlatency : x.FixedLatency) (hread : x.ReadsUnstalled)
    (hwait : x.WritesUnstalled) (hlength : x.length.toNat = 4 * N) (hlt : k < N) :
    x.Beat (k + 1) (t + 3) := by
  have hlossless := lossless_of_unstalled hlatency hwait
  obtain ⟨hwm, hwrites, hmoving, hstate, hreads, hempty⟩ :=
    h.writes_word hlatency hlossless hread hwait hlength hlt
  have hstart : x.start < t + 2 := h.started.trans (by omega)
  have hsame : (x.state (t + 2 + 1)).wm = (x.state (t + 2)).wm := by
    rw [x.state_succ]
    exact wm_step_of_empty (x.iResetN _) (oStart_after hstart) hwm hempty
  exact {
    started := by omega
    reader := by
      show (x.state (t + 2 + 1)).rm.state = _
      rw [state_of_zero hstart hstate, (paced hlatency.conformant hwait hstart).not_full]
      rfl
    reads := by
      show (x.ledger (t + 2 + 1)).reads.length = _
      simp [reads_succ hstart, hstate, hreads]
    returned := by
      show (x.ledger (t + 2 + 1)).returned.length = _
      rw [hlatency.returned_succ, hreads]
    moving := by
      refine ((moving_succ hlatency.conformant hstart hmoving).resolve_right ?_).2
      rintro (⟨hlast, _⟩ | ⟨hlast, _⟩) <;> simp [hlast.1] at hwm
    writer := hsame ▸ hwm
    writes := by
      show (x.ledger (t + 2 + 1)).writes.length = _
      rw [x.ledger_succ]
      simp [record, acceptsWrite, hmoving.write, hwm, hwrites] }

/-- In the last beat the last word is presented and written, and nothing has been reported
before. -/
theorem Beat.finishes (h : x.Beat N t) (hlatency : x.FixedLatency) (hwait : x.WritesUnstalled)
    (hlength : x.length.toNat = 4 * N) (hpos : 0 < N) :
    Finished x.writeStart x.length (x.state (t + 2)) (x.ledger (t + 2)) ∧
      Moving x.writeStart x.length (x.state (t + 1)) (x.ledger (t + 1)) := by
  obtain ⟨hwm, hwrites, _, hmoving⟩ :=
    h.presents hlatency (lossless_of_unstalled hlatency hwait)
  rw [if_neg (by omega)] at hwm
  have hend : WriteMaster.AtEnd (x.state (t + 1)).wm := by
    show _ = _ + BitVec.ofNat 32 4
    rw [hmoving.last, hmoving.address, strideAt_succ, strideAt_eq_end, hwrites, hlength]
    have hsmall := x.length.isLt
    rw [Nat.mod_eq_of_lt (by omega)]
    omega
  have hstart : x.start < t + 1 := h.started.trans (Nat.lt_succ_self t)
  rcases moving_succ hlatency.conformant hstart hmoving with ⟨hlast, _⟩ | ⟨_, _, hf⟩ | ⟨_, hs, _⟩
  · exact absurd ⟨hwm, hend⟩ hlast
  · exact ⟨hf, hmoving⟩
  · exact absurd ((hwait _).symm.trans hs) Bool.false_ne_true

/-! ## Over a transfer -/

/-- The cycle in which the first beat begins. -/
def firstBeat (x : Transfer) : ℕ :=
  x.start + 2 - x.start % 2

/-- Beat `k` begins `3 * k` cycles after the first. -/
theorem beat (hlatency : x.FixedLatency) (hread : x.ReadsUnstalled) (hwait : x.WritesUnstalled)
    (hlength : x.length.toNat = 4 * N) (hle : k ≤ N) : x.Beat k (x.firstBeat + 3 * k) := by
  induction k with
  | zero => exact first_beat hlatency hwait
  | succ k ih => exact (ih (by omega)).succ hlatency hread hwait hlength hle

/-- The writer raises `oWM_done` two cycles into the last beat, and the handshake reports DONE in
the cycle after. -/
theorem phase_of_last_beat (h : x.Beat N t) (hlatency : x.FixedLatency)
    (hwait : x.WritesUnstalled) (hlength : x.length.toNat = 4 * N) (hpos : 0 < N) :
    x.phase (t + 3) = .done := by
  have hconformant := hlatency.conformant
  obtain ⟨hf, hmoving⟩ := h.finishes hlatency hwait hlength hpos
  have hbefore : ¬ 3 ≤ (x.phase (t + 2)).rank := by
    intro hrank
    obtain ⟨u, hu, hdone⟩ := Run.done_of_rank hrank
    have hlt : x.start < u := by
      by_contra hge
      simp [(writer_idle hconformant (Nat.le_of_not_lt hge)).done] at hdone
    rcases moving_or_finished hconformant hwait hlt with hm | hf'
    · simp [hm.done] at hdone
    · have hlater := (finished_later hconformant hlt (show u ≤ t + 1 by omega) hf').done
      simp [hmoving.done] at hlater
  have hafter := phase_after (x := x) (t := t + 2) (h.started.trans (by omega))
  show x.phase (t + 2 + 1) = _
  rw [x.phase_succ, hf.done]
  cases hp : x.phase (t + 2) <;> simp [hp, Phase.rank, Phase.next] at hbefore hafter ⊢

/-- The number of writes accepted before each of the three cycles of a beat. -/
theorem writes_of_beat (hlatency : x.FixedLatency) (hread : x.ReadsUnstalled)
    (hwait : x.WritesUnstalled) (hlength : x.length.toNat = 4 * N) (hpos : 0 < N) {j : ℕ}
    (hj : j < 3) :
    (x.ledger (x.firstBeat + 3 * k + j)).writes.length = min N ((3 * k + j - 2) / 3) := by
  have hlossless := lossless_of_unstalled hlatency hwait
  have hlast := beat hlatency hread hwait hlength (le_refl N)
  obtain ⟨hf, _⟩ := hlast.finishes hlatency hwait hlength hpos
  have hcases : j = 0 ∨ j = 1 ∨ j = 2 := by omega
  rcases Nat.lt_trichotomy k N with hlt | rfl | hgt
  · have hbeat := beat hlatency hread hwait hlength hlt.le
    rcases hcases with rfl | rfl | rfl
    · have hwrites := hbeat.writes
      show (x.ledger (x.firstBeat + 3 * k)).writes.length = _
      omega
    · have hwrites := (hbeat.presents hlatency hlossless).2.1
      omega
    · have hwrites := (hbeat.writes_word hlatency hlossless hread hwait hlength hlt).2.1
      omega
  · rcases hcases with rfl | rfl | rfl
    · have hwrites := hlast.writes
      show (x.ledger (x.firstBeat + 3 * k)).writes.length = _
      omega
    · have hwrites := (hlast.presents hlatency hlossless).2.1
      omega
    · have hcomplete := hf.complete
      omega
  · have hlater := finished_later (u := x.firstBeat + 3 * k + j) hlatency.conformant
      (hlast.started.trans (by omega)) (by omega) hf
    have hcomplete := hlater.complete
    omega

/-- Without stalls a transfer of `N` words keeps to the cycle: from the second beat on one more word
has been written every three cycles, and DONE is reported in cycle `firstBeat + 3 * N + 3` and in
no other. -/
theorem keeps_schedule (hlatency : x.FixedLatency) (hread : x.ReadsUnstalled)
    (hwait : x.WritesUnstalled) (hlength : x.length.toNat = 4 * N) (hpos : 0 < N) :
    (∀ t, (x.ledger t).writes.length = min N ((t - (x.firstBeat + 2)) / 3)) ∧
      ∀ t, ControlSlave.done (x.state t).control = true ↔ t = x.firstBeat + 3 * N + 3 := by
  refine ⟨fun t => ?_, fun t => ?_⟩
  · rcases Nat.lt_or_ge t x.firstBeat with hlt | hge
    · have hfirst := (beat hlatency hread hwait hlength (Nat.zero_le N)).writes
      have hmono :=
        (Run.writes_mono (r := x.toRun) (show t ≤ x.firstBeat + 3 * 0 by omega)).length_le
      omega
    · obtain ⟨d, rfl⟩ := Nat.exists_eq_add_of_le hge
      have hsplit : d = 3 * (d / 3) + d % 3 := (Nat.div_add_mod d 3).symm
      have hwrites := writes_of_beat (k := d / 3) hlatency hread hwait hlength hpos
        (Nat.mod_lt d (by decide))
      rw [Nat.add_assoc, ← hsplit] at hwrites
      rw [hwrites]
      congr 2
      omega
  · have hdone := Run.done_iff.mpr
      (phase_of_last_beat (beat hlatency hread hwait hlength (le_refl N)) hlatency hwait hlength
        hpos)
    exact ⟨fun ht => Run.done_unique ht hdone, fun ht => ht ▸ hdone⟩

/-- Eight words take the first beat, eight times three cycles and three more. -/
theorem eight_words_on_schedule :
    let x := Bench.transfer id 0x1000 0x2000 32 (fun _ => false) (fun _ => false)
    (∀ t, (x.ledger t).writes.length = min 8 ((t - (x.firstBeat + 2)) / 3)) ∧
      ∀ t, ControlSlave.done (x.state t).control = true ↔ t = x.firstBeat + 3 * 8 + 3 :=
  keeps_schedule Bench.transfer_fixed_latency (fun _ => rfl) (fun _ => rfl)
    (by rw [Bench.transfer_length]; rfl) (by decide)

end Transfer

end CE213Lab.DMA
