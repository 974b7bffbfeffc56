import CE213Lab.DMA.LastWord
import CE213Lab.DMA.Latency

/-!
# Completion

With a read slave of latency one and an unstalled destination slave, every word read passes the
FIFO, and once the whole length has been read the write side drains and reports `oWM_done`, which
the handshake turns into the DONE status. A length of zero, or one that is not a multiple of four,
never meets the writer's end test. `ends_iff` says exactly which transfers leave BUSY.
-/

namespace CE213Lab.DMA

open Foundation DMAFinal
open ControlSlave (Phase)

/-- The read slave accepts every command in its first cycle. -/
def Run.ReadsUnstalled (r : Run) : Prop :=
  ∀ t, (r.input t).iRMWaitrequest = false

namespace Transfer

variable {x : Transfer} {t u : ℕ}

/-! ## Words on their way -/

theorem lossless_of_unstalled (hlatency : x.FixedLatency) (hwait : x.WritesUnstalled) :
    x.Lossless := by
  refine Run.lossless_iff_pushes.mpr fun t hvalid => pushes_of_room hlatency hvalid ?_
  obtain ⟨a, ⟨hlt, haccept, _⟩, _⟩ := in_step_of_fixed_latency hlatency hvalid
  exact (paced hlatency.conformant hwait
    ((reading_of_accepts haccept).1.trans hlt)).not_full

/-- An unstalled write side is never left with a stalled last word. -/
theorem moving_or_finished (h : x.Conformant) (hwait : x.WritesUnstalled) (hlt : x.start < t) :
    Moving x.writeStart x.length (x.state t) (x.ledger t) ∨
      Finished x.writeStart x.length (x.state t) (x.ledger t) := by
  rcases stage_or_last_stalled h hlt with hm | hf | ⟨u, _, hs⟩
  · exact .inl hm
  · exact .inr hf
  · have hstall := hs.2
    rw [hwait u] at hstall
    exact absurd hstall Bool.false_ne_true

/-- A writer in state 0 takes a word that waits for it. -/
theorem takes_of_waiting (hlt : x.start < t) (hstate : (x.state t).wm.state = 0#2)
    (hwords : FIFO.words (x.state t).fi ≠ []) : (x.state (t + 1)).wm.state = 1#2 := by
  have hmove := wm_succ hlt
  generalize (x.state (t + 1)).wm = next at hmove ⊢
  cases hmove with
  | empty _ hempty => exact absurd ((empty_iff (x.iResetN t)).mp hempty) hwords
  | take => rfl
  | stall h | accept h | stallLast h | acceptLast h | clear h | unused h => simp [hstate] at h

/-- When the whole length has entered the FIFO, a writer in state 0 still has a word to take. -/
theorem waiting_of_all_pushed (hmoving : Moving x.writeStart x.length (x.state t) (x.ledger t))
    (hpos : 0 < x.length.toNat) (hall : 4 * (x.ledger t).pushed.length = x.length.toNat)
    (hstate : (x.state t).wm.state = 0#2) : FIFO.words (x.state t).fi ≠ [] := by
  intro hwords
  have hpushed := hmoving.length_pushed
  simp only [hmoving.write, hstate, hwords] at hpushed
  have hwritten : (x.ledger t).writes.length = (x.ledger t).pushed.length := by
    simpa using hpushed.symm
  refine hmoving.unfinished (by omega) ?_
  rw [hmoving.address, hmoving.last, eq_comm, strideAt_eq_end, Nat.mod_eq_of_lt (by omega)]
  omega

/-- The cycles the write side still needs once everything has entered the FIFO, at most. -/
def remaining (x : Transfer) (t : ℕ) : ℕ :=
  2 * ((x.ledger t).pushed.length - (x.ledger t).writes.length) +
    if (x.state t).wm.state = 0#2 then 1 else 0

/-- The write side drains. -/
theorem drains (h : x.Conformant) (hwait : x.WritesUnstalled) (hpos : 0 < x.length.toNat) :
    LeadsTo
      (fun t => x.start < t ∧ Moving x.writeStart x.length (x.state t) (x.ledger t) ∧
        4 * (x.ledger t).pushed.length = x.length.toNat)
      (fun t => x.start < t ∧ Finished x.writeStart x.length (x.state t) (x.ledger t)) := by
  refine LeadsTo.of_measure x.remaining fun n => .of_next ?_
  intro t ⟨⟨hlt, hmoving, hall⟩, hmeasure⟩
  have hpushed : (x.ledger (t + 1)).pushed = (x.ledger t).pushed := by
    rw [x.ledger_succ, record_pushed (x.iResetN t), pushes_eq_false h hall]
    simp
  rcases moving_succ h hlt hmoving with ⟨_, hm⟩ | ⟨_, _, hf⟩ | ⟨_, hstall, _⟩
  · refine .inr ⟨⟨by omega, hm, by rw [hpushed, hall]⟩, ?_⟩
    rw [← hmeasure, remaining, remaining, hpushed]
    rcases hmoving.state with hstate | hstate
    · -- the word taken is presented, and nothing is written meanwhile
      have hnext := takes_of_waiting hlt hstate
        (waiting_of_all_pushed hmoving hpos hall hstate)
      have hwrites : (x.ledger (t + 1)).writes = (x.ledger t).writes := by
        simp [x.ledger_succ, record, acceptsWrite, hmoving.write, hstate]
      simp [hnext, hstate, hwrites]
    · -- the word presented is written
      have hwrites := writes_succ_of_write (x := x) (t := t) (by simp [hmoving.write, hstate])
      have hlength := hmoving.length_pushed
      simp only [hmoving.write, hstate, beq_self_eq_true, if_true] at hlength
      simp only [hwait t, Bool.false_eq_true, if_false] at hwrites
      have hbusy : ¬ (x.state t).wm.state = 0#2 := by simp [hstate]
      rw [hwrites, if_neg hbusy]
      split <;> omega
  · exact .inl ⟨by omega, hf⟩
  · simp [hwait t] at hstall

/-- A transfer of at least one word finishes. -/
theorem exists_finished (hlatency : x.FixedLatency) (hwait : x.WritesUnstalled)
    (hfair : x.ReadsFair) (hpos : 0 < x.length.toNat) (hdvd : 4 ∣ x.length.toNat) :
    ∃ t, x.start < t ∧ Finished x.writeStart x.length (x.state t) (x.ledger t) := by
  obtain ⟨t, hlt, hreads⟩ := reads_reach (n := x.length.toNat / 4) hfair
    (fun t hlt => (paced hlatency.conformant hwait hlt).not_full) (fun m hm => by omega)
  have hall : 4 * (x.ledger (t + 1)).pushed.length = x.length.toNat := by
    rw [lossless_of_unstalled hlatency hwait, hlatency.returned_succ, hreads]
    omega
  have hlater : x.start < t + 1 := by omega
  rcases moving_or_finished hlatency.conformant hwait hlater with hm | hf
  · obtain ⟨u, _, hfinished⟩ := drains hlatency.conformant hwait hpos (t + 1) ⟨hlater, hm, hall⟩
    exact ⟨u, hfinished⟩
  · exact ⟨t + 1, hlater, hf⟩

/-! ## The report -/

/-- `oWM_done` brings the DONE status about. -/
theorem exists_done (hlt : x.start < t) (hdone : (x.state t).wm.oWMDone = true) :
    ∃ T, x.phase T = .done := by
  have hrank := phase_after hlt
  have hafter : 3 ≤ (x.phase (t + 1)).rank := by
    rw [x.phase_succ, hdone]
    cases hp : x.phase t <;> simp [hp, Phase.rank, Phase.next] at hrank ⊢
  obtain ⟨T, _, hT⟩ := Run.visited (r := x.toRun) (p := .done) (by decide) hafter
  exact ⟨T, hT⟩

/-- Once finished, always finished. -/
theorem finished_later (h : x.Conformant) (hlt : x.start < t) (hle : t ≤ u)
    (hf : Finished x.writeStart x.length (x.state t) (x.ledger t)) :
    Finished x.writeStart x.length (x.state u) (x.ledger u) := by
  induction u, hle using Nat.le_induction with
  | base => exact hf
  | succ u hle ih => exact (finished_succ h (by omega) ih).1

/-- An unstalled write side is finished in the cycle of the DONE status and ever after. -/
theorem finished_from_done (h : x.Conformant) (hwait : x.WritesUnstalled)
    (hdone : x.phase t = .done) (hle : t ≤ u) :
    Finished x.writeStart x.length (x.state u) (x.ledger u) := by
  obtain ⟨v, hlt, hv⟩ := Run.done_of_rank (r := x.toRun) (t := t) (by simp [hdone, Phase.rank])
  have hstarted : x.start < v := by
    by_contra hge
    simp [(writer_idle h (Nat.le_of_not_lt hge)).done] at hv
  rcases moving_or_finished h hwait hstarted with hm | hf
  · simp [hm.done] at hv
  · exact finished_later h hstarted (by omega) hf

/-! ## Leaving BUSY -/

/-- Some time after the start pulse the status stops being BUSY, for good. -/
def Ends (x : Transfer) : Prop :=
  ∃ T, x.start < T ∧ ∀ t, T ≤ t → (x.state t).control.status ≠ 2#32

/-- A length that is zero or not a multiple of four never meets the end test of the writer. -/
theorem moving_forever (h : x.Conformant)
    (hunmet : ¬ (0 < x.length.toNat ∧ 4 ∣ x.length.toNat)) (hlt : x.start < t) :
    Moving x.writeStart x.length (x.state t) (x.ledger t) := by
  induction t, hlt using Nat.le_induction with
  | base => exact moving_start h
  | succ t hle ih =>
      have hnever : ¬ LastPresented (x.state t) := by
        intro hlast
        have hend := (ih.last_word hlast (pushed_bound h)).1
        exact hunmet ⟨by omega, ⟨_, hend.symm⟩⟩
      rcases moving_succ h hle ih with ⟨_, hm⟩ | ⟨hlast, _⟩ | ⟨hlast, _⟩
      · exact hm
      · exact absurd hlast hnever
      · exact absurd hlast hnever

/-- Such a transfer stays BUSY for ever, whatever the stalls and the latency. -/
theorem busy_forever (h : x.Conformant)
    (hunmet : ¬ (0 < x.length.toNat ∧ 4 ∣ x.length.toNat)) (hlt : x.start < t) :
    (x.state t).control.status = 2#32 := by
  have hnever : ∀ u, (x.state u).wm.oWMDone = false := by
    intro u
    rcases Nat.lt_or_ge x.start u with hlt | hge
    · exact (moving_forever h hunmet hlt).done
    · exact (writer_idle h hge).done
  have hrank : ¬ 3 ≤ (x.phase t).rank := by
    intro h'
    obtain ⟨u, _, hdone⟩ := Run.done_of_rank h'
    simp [hnever u] at hdone
  have hafter := phase_after hlt
  rw [(x.toRun.in_phase t).status]
  cases hp : x.phase t <;> simp [hp, Phase.rank, Phase.status] at hrank hafter ⊢

/-- With latency one and no stalls, a transfer leaves BUSY exactly when its length is a positive
multiple of four. -/
theorem ends_iff (hlatency : x.FixedLatency) (hread : x.ReadsUnstalled)
    (hwait : x.WritesUnstalled) :
    x.Ends ↔ 0 < x.length.toNat ∧ 4 ∣ x.length.toNat := by
  refine ⟨?_, ?_⟩
  · intro ⟨T, hlt, hleft⟩
    by_contra hunmet
    exact hleft T le_rfl (busy_forever hlatency.conformant hunmet hlt)
  · intro ⟨hpos, hdvd⟩
    obtain ⟨t, hlt, hf⟩ := exists_finished hlatency hwait (fun t => ⟨t, le_rfl, hread t⟩) hpos hdvd
    obtain ⟨T, hT⟩ := exists_done hlt hf.done
    refine ⟨T, start_lt (by simp [hT, Phase.rank]), fun u hle => ?_⟩
    have hrank := x.toRun.rank_le hle
    rw [(x.toRun.in_phase u).status]
    cases hp : x.phase u <;> simp [hp, hT, Phase.rank, Phase.status] at hrank ⊢

/-- The transfer of one word ends. -/
theorem one_word_ends :
    (Bench.transfer id 0x1000 0x2000 4 (fun _ => false) (fun _ => false)).Ends :=
  (ends_iff Bench.transfer_fixed_latency (fun _ => rfl) (fun _ => rfl)).mpr
    (by rw [Bench.transfer_length]; decide)

/-- A transfer of no bytes. -/
def emptyCopy : Transfer :=
  Bench.transfer id 0x1000 0x2000 0 (fun _ => false) (fun _ => false)

/-- A transfer of length zero stays BUSY. -/
theorem empty_never_ends :
    emptyCopy.FixedLatency ∧ emptyCopy.ReadsUnstalled ∧ emptyCopy.WritesUnstalled ∧
      emptyCopy.length = 0 ∧ ¬ emptyCopy.Ends := by
  have hlength : emptyCopy.length = 0 := Bench.transfer_length
  refine ⟨Bench.transfer_fixed_latency, fun _ => rfl, fun _ => rfl, hlength, ?_⟩
  intro ⟨T, hlt, hleft⟩
  refine hleft T le_rfl (busy_forever Bench.transfer_fixed_latency.conformant ?_ hlt)
  rw [hlength]
  decide

end Transfer

end CE213Lab.DMA
