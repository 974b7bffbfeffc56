import CE213Lab.DMA.Writer

/-!
# The stages of a transfer over a run

Every cycle after the start pulse of a transfer with a conformant read slave is in one of the four
stages of the write side. The stall pattern decides between them only in the cycle the last word
is first presented.
-/

namespace CE213Lab.DMA

open Foundation DMAFinal

/-- The stage of the write side. -/
inductive Stage (W L : Word) (s : State) (l : Ledger) : Prop where
  | moving (h : Moving W L s l)
  | finished (h : Finished W L s l)
  | stalled (h : Stalled W L s l)
  | stuck (h : Stuck W L s l)

/-- The writer before anything has entered the FIFO. -/
structure WriterIdle (s : WriteMaster.State) (writes : List (Word × Word)) : Prop where
  state : s.state = 0#2
  write : s.oWMWrite = false
  done : s.oWMDone = false
  writes : writes = []

/-- Up to the first start pulse of a run with a conformant read slave the writer is idle. -/
theorem Run.Conformant.writer_idle {r : Run} {t : ℕ} (h : r.Conformant)
    (hnone : ∀ u < t, (r.state u).control.oStart = false) :
    WriterIdle (r.state t).wm (r.ledger t).writes := by
  induction t with
  | zero =>
      rw [r.cleared.writer]
      exact ⟨rfl, rfl, rfl, rfl⟩
  | succ t ih =>
      have hidle := ih fun u hlt => hnone u (by omega)
      have hwords := (h.nothing_before fun u hlt => hnone u (Nat.lt_succ_of_lt hlt)).2.2
      have hwm : (r.state (t + 1)).wm = (r.state t).wm := by
        rw [r.state_succ]
        exact wm_step_of_empty (r.iResetN t) (hnone t (by omega)) hidle.state hwords
      rw [hwm]
      exact { hidle with
        writes := by simp [r.ledger_succ, record, acceptsWrite, hidle.write, hidle.writes] }

namespace Transfer

variable {x : Transfer} {t : ℕ}

/-- After the start pulse every edge is one of the writer's moves. -/
theorem wm_succ (hlt : x.start < t) :
    WriteMaster.Move (wmInputs (x.input t) (x.state t)) (x.state t).wm (x.state (t + 1)).wm := by
  rw [x.state_succ]
  exact wm_move (x.iResetN t) (oStart_after hlt)

theorem writer_idle (h : x.Conformant) (hle : t ≤ x.start) :
    WriterIdle (x.state t).wm (x.ledger t).writes :=
  h.writer_idle fun _ hlt => oStart_before (hlt.trans_le hle)

/-- The start pulse loads the write addresses of an idle writer. -/
theorem moving_start (h : x.Conformant) :
    Moving x.writeStart x.length (x.state (x.start + 1)) (x.ledger (x.start + 1)) := by
  have hidle := writer_idle h le_rfl
  have hnothing := nothing_before h (le_refl x.start)
  have hpush : pushes (x.input x.start) (x.state x.start) = false := by
    cases hpush : pushes (x.input x.start) (x.state x.start) with
    | false => rfl
    | true =>
        have := h x.start (valid_of_pushes (x.iResetN x.start) hpush)
        simp [(reader_idle le_rfl).reads] at this
  have hwm : (x.state (x.start + 1)).wm = { (x.state x.start).wm with
      oWMWriteaddress := x.writeStart
      wmLastwriteaddress := x.writeStart + x.length } := by
    rw [x.state_succ]
    simp [engine, step, WriteMaster.step, wmInputs, x.iResetN, x.oStart, writeStart, length]
  have hwords : FIFO.words (x.state (x.start + 1)).fi = [] := by
    rw [x.state_succ]
    exact words_step_eq_nil (x.iResetN x.start) (Run.stored x.start).bounded hnothing.2.2 hpush
  have hwrites : (x.ledger (x.start + 1)).writes = [] := by
    simp [x.ledger_succ, record, acceptsWrite, hidle.write, hidle.writes]
  have hpushed : (x.ledger (x.start + 1)).pushed = [] := by
    simp [x.ledger_succ, record, hpush, hnothing.1]
  constructor
  · constructor
    · simp [conveyor, Conveyor.entered, hwm, hwords, hwrites, hpushed, hidle.write]
    · simp [hwrites]
    · simp [hwm, hidle.write]
  · simp [hwm]
  · simp [hwm, hidle.done]
  · simp [hwm, hidle.state]
  · simp [hwm, hidle.state, hidle.write]
  · simp [hwm, hwrites]
  · simp [hwrites]

theorem pushed_bound (h : x.Conformant) (hdvd : 4 ∣ x.length.toNat) :
    4 * (x.ledger t).pushed.length ≤ x.length.toNat :=
  (Nat.mul_le_mul_left 4 (h.pushed_le t)).trans (reads_bound hdvd)

/-- One edge of a moving transfer. -/
theorem moving_succ (h : x.Conformant) (hlt : x.start < t)
    (hmoving : Moving x.writeStart x.length (x.state t) (x.ledger t)) :
    ¬ LastPresented (x.state t) ∧
        Moving x.writeStart x.length (x.state (t + 1)) (x.ledger (t + 1)) ∨
      LastPresented (x.state t) ∧ (x.input t).iWMWaitrequest = false ∧
        Finished x.writeStart x.length (x.state (t + 1)) (x.ledger (t + 1)) ∨
      LastPresented (x.state t) ∧ (x.input t).iWMWaitrequest = true ∧
        Stalled x.writeStart x.length (x.state (t + 1)) (x.ledger (t + 1)) := by
  rw [x.state_succ]
  exact hmoving.step (x.iResetN t) (oStart_after hlt) (Run.stored t).bounded (pushed_bound h)
    (pushes_eq_false h)

theorem finished_succ (h : x.Conformant) (hlt : x.start < t)
    (hfinished : Finished x.writeStart x.length (x.state t) (x.ledger t)) :
    Finished x.writeStart x.length (x.state (t + 1)) (x.ledger (t + 1)) ∧
      (x.ledger (t + 1)).writes = (x.ledger t).writes := by
  rw [x.state_succ]
  exact hfinished.step (x.iResetN t) (oStart_after hlt) (Run.stored t).bounded
    (pushes_eq_false h hfinished.all_pushed)

theorem stalled_succ (h : x.Conformant) (hlt : x.start < t)
    (hstalled : Stalled x.writeStart x.length (x.state t) (x.ledger t)) :
    Stuck x.writeStart x.length (x.state (t + 1)) (x.ledger (t + 1)) := by
  rw [x.state_succ]
  exact hstalled.step (x.iResetN t) (oStart_after hlt) (Run.stored t).bounded
    (pushes_eq_false h hstalled.all_pushed)

theorem stuck_succ (h : x.Conformant) (hlt : x.start < t)
    (hstuck : Stuck x.writeStart x.length (x.state t) (x.ledger t)) :
    Stuck x.writeStart x.length (x.state (t + 1)) (x.ledger (t + 1)) := by
  rw [x.state_succ]
  exact hstuck.step (x.iResetN t) (oStart_after hlt) (Run.stored t).bounded
    (pushes_eq_false h hstuck.complete)

/-- Every cycle after the start pulse is in a stage. -/
theorem stage (h : x.Conformant) (hlt : x.start < t) :
    Stage x.writeStart x.length (x.state t) (x.ledger t) := by
  induction t, hlt using Nat.le_induction with
  | base => exact .moving (moving_start h)
  | succ t hle ih =>
      cases ih with
      | moving hm =>
          rcases moving_succ h hle hm with ⟨_, h'⟩ | ⟨_, _, h'⟩ | ⟨_, _, h'⟩
          · exact .moving h'
          · exact .finished h'
          · exact .stalled h'
      | finished hf => exact .finished (finished_succ h hle hf).1
      | stalled hs => exact .stuck (stalled_succ h hle hs)
      | stuck hs => exact .stuck (stuck_succ h hle hs)

/-- Up to and including the first cycle of `oWM_done`, the write side conserves its words. -/
theorem conserved (h : x.Conformant) (hle : x.start ≤ t)
    (hbefore : ∀ u < t, (x.state u).wm.oWMDone = false) :
    Conserved x.writeStart (x.state t) (x.ledger t) := by
  have hstages : x.start < t → Moving x.writeStart x.length (x.state t) (x.ledger t) ∨
      Finished x.writeStart x.length (x.state t) (x.ledger t) ∨
      Stalled x.writeStart x.length (x.state t) (x.ledger t) := by
    intro hlt
    induction t, hlt using Nat.le_induction with
    | base => exact .inl (moving_start h)
    | succ t hlt ih =>
        have hdone := hbefore t (Nat.lt_succ_self t)
        rcases ih (by omega) (fun u hu => hbefore u (by omega)) with hm | hf | hs
        · exact (moving_succ h hlt hm).imp And.right (.imp (·.2.2) (·.2.2))
        · simp [hf.done] at hdone
        · simp [hs.done] at hdone
  rcases Nat.lt_or_ge x.start t with hlt | hge
  · rcases hstages hlt with hm | hf | hs
    · exact hm.toConserved
    · exact hf.toConserved
    · exact hs.toConserved
  · have hidle := writer_idle h hge
    have hnothing := nothing_before h hge
    exact ⟨by simp [conveyor, Conveyor.entered, hidle.write, hidle.writes, hnothing],
      by simp [hidle.writes], by simp [hidle.write]⟩

end Transfer

end CE213Lab.DMA
