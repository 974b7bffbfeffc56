import CE213Lab.DMA.DMAFinal
import CE213Lab.Foundation.Progress

/-!
# Runs of the engine from reset

A `Run` begins with the registers a reset edge leaves, the FIFO memory and the data latch holding
anything, and keeps `iReset_n` high. A `Transfer` is a run with the cycle of its start pulse, in
which the parameter registers give the start addresses and the length. `Conformant` and
`FixedLatency` are the two kinds of read slave.

The handshake's phase is a history variable of every run. Since phases only move forward, a run
has at most one start pulse: before it the handshake waits, after it `enable` stays set.
-/

namespace CE213Lab.DMA

open Foundation DMAFinal
open ControlSlave (Phase InPhase)

/-- An execution of the engine from reset, with `iReset_n` high from then on. -/
structure Run extends Execution engine where
  reset : ∃ i s, i.iResetN = false ∧ state 0 = step i s
  iResetN : ∀ t, (input t).iResetN = true

namespace Run

variable (r : Run)

/-- What has happened in the cycles before `t`. -/
def ledger : ℕ → Ledger :=
  r.history record Ledger.empty

/-- The phase of the handshake in cycle `t`. -/
def phase : ℕ → Phase :=
  r.history (fun _ s p => p.next (ControlSlave.go s.control) s.wm.oWMDone) .ready

@[simp] theorem ledger_zero : r.ledger 0 = Ledger.empty := rfl

theorem ledger_succ (t : ℕ) :
    r.ledger (t + 1) = record (r.input t) (r.state t) (r.ledger t) := rfl

@[simp] theorem phase_zero : r.phase 0 = .ready := rfl

theorem phase_succ (t : ℕ) : r.phase (t + 1) =
    (r.phase t).next (ControlSlave.go (r.state t).control) (r.state t).wm.oWMDone := rfl

/-! ## Read slaves -/

/-- The read slave answers only reads accepted in earlier cycles, each at most once. The `k`-th word
returned answers the `k`-th accepted read. -/
def Conformant : Prop :=
  ∀ t, (r.input t).iRMReaddatavalid = true →
    (r.ledger t).returned.length < (r.ledger t).reads.length

/-- The read slave answers every accepted read in the next cycle, and at no other time. -/
def FixedLatency : Prop :=
  (r.input 0).iRMReaddatavalid = false ∧
    ∀ t, (r.input (t + 1)).iRMReaddatavalid = acceptsRead (r.input t) (r.state t)

variable {r}

/-- With latency one, what has been returned lags the accepted reads by one cycle. -/
theorem FixedLatency.returned_succ (h : r.FixedLatency) (t : ℕ) :
    (r.ledger (t + 1)).returned.length = (r.ledger t).reads.length := by
  induction t with
  | zero => simp [ledger_succ, record, h.1, Ledger.empty]
  | succ t ih =>
      rw [ledger_succ]
      simp only [record, List.length_append, ih, h.2 t]
      rw [ledger_succ]
      simp only [record, List.length_append]
      split <;> rfl

theorem FixedLatency.conformant (h : r.FixedLatency) : r.Conformant := by
  intro t hvalid
  cases t with
  | zero => simp [h.1] at hvalid
  | succ t =>
      rw [h.returned_succ t, ledger_succ]
      rw [h.2 t] at hvalid
      simp [record, hvalid]

/-! ## What has happened stays happened -/

theorem reads_mono {t u : ℕ} (hle : t ≤ u) : (r.ledger t).reads <+: (r.ledger u).reads :=
  r.history_mono record Ledger.empty Ledger.reads (fun _ _ _ => List.prefix_append _ _) hle

theorem returned_mono {t u : ℕ} (hle : t ≤ u) : (r.ledger t).returned <+: (r.ledger u).returned :=
  r.history_mono record Ledger.empty Ledger.returned (fun _ _ _ => List.prefix_append _ _) hle

theorem writes_mono {t u : ℕ} (hle : t ≤ u) : (r.ledger t).writes <+: (r.ledger u).writes :=
  r.history_mono record Ledger.empty Ledger.writes (fun _ _ _ => List.prefix_append _ _) hle

/-! ## The phase of the handshake -/

variable (r)

/-- A run begins with what a reset edge leaves. -/
theorem cleared : Cleared (r.state 0) := by
  obtain ⟨i, s, hreset, heq⟩ := r.reset
  rw [heq]
  exact cleared_step hreset s

/-- The handshake after a reset edge. -/
theorem in_phase_zero : InPhase .ready (r.state 0).control := by
  rw [r.cleared.control]
  exact ⟨rfl, rfl, rfl, rfl⟩

theorem in_phase (t : ℕ) : InPhase (r.phase t) (r.state t).control := by
  refine r.invariant_history _ _ (fun s p => InPhase p s.control) 0 r.in_phase_zero ?_
    (Nat.zero_le t)
  intro u _ h
  exact h.step (i := controlInputs (r.input u) (r.state u)) (r.iResetN u)

/-- The handshake never moves backwards. -/
theorem rank_le {t u : ℕ} (hle : t ≤ u) : (r.phase t).rank ≤ (r.phase u).rank := by
  induction u, hle using Nat.le_induction with
  | base => exact le_rfl
  | succ u _ ih => exact ih.trans (Phase.rank_next _ _ _)

/-- A phase of one cycle is never seen again. -/
theorem rank_lt {t u : ℕ} (h : r.phase t = .starting ∨ r.phase t = .done) (hlt : t < u) :
    (r.phase t).rank < (r.phase u).rank :=
  (Phase.rank_next_lt h _ _).trans_le (r.rank_le hlt)

variable {r}

/-- `oStart` is high exactly in the starting phase. -/
theorem start_iff {t : ℕ} : (r.state t).control.oStart = true ↔ r.phase t = .starting := by
  rw [(r.in_phase t).oStart]
  cases r.phase t <;> simp [Phase.oStart]

/-- The DONE bit is set exactly in the done phase. -/
theorem done_iff {t : ℕ} : ControlSlave.done (r.state t).control = true ↔ r.phase t = .done := by
  rw [ControlSlave.done, (r.in_phase t).status]
  cases r.phase t <;> simp [Phase.status]

/-- Every phase up to the present one has been visited, the busy phase perhaps excepted. -/
theorem visited {t : ℕ} {p : Phase} (hp : p ≠ .busy) (h : p.rank ≤ (r.phase t).rank) :
    ∃ u ≤ t, r.phase u = p := by
  induction t with
  | zero =>
      refine ⟨0, le_rfl, ?_⟩
      cases p <;> simp [Phase.rank] at h ⊢
  | succ t ih =>
      by_cases hearlier : p.rank ≤ (r.phase t).rank
      · obtain ⟨u, hle, hu⟩ := ih hearlier
        exact ⟨u, by omega, hu⟩
      · exact ⟨t + 1, le_rfl, Phase.next_eq_of_rank hp (Nat.lt_of_not_le hearlier) h⟩

/-- The handshake leaves a transfer only after `oWM_done`. -/
theorem done_of_rank {t : ℕ} (h : 3 ≤ (r.phase t).rank) :
    ∃ u < t, (r.state u).wm.oWMDone = true := by
  obtain ⟨T, hle, hT⟩ := visited (p := .done) (by decide) h
  cases T with
  | zero => simp at hT
  | succ u => exact ⟨u, by omega, Phase.mw_done_of_next_done hT⟩

/-- Two cycles of one phase that lasts one cycle are the same cycle. -/
theorem phase_unique {t u : ℕ} (heq : r.phase t = r.phase u)
    (h : r.phase t = .starting ∨ r.phase t = .done) : t = u := by
  rcases Nat.lt_trichotomy t u with hlt | heq' | hgt
  · have hrank := r.rank_lt h hlt
    simp [heq] at hrank
  · exact heq'
  · have hrank := r.rank_lt (heq ▸ h) hgt
    simp [heq] at hrank

/-- There is at most one start pulse. -/
theorem start_unique {t u : ℕ} (ht : (r.state t).control.oStart = true)
    (hu : (r.state u).control.oStart = true) : t = u := by
  rw [start_iff] at ht hu
  exact phase_unique (ht.trans hu.symm) (.inl ht)

/-- DONE is reported in at most one cycle. -/
theorem done_unique {t u : ℕ} (ht : ControlSlave.done (r.state t).control = true)
    (hu : ControlSlave.done (r.state u).control = true) : t = u := by
  rw [done_iff] at ht hu
  exact phase_unique (ht.trans hu.symm) (.inr ht)

end Run

/-- A run with the cycle of its start pulse. -/
structure Transfer extends Run where
  start : ℕ
  oStart : (state start).control.oStart = true

namespace Transfer

variable (x : Transfer)

/-- The read start address, in the cycle of the start pulse. -/
def readStart : Word := (x.state x.start).control.oRMStartaddress

/-- The write start address. -/
def writeStart : Word := (x.state x.start).control.oWMStartaddress

/-- The length in bytes. -/
def length : Word := (x.state x.start).control.oLength

variable {x} {t : ℕ}

theorem phase_start : x.phase x.start = .starting :=
  Run.start_iff.mp x.oStart

/-- Before the start pulse the handshake waits for GO. -/
theorem phase_before (h : t < x.start) : x.phase t = .ready := by
  have hle := x.toRun.rank_le h.le
  rw [phase_start] at hle
  cases hp : x.phase t with
  | ready => rfl
  | starting =>
      have hlt := x.toRun.rank_lt (.inl hp) h
      simp [hp, phase_start] at hlt
  | busy | done | spent => simp [hp, Phase.rank] at hle

/-- After the start pulse the handshake is past it. -/
theorem phase_after (h : x.start < t) : 2 ≤ (x.phase t).rank := by
  have hlt := x.toRun.rank_lt (.inl phase_start) h
  rwa [phase_start] at hlt

/-- Only after the start pulse is the handshake past it. -/
theorem start_lt (h : 2 ≤ (x.phase t).rank) : x.start < t := by
  by_contra hge
  have hle := x.toRun.rank_le (Nat.le_of_not_lt hge)
  rw [phase_start] at hle
  exact absurd (h.trans hle) (by simp [Phase.rank])

theorem oStart_after (h : x.start < t) : (x.state t).control.oStart = false := by
  have hrank := phase_after h
  rw [(x.toRun.in_phase t).oStart]
  cases hp : x.phase t <;> simp [hp, Phase.rank, Phase.oStart] at hrank ⊢

theorem oStart_before (h : t < x.start) : (x.state t).control.oStart = false := by
  rw [(x.toRun.in_phase t).oStart, phase_before h]
  rfl

end Transfer

/-- In every cycle of a run there has been no start pulse yet, or a transfer is under way or
over. -/
theorem Run.idle_or_transfer (r : Run) (t : ℕ) :
    (∀ u < t, (r.state u).control.oStart = false) ∨
      ∃ x : Transfer, x.toRun = r ∧ x.start < t := by
  by_cases hstarted : ∃ u < t, (r.state u).control.oStart = true
  · obtain ⟨u, hlt, hstart⟩ := hstarted
    exact .inr ⟨{ r with start := u, oStart := hstart }, rfl, hlt⟩
  · refine .inl fun u hlt => ?_
    by_contra hstart
    exact hstarted ⟨u, hlt, by simpa using hstart⟩

end CE213Lab.DMA
