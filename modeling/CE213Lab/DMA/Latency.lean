import CE213Lab.DMA.Pace
import CE213Lab.DMA.FlowControl

/-!
# Tolerance of read latency

With an unstalled writer the FIFO always has room, so a returned word is lost only to the
reader's own state. An accepted read takes the reader to state 0 for one cycle; then it goes on
to the next read, or, when the walk is at its end, keeps alternating between states 0 and 1.
`lossless_iff_in_step` turns this into a condition on the timing of the responses.
-/

namespace CE213Lab.DMA

open Foundation DMAFinal

namespace Transfer

variable {x : Transfer} {a t : ℕ}

/-- The last read accepted before cycle `t` is that of cycle `a`. -/
def LastRead (x : Transfer) (a t : ℕ) : Prop :=
  a < t ∧ acceptsRead (x.input a) (x.state a) = true ∧
    ∀ u, a < u → u < t → acceptsRead (x.input u) (x.state u) = false

/-- A response in cycle `t` is in step with the reader: it comes in the cycle after the last
accepted read or, once the whole length has been read, an odd number of cycles after it. -/
def InStep (x : Transfer) (t : ℕ) : Prop :=
  ∃ a, x.LastRead a t ∧
    (t - a = 1 ∨ 4 * (x.ledger t).reads.length = x.length.toNat ∧ (t - a) % 2 = 1)

/-- A cycle that accepts no read leaves the accepted reads alone. -/
theorem reads_of_quiet (hquiet : acceptsRead (x.input t) (x.state t) = false) :
    (x.ledger (t + 1)).reads = (x.ledger t).reads := by
  simp [x.ledger_succ, record, hquiet]

/-- Before a response of a conformant read slave there is a last accepted read. -/
theorem exists_last_read (h : (x.ledger t).reads ≠ []) : ∃ a, x.LastRead a t := by
  induction t with
  | zero => exact absurd rfl h
  | succ t ih =>
      cases haccept : acceptsRead (x.input t) (x.state t) with
      | true => exact ⟨t, Nat.lt_succ_self t, haccept, fun u hau hut => by omega⟩
      | false =>
          rw [reads_of_quiet haccept] at h
          obtain ⟨a, hlt, ha, hquiet⟩ := ih h
          refine ⟨a, by omega, ha, fun u hau hut => ?_⟩
          rcases Nat.lt_succ_iff_lt_or_eq.mp hut with hlt | rfl
          · exact hquiet u hau hlt
          · exact haccept

/-- The state of the reader `d` cycles after the last accepted read: on its way to the next read,
or alternating between states 0 and 1 at the end of the walk. -/
inductive Since (state : BitVec 2) (atEnd : Prop) (d : ℕ) : Prop where
  | zero : state = 0#2 → d = 1 ∨ atEnd ∧ d % 2 = 1 → Since state atEnd d
  | one : state = 1#2 → d = 2 ∨ atEnd ∧ d % 2 = 0 → Since state atEnd d
  | two : state = 2#2 → 3 ≤ d → ¬ atEnd → Since state atEnd d

/-- The reader keeps to this schedule as long as there is room in the FIFO. -/
theorem since_last_read (hroom : ∀ t, x.start < t → FIFO.ffAlmostfull (x.state t).fi = false)
    (h : x.LastRead a t) :
    Since (x.state t).rm.state (4 * (x.ledger t).reads.length = x.length.toNat) (t - a) := by
  obtain ⟨hlt, haccept, hquiet⟩ := h
  have hstart := (reading_of_accepts haccept).1
  induction t, hlt using Nat.le_induction with
  | base => exact .zero (state_after_accepts haccept) (.inl (by omega))
  | succ t hle ih =>
      have hlater : x.start < t := hstart.trans hle
      have hnone := hquiet t hle (Nat.lt_succ_self t)
      rw [reads_of_quiet hnone]
      cases ih fun u hau hut => hquiet u hau (by omega) with
      | zero hstate hin =>
          refine .one (by rw [state_of_zero hlater hstate, hroom t hlater]; rfl) ?_
          exact hin.imp (by omega) (.imp_right (by omega))
      | one hstate hin =>
          by_cases hend : 4 * (x.ledger t).reads.length = x.length.toNat
          · refine .zero (by rw [state_of_one hlater hstate, if_pos hend]) (.inr ⟨hend, ?_⟩)
            omega
          · refine .two (by rw [state_of_one hlater hstate, if_neg hend]) ?_ hend
            omega
      | two hstate hle' hend =>
          have hwait : (x.input t).iRMWaitrequest = true := by
            simpa [acceptsRead, (walking hlater).read, hstate] using hnone
          exact .two (by rw [state_of_two hlater hstate, hwait]; rfl) (by omega) hend

/-- The schedule has the reader in state 0 exactly when a response is in step. -/
theorem Since.zero_iff {state : BitVec 2} {atEnd : Prop} {d : ℕ} (h : Since state atEnd d) :
    state = 0#2 ↔ d = 1 ∨ atEnd ∧ d % 2 = 1 := by
  cases h with
  | zero hstate hin => simp [hstate, hin]
  | one hstate hin =>
      simp only [hstate, (by decide : ¬ 1#2 = 0#2), false_iff]
      rintro (hd | ⟨_, hd⟩) <;> rcases hin with hd' | ⟨_, hd'⟩ <;> omega
  | two hstate hle hend =>
      simp only [hstate, (by decide : ¬ 2#2 = 0#2), false_iff]
      rintro (hd | ⟨hd, _⟩)
      · omega
      · exact hend hd

theorem last_read_unique {b : ℕ} (ha : x.LastRead a t) (hb : x.LastRead b t) : a = b := by
  rcases Nat.lt_trichotomy a b with hlt | heq | hgt
  · simpa [hb.2.1] using ha.2.2 b hlt hb.1
  · exact heq
  · simpa [ha.2.1] using hb.2.2 a hgt ha.1

/-- With a conformant read slave and an unstalled destination slave, every returned word enters the
FIFO exactly when every response is in step. -/
theorem lossless_iff_in_step (h : x.Conformant) (hwait : x.WritesUnstalled) :
    x.Lossless ↔ ∀ t, (x.input t).iRMReaddatavalid = true → x.InStep t := by
  have hroom : ∀ t, x.start < t → FIFO.ffAlmostfull (x.state t).fi = false :=
    fun t hlt => (paced h hwait hlt).not_full
  rw [Run.lossless_iff_pushes]
  refine forall_congr' fun t => forall_congr' fun hvalid => ?_
  have hne : (x.ledger t).reads ≠ [] := List.ne_nil_of_length_pos (by have := h t hvalid; omega)
  obtain ⟨a, hlast⟩ := exists_last_read hne
  have hstarted : x.start < t := (reading_of_accepts hlast.2.1).1.trans hlast.1
  have hpush : pushes (x.input t) (x.state t) = true ↔ (x.state t).rm.state = 0#2 := by
    simp [pushes_eq (x.iResetN t), hroom t hstarted, hvalid]
  rw [hpush, (since_last_read hroom hlast).zero_iff]
  refine ⟨?_, ?_⟩
  · exact fun hin => ⟨a, hlast, hin⟩
  · intro ⟨b, hb, hin⟩
    rwa [last_read_unique hlast hb]

/-- A read slave of latency one is always in step. -/
theorem in_step_of_fixed_latency (h : x.FixedLatency)
    (hvalid : (x.input t).iRMReaddatavalid = true) : x.InStep t := by
  cases t with
  | zero => simp [h.1] at hvalid
  | succ t =>
      rw [h.2] at hvalid
      exact ⟨t, ⟨Nat.lt_succ_self t, hvalid, fun u hau hut => by omega⟩, .inl (by omega)⟩

/-- One word of latency one. -/
theorem lossless_latency_one :
    (Bench.transfer id 0x1000 0x2000 4 (fun _ => false) (fun _ => false)).Lossless :=
  (lossless_iff_in_step Bench.transfer_fixed_latency.conformant (fun _ => rfl)).mpr
    fun _ => in_step_of_fixed_latency Bench.transfer_fixed_latency

/-- One word, read in cycle 7 and returned in cycle 9. -/
def latencyTwo : Transfer where
  toRun := Bench.scripted <| Bench.program 0x1000 0x2000 4 fun t =>
    { Bench.idle with iRMReaddatavalid := t == 5, iRMReaddata := 42 }
  start := 5
  oStart := by decide +kernel

theorem latency_two_conformant : latencyTwo.Conformant := by
  intro t hvalid
  have hcycle : t = 9 := by
    match t with
    | 0 | 1 | 2 | 3 => exact absurd hvalid (by decide)
    | t + 4 =>
        have hvalid : (t == 5) = true := hvalid
        rw [beq_iff_eq.mp hvalid]
  rw [hcycle]
  decide +kernel

/-- A word returned two cycles after its read finds the reader in state 1 and is dropped. -/
theorem word_dropped_at_latency_two :
    latencyTwo.Conformant ∧ latencyTwo.WritesUnstalled ∧ latencyTwo.length = 4 ∧
      ¬ latencyTwo.Lossless := by
  have hwait : latencyTwo.WritesUnstalled := by
    intro t
    match t with
    | 0 | 1 | 2 | 3 | t + 4 => rfl
  refine ⟨latency_two_conformant, hwait, by decide +kernel, fun hall => ?_⟩
  have hdropped : (latencyTwo.ledger 10).pushed ≠ (latencyTwo.ledger 10).returned := by
    decide +kernel
  exact hdropped (hall 10)

end Transfer

end CE213Lab.DMA
