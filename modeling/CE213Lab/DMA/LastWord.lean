import CE213Lab.DMA.Stages
import CE213Lab.DMA.Bench

/-!
# Reporting completion and the last write

What the stages say about the two reports of completion, `oWM_done` and the DONE status, and about
the number of accepted writes. Both properties hang on one cycle, the one in which the last word
is first presented: when the destination slave stalls it there, completion is reported before the
word is accepted and the command is never withdrawn.
-/

namespace CE213Lab.DMA

open Foundation DMAFinal
open ControlSlave (Phase)

namespace Transfer

variable {x : Transfer} {t N : ℕ}

/-- Completion is reported, on either signal, only when `N` writes have been accepted. -/
def NeverEarly (x : Transfer) (N : ℕ) : Prop :=
  ∀ t, (x.state t).wm.oWMDone = true ∨ ControlSlave.done (x.state t).control = true →
    N ≤ (x.ledger t).writes.length

/-- No more writes are accepted than words were popped, nor than the transfer has. -/
def WriteOnce (x : Transfer) (N : ℕ) : Prop :=
  ∀ t, (x.ledger t).writes.length ≤ (x.ledger t).popped.length ∧
    (x.ledger t).writes.length ≤ N

/-- The destination slave stalls the last word in the cycle it is first presented. -/
def LastStalled (x : Transfer) (t : ℕ) : Prop :=
  LastPresented (x.state t) ∧ (x.input t).iWMWaitrequest = true

/-- The last word is presented during a transfer, by a moving write side. -/
theorem moving_of_last_presented (h : x.Conformant) (hlast : LastPresented (x.state t)) :
    x.start < t ∧ Moving x.writeStart x.length (x.state t) (x.ledger t) := by
  have hlt : x.start < t := by
    by_contra hge
    have hstate := (writer_idle h (Nat.le_of_not_lt hge)).state
    simp [hlast.1] at hstate
  refine ⟨hlt, ?_⟩
  cases stage h hlt with
  | moving hm => exact hm
  | finished hf => simpa [hlast.1] using hf.state
  | stalled hs => simpa [hlast.1] using hs.state
  | stuck hs => simpa [hlast.1] using hs.state

theorem stalled_of_last_stalled (h : x.Conformant) (hstalled : x.LastStalled t) :
    x.start < t ∧ Stalled x.writeStart x.length (x.state (t + 1)) (x.ledger (t + 1)) := by
  obtain ⟨hlt, hmoving⟩ := moving_of_last_presented h hstalled.1
  refine ⟨hlt, ?_⟩
  rcases moving_succ h hlt hmoving with ⟨hnot, _⟩ | ⟨_, hwait, _⟩ | ⟨_, _, hs⟩
  · exact absurd hstalled.1 hnot
  · simp [hstalled.2] at hwait
  · exact hs

/-- A cycle of a transfer is moving or finished, or the last word was stalled before it. -/
theorem stage_or_last_stalled (h : x.Conformant) (hlt : x.start < t) :
    Moving x.writeStart x.length (x.state t) (x.ledger t) ∨
      Finished x.writeStart x.length (x.state t) (x.ledger t) ∨ ∃ u < t, x.LastStalled u := by
  induction t, hlt using Nat.le_induction with
  | base => exact .inl (moving_start h)
  | succ t hle ih =>
      rcases ih with hm | hf | ⟨u, hu, hs⟩
      · rcases moving_succ h hle hm with ⟨_, h'⟩ | ⟨_, _, h'⟩ | ⟨hlast, hwait, _⟩
        · exact .inl h'
        · exact .inr (.inl h')
        · exact .inr (.inr ⟨t, Nat.lt_succ_self t, hlast, hwait⟩)
      · exact .inr (.inl (finished_succ h hle hf).1)
      · exact .inr (.inr ⟨u, by omega, hs⟩)

/-- If the last word is not stalled, `oWM_done` means the transfer is finished. -/
theorem finished_of_done (h : x.Conformant) (hnever : ∀ u, ¬ x.LastStalled u)
    (hdone : (x.state t).wm.oWMDone = true) :
    Finished x.writeStart x.length (x.state t) (x.ledger t) := by
  have hlt : x.start < t := by
    by_contra hge
    simp [(writer_idle h (Nat.le_of_not_lt hge)).done] at hdone
  rcases stage_or_last_stalled h hlt with hm | hf | ⟨u, _, hs⟩
  · simp [hm.done] at hdone
  · exact hf
  · exact absurd hs (hnever u)

/-- Completion is never reported early exactly when the destination slave accepts the last word in
the cycle it is first presented. -/
theorem never_early_iff (h : x.Conformant) (hlength : x.length.toNat = 4 * N) :
    x.NeverEarly N ↔ ∀ t, LastPresented (x.state t) → (x.input t).iWMWaitrequest = false := by
  refine ⟨?_, ?_⟩
  · intro hnever t hlast
    by_contra hwait
    have hstalled := (stalled_of_last_stalled h ⟨hlast, by simpa using hwait⟩).2
    have hle := hnever (t + 1) (.inl hstalled.done)
    have hcomplete := hstalled.complete
    omega
  · intro haccepted
    have hnever : ∀ u, ¬ x.LastStalled u := fun u hs => by
      simpa [haccepted u hs.1] using hs.2
    have hdone : ∀ u, (x.state u).wm.oWMDone = true → N ≤ (x.ledger u).writes.length := by
      intro u hu
      have hcomplete := (finished_of_done h hnever hu).complete
      omega
    rintro t (ht | ht)
    · exact hdone t ht
    · -- the DONE status follows an earlier `oWM_done`
      obtain ⟨u, hu, hu'⟩ := Run.done_of_rank (r := x.toRun) (t := t)
        (by simp [Run.done_iff.mp ht, Phase.rank])
      exact (hdone u hu').trans (Run.writes_mono hu.le).length_le

/-- One word copied while the destination slave stalls its first two offers. -/
def stalledCopy : Transfer :=
  Bench.transfer id 0x1000 0x2000 4 (fun _ => false) (fun t => t == 10 || t == 11)

theorem stalled_copy_parameters :
    stalledCopy.Conformant ∧ stalledCopy.length.toNat = 4 * 1 :=
  ⟨Bench.transfer_fixed_latency.conformant, by rw [stalledCopy, Bench.transfer_length]; rfl⟩

/-- Without stalls, one word is copied and completion is reported after it. -/
theorem never_early_unstalled :
    (Bench.transfer id 0x1000 0x2000 4 (fun _ => false) (fun _ => false)).NeverEarly 1 :=
  (never_early_iff Bench.transfer_fixed_latency.conformant
    (by rw [Bench.transfer_length]; rfl)).mpr fun _ _ => rfl

/-- Stalled once, the single word of a transfer is reported done before it is accepted. -/
theorem done_before_accepted :
    (stalledCopy.Conformant ∧ stalledCopy.length.toNat = 4 * 1) ∧ ¬ stalledCopy.NeverEarly 1 := by
  refine ⟨stalled_copy_parameters, fun hnever => ?_⟩
  have hdone : (stalledCopy.state 11).wm.oWMDone = true := by decide +kernel
  have hwrites : (stalledCopy.ledger 11).writes.length = 0 := by decide +kernel
  have hle := hnever 11 (.inl hdone)
  omega

/-! ## After a stalled last word -/

/-- Completion is reported in the cycle after a stalled last word, and from then on the write side
is stuck. -/
theorem stalled_or_stuck (h : x.Conformant) {u : ℕ} (hstalled : x.LastStalled t) (hlt : t < u) :
    u = t + 1 ∧ Stalled x.writeStart x.length (x.state u) (x.ledger u) ∨
      Stuck x.writeStart x.length (x.state u) (x.ledger u) := by
  obtain ⟨hstart, hs⟩ := stalled_of_last_stalled h hstalled
  induction u, hlt using Nat.le_induction with
  | base => exact .inl ⟨rfl, hs⟩
  | succ u hle ih =>
      have hlater : x.start < u := by omega
      exact .inr (ih.elim (fun hs => stalled_succ h hlater hs.2) (stuck_succ h hlater))

/-- The last word is stalled in one cycle at most. -/
theorem last_stalled_unique (h : x.Conformant) {u : ℕ} (hstalled : x.LastStalled t)
    (hstalled' : x.LastStalled u) : t = u := by
  have hnever : ∀ {v w : ℕ}, x.LastStalled v → x.LastStalled w → ¬ v < w := by
    intro v w hv hw hlt
    rcases stalled_or_stuck h hv hlt with ⟨_, hs⟩ | hs <;> simpa [hw.1.1] using hs.state
  exact Nat.le_antisymm (Nat.le_of_not_lt (hnever hstalled' hstalled))
    (Nat.le_of_not_lt (hnever hstalled hstalled'))

/-- From a stalled last word on, the command stays on offer and the FIFO stays drained. -/
theorem offered_after (h : x.Conformant) {u : ℕ} (hstalled : x.LastStalled t) (hlt : t < u) :
    (x.state u).wm.oWMWrite = true ∧ (x.ledger u).popped.length = (x.ledger u).pushed.length ∧
      4 * (x.ledger u).pushed.length = x.length.toNat := by
  have hpopped : FIFO.words (x.state u).fi = [] →
      (x.ledger u).popped.length = (x.ledger u).pushed.length := by
    intro hwords
    rw [(Run.stored (r := x.toRun) u).conserved, hwords, List.append_nil]
  rcases stalled_or_stuck h hstalled hlt with ⟨_, hs⟩ | hs
  · exact ⟨hs.write, hpopped hs.words, hs.all_pushed⟩
  · exact ⟨hs.write, hpopped hs.words, hs.complete⟩

/-- Every unstalled cycle accepts the command on offer once more. -/
theorem writes_succ_of_write (hwrite : (x.state t).wm.oWMWrite = true) :
    (x.ledger (t + 1)).writes.length =
      (x.ledger t).writes.length + if (x.input t).iWMWaitrequest then 0 else 1 := by
  rw [x.ledger_succ]
  simp only [record, acceptsWrite, hwrite, List.length_append]
  cases (x.input t).iWMWaitrequest <;> simp

/-- Before a stalled last word every popped word is accepted at most once. -/
theorem writes_le_of_conserved (h : x.Conformant) (hlength : x.length.toNat = 4 * N)
    (hconserved : Conserved x.writeStart (x.state t) (x.ledger t)) :
    (x.ledger t).writes.length ≤ (x.ledger t).popped.length ∧
      (x.ledger t).writes.length ≤ N := by
  have hpushed := hconserved.length_pushed
  have hstored := congrArg List.length (Run.stored (r := x.toRun) t).conserved
  rw [List.length_append] at hstored
  have hbound := pushed_bound (t := t) h (by omega)
  omega

/-- The N-th write, and its repetition, need two unstalled cycles after the stall. -/
theorem writes_after (h : x.Conformant) (hlength : x.length.toNat = 4 * N) {u : ℕ}
    (hstalled : x.LastStalled t) (hlt : t < u)
    (honce : ∀ v w, t < v → v < w → (x.input v).iWMWaitrequest = false →
      (x.input w).iWMWaitrequest = true) :
    (x.ledger u).writes.length + 1 = N ∨ (x.ledger u).writes.length = N ∧
      ∃ v, t < v ∧ v < u ∧ (x.input v).iWMWaitrequest = false := by
  induction u, hlt using Nat.le_induction with
  | base =>
      have hcomplete := (stalled_of_last_stalled h hstalled).2.complete
      show (x.ledger (t + 1)).writes.length + 1 = N ∨ _
      omega
  | succ u hlt ih =>
      have hsucc := writes_succ_of_write (offered_after h hstalled hlt).1
      cases hwait : (x.input u).iWMWaitrequest with
      | true =>
          simp only [hwait, if_true, Nat.add_zero] at hsucc
          rw [hsucc]
          exact ih.imp_right fun ⟨heq, v, htv, hvu, hv⟩ => ⟨heq, v, htv, by omega, hv⟩
      | false =>
          simp only [hwait, Bool.false_eq_true, if_false] at hsucc
          rcases ih with hone | ⟨_, v, htv, hvu, hv⟩
          · exact .inr ⟨by omega, u, hlt, Nat.lt_succ_self u, hwait⟩
          · simp [honce v u htv hvu hv] at hwait

/-- No popped word is accepted twice exactly when, after a stall of the last word in the cycle it
is first presented, the destination slave is ready in at most one later cycle. -/
theorem write_once_iff (h : x.Conformant) (hlength : x.length.toNat = 4 * N) :
    x.WriteOnce N ↔ ∀ t u v, x.LastStalled t → t < u → u < v →
      (x.input u).iWMWaitrequest = false → (x.input v).iWMWaitrequest = true := by
  refine ⟨?_, ?_⟩
  · intro honce t u v hstalled htu huv hu
    by_contra hv
    have hcomplete := (stalled_of_last_stalled h hstalled).2.complete
    have hfirst := (Run.writes_mono (r := x.toRun) (show t + 1 ≤ u from htu)).length_le
    have hbetween := (Run.writes_mono (r := x.toRun) (show u + 1 ≤ v from huv)).length_le
    have hu' := writes_succ_of_write (offered_after h hstalled htu).1
    have hv' := writes_succ_of_write (offered_after h hstalled (htu.trans huv)).1
    simp only [hu, Bool.eq_false_iff.mpr hv, Bool.false_eq_true, if_false] at hu' hv'
    have hle := (honce (v + 1)).2
    omega
  · intro hready t
    rcases Nat.lt_or_ge x.start t with hlt | hge
    · rcases stage_or_last_stalled h hlt with hm | hf | ⟨u, hu, hs⟩
      · exact writes_le_of_conserved h hlength hm.toConserved
      · exact writes_le_of_conserved h hlength hf.toConserved
      · obtain ⟨_, hpopped, hpushed⟩ := offered_after h hs hu
        have hwrites := writes_after h hlength hs hu fun v w hv hvw => hready u v w hs hv hvw
        omega
    · simp [(writer_idle h hge).writes]

/-- Without stalls, one word is written once. -/
theorem write_once_unstalled :
    (Bench.transfer id 0x1000 0x2000 4 (fun _ => false) (fun _ => false)).WriteOnce 1 :=
  (write_once_iff Bench.transfer_fixed_latency.conformant
    (by rw [Bench.transfer_length]; rfl)).mpr fun _ _ _ hs _ _ _ => by
      simpa using (show false = true from hs.2)

/-- Stalled once, the single word of a transfer is accepted again and again. -/
theorem written_twice :
    (stalledCopy.Conformant ∧ stalledCopy.length.toNat = 4 * 1) ∧ ¬ stalledCopy.WriteOnce 1 := by
  refine ⟨stalled_copy_parameters, fun honce => ?_⟩
  have hwrites : (stalledCopy.ledger 14).writes = [(0x2000, 0x1000), (0x2000, 0x1000)] := by
    decide +kernel
  have hle := (honce 14).2
  simp [hwrites] at hle

end Transfer

end CE213Lab.DMA
