import CE213Lab.DMA.LastWord
import CE213Lab.DMA.ServedCopy

/-!
# Slaves shared with other masters

A slave that is granted for one command at a time stalls each command in the cycle it is first
presented, even when nobody else wants it, and takes it some cycles later. The reader then reads a
word in four cycles at best. The last word is stalled in the cycle it is first presented, so the
command of the last word is never withdrawn. And when each write is taken within three cycles the
writer writes a word in five at worst, so the FIFO gains one word in every five read at most:
`lossless_of_shared` holds up to 639 words.
-/

namespace CE213Lab.DMA

open Foundation DMAFinal

namespace Run

/-- Each read is stalled in the cycle it is first presented. -/
def ReadsStalledAtFirst (r : Run) : Prop :=
  ∀ t, (r.state t).rm.oRMRead = false → (r.state (t + 1)).rm.oRMRead = true →
    (r.input (t + 1)).iRMWaitrequest = true

/-- Each write is stalled in the cycle it is first presented. -/
def WritesStalledAtFirst (r : Run) : Prop :=
  ∀ t, (r.state t).wm.oWMWrite = false → (r.state (t + 1)).wm.oWMWrite = true →
    (r.input (t + 1)).iWMWaitrequest = true

/-- A read is accepted within `k` cycles. -/
def ReadsWithin (r : Run) (k : ℕ) : Prop :=
  ∀ t, (r.state t).rm.oRMRead = true →
    ∃ u, t ≤ u ∧ u ≤ t + k ∧ (r.state u).rm.oRMRead = true ∧
      (r.input u).iRMWaitrequest = false

/-- A write is accepted within `k` cycles. -/
def WritesWithin (r : Run) (k : ℕ) : Prop :=
  ∀ t, (r.state t).wm.oWMWrite = true →
    ∃ u, t ≤ u ∧ u ≤ t + k ∧ (r.state u).wm.oWMWrite = true ∧
      (r.input u).iWMWaitrequest = false

/-- The stalls of the read port so far, without a break. -/
def readAge (r : Run) : ℕ → ℕ :=
  age fun t => (r.state t).rm.oRMRead && (r.input t).iRMWaitrequest

/-- The stalls of the write port so far, without a break. -/
def writeAge (r : Run) : ℕ → ℕ :=
  age fun t => (r.state t).wm.oWMWrite && (r.input t).iWMWaitrequest

variable {r : Run} {t : ℕ}

theorem WritesWithin.age_le {k : ℕ} (h : r.WritesWithin k) (t : ℕ) : r.writeAge t ≤ k := by
  refine Foundation.age_le fun u hu => ?_
  obtain ⟨v, hle, hbound, _, hwait⟩ := h u (Bool.and_eq_true_iff.mp hu).1
  exact ⟨v, hle, hbound, by rw [hwait, Bool.and_false]⟩

end Run

namespace Transfer

variable {x : Transfer} {t N : ℕ}

theorem reads_served_of_within {k : ℕ} (h : x.ReadsWithin k) : x.ReadsServed := by
  intro t
  by_cases hread : (x.state t).rm.oRMRead = true
  · obtain ⟨u, hle, _, _, hwait⟩ := h t hread
    exact ⟨u, hle, fun _ => hwait⟩
  · exact ⟨t, le_rfl, fun h => absurd h hread⟩

theorem writes_served_of_within {k : ℕ} (h : x.WritesWithin k) : x.WritesServed := by
  intro t
  by_cases hwrite : (x.state t).wm.oWMWrite = true
  · obtain ⟨u, hle, _, _, hwait⟩ := h t hwrite
    exact ⟨u, hle, fun _ => hwait⟩
  · exact ⟨t, le_rfl, fun h => absurd h hwrite⟩

/-! ## The last word -/

/-- While words move through, a word that is the last was stalled or is stalled now. -/
theorem last_stalled_or_moving (h : x.Conformant) (hfirst : x.WritesStalledAtFirst)
    (hlt : x.start < t) :
    (∃ u < t, x.LastStalled u) ∨ Moving x.writeStart x.length (x.state t) (x.ledger t) ∧
      (LastPresented (x.state t) → (x.input t).iWMWaitrequest = true) := by
  induction t, hlt using Nat.le_induction with
  | base =>
      have hmoving := moving_start h
      exact .inr ⟨hmoving, fun hlast => hfirst _ (writer_idle h le_rfl).write
        (by rw [hmoving.write, hlast.1]; rfl)⟩
  | succ t hlt ih =>
      rcases ih with ⟨u, hu, hs⟩ | ⟨hmoving, hwait⟩
      · exact .inl ⟨u, by omega, hs⟩
      rcases moving_succ h hlt hmoving with ⟨hlast, hnext⟩ | ⟨hlast, _⟩ | ⟨hlast, _⟩
      · refine .inr ⟨hnext, fun hlast' => ?_⟩
        have hstate : (x.state t).wm.state = 0#2 := by
          refine hmoving.state.resolve_right fun hstate => ?_
          have hmove := wm_succ hlt
          have hend : ¬ WriteMaster.AtEnd (x.state t).wm := fun hend => hlast ⟨hstate, hend⟩
          rw [LastPresented] at hlast'
          generalize (x.state (t + 1)).wm = next at hmove hlast'
          cases hmove with
          | stall => exact hend hlast'.2
          | accept => simpa using hlast'.1
          | stallLast _ hend' | acceptLast _ hend' => exact hend hend'
          | empty h | take h | clear h | unused h => simp [hstate] at h
        exact hfirst t (by rw [hmoving.write, hstate]; rfl)
          (by rw [hnext.write, hlast'.1]; rfl)
      · exact .inl ⟨t, Nat.lt_succ_self t, hlast, hwait hlast⟩
      · exact .inl ⟨t, Nat.lt_succ_self t, hlast, hwait hlast⟩

/-- When completion is reported the last word has been stalled. -/
theorem last_stalled_of_done (h : x.Conformant) (hfirst : x.WritesStalledAtFirst)
    (hdone : (x.state t).wm.oWMDone = true) : ∃ u < t, x.LastStalled u := by
  have hlt : x.start < t := by
    by_contra hge
    simp [(writer_idle h (Nat.le_of_not_lt hge)).done] at hdone
  refine (last_stalled_or_moving h hfirst hlt).resolve_right fun ⟨hmoving, _⟩ => ?_
  simp [hmoving.done] at hdone

/-- It is reported in the cycle after that, and in no other. -/
theorem done_iff_of_last_stalled (h : x.Conformant) (hfirst : x.WritesStalledAtFirst) {u : ℕ}
    (hstalled : x.LastStalled u) : (x.state t).wm.oWMDone = true ↔ t = u + 1 := by
  refine ⟨fun hdone => ?_, ?_⟩
  · obtain ⟨v, hlt, hv⟩ := last_stalled_of_done h hfirst hdone
    rw [last_stalled_unique h hv hstalled] at hlt
    rcases stalled_or_stuck h hstalled hlt with ⟨heq, _⟩ | hs
    · exact heq
    · simp [hs.done] at hdone
  · rintro rfl
    exact (stalled_of_last_stalled h hstalled).2.done

/-! ## The pace of the two ports -/

/-- The cycles before the reader's next read can be accepted, at least. -/
def readDistance (x : Transfer) (t : ℕ) : ℕ :=
  if (x.state t).rm.state = 0#2 then 3
  else if (x.state t).rm.state = 1#2 then 2
  else 1 - x.readAge t

/-- The cycles before the writer is free to take its next word, at most. -/
def writeDistance (x : Transfer) (t : ℕ) : ℕ :=
  if (x.state t).wm.state = 1#2 then 4 - x.writeAge t else 0

theorem read_age_zero (hread : (x.state t).rm.oRMRead = false) : x.readAge (t + 1) = 0 :=
  age_succ_of_false (by rw [hread, Bool.false_and])

/-- A read that has not been stalled yet is stalled now. -/
theorem waits_of_age_zero (hfirst : x.ReadsStalledAtFirst) (hlt : x.start < t)
    (hstate : (x.state t).rm.state = 2#2) (hage : x.readAge t = 0) :
    (x.input t).iRMWaitrequest = true := by
  obtain ⟨t, rfl⟩ : ∃ u, t = u + 1 := ⟨t - 1, by omega⟩
  have hread : (x.state (t + 1)).rm.oRMRead = true := by
    rw [(walking hlt).read, hstate]
    rfl
  cases hbefore : (x.state t).rm.oRMRead with
  | false => exact hfirst t hbefore hread
  | true =>
      cases hwait : (x.input t).iRMWaitrequest with
      | true =>
          have hstalled := age_succ_of_true (t := t)
            (p := fun t => (x.state t).rm.oRMRead && (x.input t).iRMWaitrequest)
            (by rw [hbefore, hwait]; rfl)
          exact absurd (hage.symm.trans hstalled) (Nat.succ_ne_zero _).symm
      | false =>
          have haccepts : acceptsRead (x.input t) (x.state t) = true := by
            rw [acceptsRead, hbefore, hwait]
            rfl
          have hzero := state_after_accepts haccepts
          simp [hstate] at hzero

/-- A word is returned in state 0. -/
theorem state_of_valid (hlatency : x.FixedLatency)
    (hvalid : (x.input t).iRMReaddatavalid = true) : (x.state t).rm.state = 0#2 := by
  cases t with
  | zero => exact absurd (hlatency.1.symm.trans hvalid) Bool.false_ne_true
  | succ t => exact state_after_accepts ((hlatency.2 t).symm.trans hvalid)

theorem read_distance_zero (h : (x.state t).rm.state = 0#2) : x.readDistance t = 3 :=
  if_pos h

theorem read_distance_one (h : (x.state t).rm.state = 1#2) : x.readDistance t = 2 := by
  simp [readDistance, h]

theorem read_distance_two (h : (x.state t).rm.state = 2#2) :
    x.readDistance t = 1 - x.readAge t := by
  simp [readDistance, h]

/-- One edge of the reader: it gets nearer to its next read by one cycle at most, and a read it
makes puts the next one four cycles off. -/
theorem read_distance_succ (hlatency : x.FixedLatency) (hfirst : x.ReadsStalledAtFirst)
    (hlt : x.start < t) :
    (acceptsRead (x.input t) (x.state t) = false ∧
        x.readDistance t ≤ x.readDistance (t + 1) + 1 ∧
        ((x.input t).iRMReaddatavalid = true → 2 ≤ x.readDistance (t + 1))) ∨
      acceptsRead (x.input t) (x.state t) = true ∧ x.readDistance t = 0 ∧
        x.readDistance (t + 1) = 3 ∧ (x.input t).iRMReaddatavalid = false := by
  have hread := (walking hlt).read
  have hquiet : (x.state t).rm.state ≠ 0#2 → (x.input t).iRMReaddatavalid = false := fun hne => by
    by_contra hvalid
    exact hne (state_of_valid hlatency (by simpa using hvalid))
  rcases (walking hlt).state with hstate | hstate | hstate
  · have hnext : 2 ≤ x.readDistance (t + 1) := by
      have hmove := state_of_zero hlt hstate
      split at hmove
      · rw [read_distance_zero hmove]
        decide
      · rw [read_distance_one hmove]
    refine .inl ⟨by simp [acceptsRead, hread, hstate], ?_, fun _ => hnext⟩
    rw [read_distance_zero hstate]
    omega
  · have hnext : 1 ≤ x.readDistance (t + 1) := by
      have hmove := state_of_one hlt hstate
      split at hmove
      · rw [read_distance_zero hmove]
        decide
      · rw [read_distance_two hmove, read_age_zero (by simp [hread, hstate])]
    refine .inl ⟨by simp [acceptsRead, hread, hstate], ?_, fun hvalid => ?_⟩
    · rw [read_distance_one hstate]
      omega
    · exact absurd ((hquiet (by simp [hstate])).symm.trans hvalid) Bool.false_ne_true
  · have hvalid := hquiet (by simp [hstate])
    have hdistance := read_distance_two hstate
    cases hwait : (x.input t).iRMWaitrequest with
    | true =>
        refine .inl ⟨by simp [acceptsRead, hwait], by omega, fun h => ?_⟩
        exact absurd (hvalid.symm.trans h) Bool.false_ne_true
    | false =>
        have hage : x.readAge t ≠ 0 := fun hzero => by
          have hstall := waits_of_age_zero hfirst hlt hstate hzero
          exact absurd (hwait.symm.trans hstall) Bool.false_ne_true
        have hmove := state_of_two hlt hstate
        rw [hwait] at hmove
        exact .inr ⟨by simp [acceptsRead, hread, hstate, hwait], by omega,
          read_distance_zero hmove, hvalid⟩

/-- The number of stored words after an edge. -/
theorem length_words_succ (t : ℕ) :
    (FIFO.words (x.state (t + 1)).fi).length ≤
      ((FIFO.words (x.state t).fi).length - if pops (x.input t) (x.state t) then 1 else 0) +
        if (x.input t).iRMReaddatavalid then 1 else 0 := by
  have hwords := words_step (x.iResetN t) (Run.stored (r := x.toRun) t).bounded
  rw [x.state_succ]
  show (FIFO.words (step _ _).fi).length ≤ _
  rw [hwords, List.length_append]
  refine Nat.add_le_add ?_ ?_
  · split
    · rw [List.length_tail]
    · exact le_rfl
  · split
    · rename_i hpush
      rw [valid_of_pushes (x.iResetN t) hpush]
      rfl
    · exact Nat.zero_le _

theorem write_distance_of_ne (h : (x.state t).wm.state ≠ 1#2) : x.writeDistance t = 0 :=
  if_neg h

theorem write_distance_le (t : ℕ) : x.writeDistance t ≤ 4 - x.writeAge t := by
  rw [writeDistance]
  split
  · exact le_rfl
  · exact Nat.zero_le _

/-- One edge of the writer: the FIFO and the word it is busy with get nearer to being written by
one cycle, and a word that enters is five cycles more. -/
theorem write_distance_succ (hwithin : x.WritesWithin 3) (hlt : x.start < t)
    (hmoving : Moving x.writeStart x.length (x.state t) (x.ledger t))
    (hlast : ¬ LastPresented (x.state t)) :
    5 * (FIFO.words (x.state (t + 1)).fi).length + x.writeDistance (t + 1) ≤
      5 * (FIFO.words (x.state t).fi).length + x.writeDistance t - 1 +
        5 * if (x.input t).iRMReaddatavalid then 1 else 0 := by
  have hwords := length_words_succ (x := x) t
  have hdistance := write_distance_le (x := x) (t + 1)
  have hmove := wm_succ hlt
  rw [pops_eq (x.iResetN t)] at hwords
  rcases hmoving.state with hstate | hstate
  · cases hempty : FIFO.ffEmpty (x.state t).fi with
    | true =>
        -- nothing to take
        have hfree : x.writeDistance (t + 1) = 0 := by
          refine write_distance_of_ne ?_
          generalize (x.state (t + 1)).wm = next at hmove ⊢
          cases hmove with
          | empty => simp [hstate]
          | take _ h =>
              have h : FIFO.ffEmpty (fifo (x.input t) (x.state t)) = false := h
              rw [fifo_eq (x.iResetN t), hempty] at h
              cases h
          | stall h | accept h | stallLast h | acceptLast h | clear h | unused h =>
              simp [hstate] at h
        have hnone := (FIFO.ffEmpty_iff _).mp hempty
        rw [hnone, List.length_nil] at hwords ⊢
        omega
    | false =>
        -- a word leaves for the port, which has at most four cycles to take it
        have hsome : FIFO.words (x.state t).fi ≠ [] := fun h => by
          have := (FIFO.ffEmpty_iff _).mpr h
          exact absurd (hempty.symm.trans this) Bool.false_ne_true
        have hpos := List.length_pos_iff.mpr hsome
        have htaken : (!FIFO.ffEmpty (x.state t).fi && (x.state t).wm.state == 0) = true := by
          simp [hempty, hstate]
        rw [htaken, if_pos rfl] at hwords
        omega
  · have hage : x.writeAge t ≤ 3 := hwithin.age_le t
    have hbusy : x.writeDistance t = 4 - x.writeAge t := if_pos hstate
    have hend : ¬ WriteMaster.AtEnd (x.state t).wm := fun hend => hlast ⟨hstate, hend⟩
    have hkept : (!FIFO.ffEmpty (x.state t).fi && (x.state t).wm.state == 0) = false := by
      simp [hstate]
    rw [hkept] at hwords
    cases hwait : (x.input t).iWMWaitrequest with
    | true =>
        have hstalled : x.writeAge (t + 1) = x.writeAge t + 1 :=
          age_succ_of_true (by simp [hmoving.write, hstate, hwait])
        simp only [Bool.false_eq_true, if_false] at hwords
        omega
    | false =>
        have hfree : x.writeDistance (t + 1) = 0 := by
          refine write_distance_of_ne ?_
          generalize (x.state (t + 1)).wm = next at hmove ⊢
          cases hmove with
          | accept => simp
          | stall _ _ h => exact absurd (hwait.symm.trans h) Bool.false_ne_true
          | stallLast _ h | acceptLast _ h => exact absurd h hend
          | empty h | take h | clear h | unused h => simp [hstate] at h
        simp only [Bool.false_eq_true, if_false] at hwords
        omega

/-! ## The whole transfer -/

/-- The FIFO, the word under way to it and the word the writer is busy with, in cycles of the
writer, against the reads made. -/
def Gaining (x : Transfer) (t : ℕ) : Prop :=
  5 * ((FIFO.words (x.state t).fi).length + if (x.input t).iRMReaddatavalid then 1 else 0) +
    x.writeDistance t ≤ (x.ledger t).reads.length + x.readDistance t + 2

theorem gaining_start (hlatency : x.FixedLatency) : x.Gaining (x.start + 1) := by
  have h := hlatency.conformant
  have hidle := reader_idle (x := x) le_rfl
  have haccept : acceptsRead (x.input x.start) (x.state x.start) = false := by
    simp [acceptsRead, hidle.read]
  have hreads : (x.ledger (x.start + 1)).reads = [] := by
    simp [x.ledger_succ, record, haccept, hidle.reads]
  have hpushed : (x.ledger (x.start + 1)).pushed.length = 0 := by
    have hle := h.pushed_le (x.start + 1)
    rwa [hreads, List.length_nil, Nat.le_zero] at hle
  -- nothing has entered the FIFO, so nothing is stored and nothing presented
  have hmoving := moving_start h
  have hempty := hmoving.length_pushed
  have hnothing : (FIFO.words (x.state (x.start + 1)).fi).length = 0 := by
    omega
  have hfree : x.writeDistance (x.start + 1) = 0 := by
    refine write_distance_of_ne fun hstate => ?_
    rw [hpushed, hmoving.write, hstate, beq_self_eq_true, if_pos rfl] at hempty
    omega
  rw [Gaining, hnothing, hfree, hlatency.2, haccept]
  simp

theorem gaining_succ (hlatency : x.FixedLatency) (hfirst : x.ReadsStalledAtFirst)
    (hwithin : x.WritesWithin 3) (hlt : x.start < t)
    (hmoving : Moving x.writeStart x.length (x.state t) (x.ledger t))
    (hlast : ¬ LastPresented (x.state t)) (hg : x.Gaining t) : x.Gaining (t + 1) := by
  have hwriter := write_distance_succ hwithin hlt hmoving hlast
  have hreads : (x.ledger (t + 1)).reads.length = (x.ledger t).reads.length +
      if acceptsRead (x.input t) (x.state t) then 1 else 0 := by
    rw [x.ledger_succ]
    simp only [record, List.length_append]
    split <;> rfl
  have hanswered : (x.input t).iRMReaddatavalid = true → 1 ≤ (x.ledger t).reads.length :=
    fun hvalid => Nat.one_le_of_lt (hlatency.conformant t hvalid)
  rw [Gaining] at hg ⊢
  rw [hreads, hlatency.2]
  rcases read_distance_succ hlatency hfirst hlt with ⟨haccept, hnearer, hfar⟩ |
    ⟨haccept, hnow, hnext, hvalid⟩
  · rw [haccept]
    cases hvalid : (x.input t).iRMReaddatavalid with
    | true =>
        have hfar := hfar hvalid
        have hanswered := hanswered hvalid
        simp only [hvalid, if_true] at hg hwriter
        simp only [Bool.false_eq_true, if_false]
        omega
    | false =>
        simp only [hvalid, Bool.false_eq_true, if_false] at hg hwriter ⊢
        omega
  · rw [haccept, hnext]
    simp only [hvalid, hnow, Bool.false_eq_true, if_false, if_true] at hg hwriter ⊢
    omega

/-- While words move through, the FIFO gains on the reads. -/
theorem gaining (hlatency : x.FixedLatency) (hfirst : x.ReadsStalledAtFirst)
    (hwithin : x.WritesWithin 3) (hlt : x.start < t)
    (hmoving : Moving x.writeStart x.length (x.state t) (x.ledger t)) : x.Gaining t := by
  have h := hlatency.conformant
  induction t, hlt using Nat.le_induction with
  | base => exact gaining_start hlatency
  | succ t hlt ih =>
      cases stage h hlt with
      | moving hm =>
          rcases moving_succ h hlt hm with ⟨hlast, _⟩ | ⟨_, _, hf⟩ | ⟨_, _, hs⟩
          · exact gaining_succ hlatency hfirst hwithin hlt hm hlast (ih hm)
          · exact absurd (hmoving.done.symm.trans hf.done) Bool.false_ne_true
          · exact absurd (hmoving.done.symm.trans hs.done) Bool.false_ne_true
      | finished hf =>
          exact absurd (hmoving.done.symm.trans (finished_succ h hlt hf).1.done) Bool.false_ne_true
      | stalled hs =>
          have hstuck := stalled_succ h hlt hs
          simpa [hstuck.state, hstuck.write] using hmoving.write
      | stuck hs =>
          have hstuck := stuck_succ h hlt hs
          simpa [hstuck.state, hstuck.write] using hmoving.write

/-- With a read slave of latency one, both slaves stalling each command at first and the write slave
for three cycles at most, a transfer of up to 639 words loses none. -/
theorem lossless_of_shared (hlatency : x.FixedLatency) (hfirst : x.ReadsStalledAtFirst)
    (hwithin : x.WritesWithin 3) (hdvd : 4 ∣ x.length.toNat)
    (hshort : x.length.toNat ≤ 4 * 639) : x.Lossless := by
  refine Run.lossless_iff_pushes.mpr fun _ hvalid => pushes_of_room hlatency hvalid <|
    room_of_valid hlatency (fun u hmark => ?_) hvalid
  obtain ⟨haccept, hfull, hbusy⟩ := hmark
  obtain ⟨hlt, _, _⟩ := reading_of_accepts haccept
  have hmoving := moving_of_full hlatency.conformant hlt hfull
  have hg := gaining hlatency hfirst hwithin hlt hmoving
  have hage := hwithin.age_le u
  have hdistance : x.writeDistance u = 4 - x.writeAge u := if_pos (hmoving.state.resolve_left hbusy)
  have hreads := reads_bound (x := x) (t := u + 1) hdvd
  rw [x.ledger_succ] at hreads
  simp only [record, haccept, if_true, List.length_append, List.length_singleton] at hreads
  rcases read_distance_succ hlatency hfirst hlt with ⟨hnot, _⟩ | ⟨_, hnow, _, _⟩
  · exact absurd (haccept.symm.trans hnot).symm Bool.false_ne_true
  · rw [Gaining, (FIFO.ffAlmostfull_iff _).mp hfull, hnow] at hg
    omega

end Transfer

end CE213Lab.DMA
