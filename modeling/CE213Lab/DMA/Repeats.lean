import CE213Lab.DMA.LastWord
import CE213Lab.Foundation.Store

/-!
# What the write port does over a whole run

The course of a transfer pairs the addresses of its walk with the words that entered the FIFO. The
accepted writes follow it in order. A stall of the last word leaves its command on offer for ever,
so after that the slave may be given the last entry any number of times, but never anything else:
`writes_repeat_last` holds under any stalls, for any length.
-/

namespace CE213Lab.DMA

open Foundation DMAFinal

/-- The writes a transfer to `W` should make of the words that have entered the FIFO. -/
def course (W : Word) (pushed : List Word) : List (Word × Word) :=
  (stride W 4 pushed.length).zip pushed

/-- The command of the last entry of the course is on offer, and beyond the entries before it
nothing else has been accepted. -/
structure Offering (W : Word) (s : State) (l : Ledger) : Prop where
  write : s.wm.oWMWrite = true
  last : (course W l.pushed).getLast? = some (s.wm.oWMWriteaddress, s.wm.oWMWritedata)
  writes : ∃ k, l.writes = (course W l.pushed).dropLast ++
    List.replicate k (s.wm.oWMWriteaddress, s.wm.oWMWritedata)

section Course

variable {W L : Word} {i : Inputs} {s : State} {l : Ledger}

@[simp] theorem length_course {pushed : List Word} : (course W pushed).length = pushed.length := by
  simp [course]

theorem getElem?_course {pushed : List Word} {n : ℕ} :
    (course W pushed)[n]? = pushed[n]?.map fun word => (strideAt W 4 n, word) := by
  rcases Nat.lt_or_ge n pushed.length with hlt | hge
  · simp [course, stride, hlt]
  · simp [hge]

/-- The addresses of the course, each once when the course does not go round the address space. -/
theorem nodup_course {pushed : List Word} (h : 4 * pushed.length ≤ 2 ^ 32) :
    ((course W pushed).map Prod.fst).Nodup := by
  rw [course, List.map_fst_zip (by simp)]
  exact nodup_stride (by decide) h

/-- While the write side conserves its words, the accepted writes begin the course. -/
theorem Conserved.writes_begin (h : Conserved W s l) : l.writes <+: course W l.pushed := by
  have hlength := h.length_pushed
  refine begins_zip ?_ ?_
  · rw [h.addresses]
    exact stride_begins (by omega)
  · rw [← h.entered]
    exact (conveyor s l).delivered_begins

/-- A stalled last word is the last entry of the course, the others having been accepted. -/
theorem Stalled.offering (h : Stalled W L s l) : Offering W s l := by
  have hlength : l.pushed.length = l.writes.length + 1 := by
    simpa [h.write, h.words] using h.length_pushed
  have hheld : l.pushed[l.writes.length]? = some s.wm.oWMWritedata := by
    rw [← h.entered, ← @List.length_map _ _ l.writes Prod.snd]
    exact Conveyor.getElem_held (c := conveyor s l) (by simp [conveyor, h.write])
  refine ⟨h.write, ?_, 0, ?_⟩
  · rw [List.getLast?_eq_getElem?, length_course, hlength, Nat.add_sub_cancel, getElem?_course,
      hheld, h.presented h.write]
    rfl
  · rw [List.replicate_zero, List.append_nil, List.dropLast_eq_take, length_course, hlength,
      Nat.add_sub_cancel]
    exact List.prefix_iff_eq_take.mp h.writes_begin

/-- As long as the command does not change and nothing more enters the FIFO, only the last entry is
accepted. -/
theorem Offering.step (h : Offering W s l) (hreset : i.iResetN = true)
    (hpush : pushes i s = false)
    (hwm : (step i s).wm.oWMWrite = s.wm.oWMWrite ∧
      (step i s).wm.oWMWriteaddress = s.wm.oWMWriteaddress ∧
      (step i s).wm.oWMWritedata = s.wm.oWMWritedata) :
    Offering W (step i s) (record i s l) := by
  obtain ⟨hwrite, haddress, hdata⟩ := hwm
  have hpushed : (record i s l).pushed = l.pushed := by
    simp [record_pushed hreset, hpush]
  obtain ⟨k, hk⟩ := h.writes
  refine ⟨hwrite.trans h.write, ?_, ?_⟩
  · rw [hpushed, haddress, hdata]
    exact h.last
  · rw [hpushed, haddress, hdata]
    cases haccept : acceptsWrite i s with
    | false => exact ⟨k, by simp [record, haccept, hk]⟩
    | true =>
        refine ⟨k + 1, ?_⟩
        simp [record, haccept, hk, List.replicate_succ']

end Course

/-! ## Over a run -/

namespace Transfer

variable {x : Transfer} {t u : ℕ}

/-- After a stall of the last word its command is on offer in every cycle. -/
theorem offering_after (h : x.Conformant) (hstalled : x.LastStalled t) (hlt : t < u) :
    Offering x.writeStart (x.state u) (x.ledger u) := by
  obtain ⟨hstart, hs⟩ := stalled_of_last_stalled h hstalled
  induction u, hlt using Nat.le_induction with
  | base => exact hs.offering
  | succ u hle ih =>
      have hlater : x.start < u := by omega
      have hpush := pushes_eq_false h (offered_after h hstalled hle).2.2
      have hmove := wm_move (x.iResetN u) (oStart_after hlater)
      rw [x.state_succ]
      refine ih.step (x.iResetN u) hpush ?_
      rcases stalled_or_stuck h hstalled hle with ⟨_, hs⟩ | hs
      · -- the edge that clears `oWM_done` leaves the command alone
        generalize (step (x.input u) (x.state u)).wm = next at hmove ⊢
        cases hmove with
        | clear => exact ⟨rfl, rfl, rfl⟩
        | empty h | take h | stall h | accept h | stallLast h | acceptLast h | unused h =>
            simp [hs.state] at h
      · have hwm := wm_step_of_empty (x.iResetN u) (oStart_after hlater) hs.state hs.words
        exact ⟨congrArg _ hwm, congrArg _ hwm, congrArg _ hwm⟩

/-- The accepted writes follow the course of the transfer, and repeat its last entry at most. -/
theorem writes_repeat_last (h : x.Conformant) :
    RepeatsLast (course x.writeStart (x.ledger t).pushed) (x.ledger t).writes := by
  rcases Nat.lt_or_ge x.start t with hlt | hge
  · rcases stage_or_last_stalled h hlt with hm | hf | ⟨u, hu, hs⟩
    · exact .inl hm.writes_begin
    · exact .inl hf.writes_begin
    · have ho := offering_after h hs hu
      obtain ⟨k, hk⟩ := ho.writes
      rw [hk]
      exact .of_dropLast ho.last k
  · simp [RepeatsLast, (writer_idle h hge).writes]

/-- Under any stalls and any response times the accepted writes follow the course of the transfer
or repeat its last entry, and more writes than words are accepted only when the whole length has
entered the FIFO and the last word was stalled in the cycle it was first presented. -/
theorem follows_course (h : x.Conformant) (t : ℕ) :
    RepeatsLast (course x.writeStart (x.ledger t).pushed) (x.ledger t).writes ∧
      ((x.ledger t).pushed.length < (x.ledger t).writes.length →
        4 * (x.ledger t).pushed.length = x.length.toNat ∧ ∃ u < t, x.LastStalled u) := by
  refine ⟨writes_repeat_last h, fun hmore => ?_⟩
  have hlt : x.start < t := by
    by_contra hge
    simp [(writer_idle h (Nat.le_of_not_lt hge)).writes] at hmore
  rcases stage_or_last_stalled h hlt with hm | hf | ⟨u, hu, hs⟩
  · have := hm.length_pushed
    omega
  · have := hf.length_pushed
    omega
  · exact ⟨(offered_after h hs hu).2.2, u, hu, hs⟩

/-- One word, stalled twice: by cycle 14 the course of one entry has been written and repeated. -/
theorem stalled_copy_follows_course :
    RepeatsLast (course stalledCopy.writeStart (stalledCopy.ledger 14).pushed)
        (stalledCopy.ledger 14).writes ∧
      ((stalledCopy.ledger 14).pushed.length < (stalledCopy.ledger 14).writes.length →
        4 * (stalledCopy.ledger 14).pushed.length = stalledCopy.length.toNat ∧
          ∃ u < 14, stalledCopy.LastStalled u) :=
  follows_course stalled_copy_parameters.1 14

end Transfer

end CE213Lab.DMA
