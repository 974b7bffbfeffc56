import CE213Lab.DMA.LastWord

/-!
# Conservation and order through the engine

The conveyor read back in the registers' own terms: from the start pulse up to the first cycle of
`oWM_done`, the words pushed are those written, then the one presented, then those in the FIFO.
-/

namespace CE213Lab.DMA

open Foundation DMAFinal

namespace Transfer

variable {x : Transfer} {t : ℕ}

/-- In cycle `t` every word that entered the FIFO is accounted for, in order: `pushed` is the list
of words enqueued, `writes` the list of accepted writes. -/
structure WordsConserved (x : Transfer) (t : ℕ) : Prop where
  count : (x.ledger t).pushed.length = (x.ledger t).writes.length +
    (if (x.state t).wm.oWMWrite then 1 else 0) + FIFO.occupancy (x.state t).fi
  written : (x.ledger t).writes =
    (stride x.writeStart 4 (x.ledger t).writes.length).zip (x.ledger t).pushed
  presented : (x.state t).wm.oWMWrite = true →
    (x.state t).wm.oWMWriteaddress = strideAt x.writeStart 4 (x.ledger t).writes.length ∧
      (x.ledger t).pushed[(x.ledger t).writes.length]? = some (x.state t).wm.oWMWritedata
  stored : FIFO.words (x.state t).fi = (x.ledger t).pushed.drop
    ((x.ledger t).writes.length + if (x.state t).wm.oWMWrite then 1 else 0)

theorem words_conserved_of_conserved
    (h : Conserved x.writeStart (x.state t) (x.ledger t)) : x.WordsConserved t := by
  have hheld : (conveyor (x.state t) (x.ledger t)).held.toList.length =
      if (x.state t).wm.oWMWrite then 1 else 0 := by
    unfold conveyor
    split <;> rfl
  have hdelivered : (conveyor (x.state t) (x.ledger t)).delivered.length =
      (x.ledger t).writes.length := List.length_map _
  constructor
  · simpa using h.length_pushed
  · refine eq_zip_of_begins h.addresses ?_
    rw [← h.entered]
    exact (conveyor (x.state t) (x.ledger t)).delivered_begins
  · intro hwrite
    refine ⟨h.presented hwrite, ?_⟩
    rw [← h.entered, ← hdelivered]
    exact Conveyor.getElem_held (by simp [conveyor, hwrite])
  · rw [← h.entered, ← hdelivered, ← hheld]
    exact (conveyor (x.state t) (x.ledger t)).waiting_eq_drop

/-- From the start pulse until `oWM_done` first rises, that cycle included, no word is lost,
doubled or reordered, for any length, any stalls and any response latency. -/
theorem words_conserved (h : x.Conformant) (hle : x.start ≤ t)
    (hbefore : ∀ u, x.start ≤ u → u < t → (x.state u).wm.oWMDone = false) :
    x.WordsConserved t := by
  refine words_conserved_of_conserved (conserved h hle ?_)
  intro u hu
  rcases Nat.lt_or_ge u x.start with hlt | hge
  · exact (writer_idle h hlt.le).done
  · exact hbefore u hge hu

/-- The stalled last word is conserved in the very cycle its completion is reported. -/
theorem stalled_copy_conserved : stalledCopy.WordsConserved 11 := by
  have hbefore : ∀ u < 11, (stalledCopy.state u).wm.oWMDone = false := by decide +kernel
  exact words_conserved stalled_copy_parameters.1 (by decide) fun u _ hu => hbefore u hu

end Transfer

end CE213Lab.DMA
