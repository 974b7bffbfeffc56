import CE213Lab.DMA.Reader

/-!
# Words through the FIFO

What is stored in the FIFO is what was pushed and not yet popped, and only returned words are
pushed. With a conformant read slave no more words are returned than reads were accepted, so a
length that is a multiple of four bounds everything downstream of the reader.
-/

namespace CE213Lab.DMA

open Foundation DMAFinal

/-- The FIFO's contents against the ledger. -/
structure Stored (s : State) (l : Ledger) : Prop where
  bounded : FIFO.Bounded s.fi
  conserved : l.pushed = l.popped ++ FIFO.words s.fi
  offered : l.pushed.Sublist l.returned

theorem record_pushed {i : Inputs} {s : State} {l : Ledger} (hreset : i.iResetN = true) :
    (record i s l).pushed = l.pushed ++ if pushes i s then [i.iRMReaddata] else [] := by
  cases hpush : pushes i s with
  | false => simp [record, hpush]
  | true => simp [record, hpush, pushed_word (valid_of_pushes hreset hpush)]

theorem Stored.step {i : Inputs} {s : State} {l : Ledger} (h : Stored s l)
    (hreset : i.iResetN = true) : Stored (step i s) (record i s l) where
  bounded := bounded_step hreset h.bounded
  conserved := by
    rw [record_pushed hreset, words_step hreset h.bounded, h.conserved]
    cases hpop : pops i s with
    | false => simp [record, hpop]
    | true =>
        rw [words_of_pops hreset hpop]
        simp [record, hpop, fifo_eq hreset]
  offered := by
    rw [record_pushed hreset]
    refine h.offered.append ?_
    cases hpush : pushes i s with
    | false => simp
    | true => simp [valid_of_pushes hreset hpush]

namespace Run

variable {r : Run} {t : ℕ}

theorem stored (t : ℕ) : Stored (r.state t) (r.ledger t) := by
  refine r.invariant_history record Ledger.empty Stored 0 ?_
    (fun u _ h => h.step (r.iResetN u)) (Nat.zero_le t)
  exact ⟨r.cleared.bounded, r.cleared.words.symm, List.Sublist.refl _⟩

/-- A conformant slave returns no more words than reads were accepted. -/
theorem Conformant.returned_le (h : r.Conformant) (t : ℕ) :
    (r.ledger t).returned.length ≤ (r.ledger t).reads.length := by
  induction t with
  | zero => simp [Ledger.empty]
  | succ t ih =>
      have hanswer := h t
      rw [ledger_succ]
      simp only [record, List.length_append]
      cases hvalid : (r.input t).iRMReaddatavalid with
      | false =>
          simp only [Bool.false_eq_true, if_false, List.length_nil]
          omega
      | true =>
          have := hanswer hvalid
          simp only [if_true, List.length_singleton]
          omega

theorem Conformant.pushed_le (h : r.Conformant) (t : ℕ) :
    (r.ledger t).pushed.length ≤ (r.ledger t).reads.length :=
  (stored t).offered.length_le.trans (h.returned_le t)

/-- Before the first start pulse a conformant slave has nothing to answer, so the FIFO is empty. -/
theorem Conformant.nothing_before (h : r.Conformant)
    (hnone : ∀ u < t, (r.state u).control.oStart = false) :
    (r.ledger t).pushed = [] ∧ (r.ledger t).popped = [] ∧ FIFO.words (r.state t).fi = [] := by
  have hpushed : (r.ledger t).pushed = [] := by
    have hle := h.pushed_le t
    rw [(reader_idle hnone).reads] at hle
    exact List.length_eq_zero_iff.mp (by simpa using hle)
  have hconserved := (stored (r := r) t).conserved
  rw [hpushed] at hconserved
  obtain ⟨hpopped, hwords⟩ := List.append_eq_nil_iff.mp hconserved.symm
  exact ⟨hpushed, hpopped, hwords⟩

end Run

namespace Transfer

variable {x : Transfer} {t : ℕ}

/-- Once the whole region has entered the FIFO nothing more does. -/
theorem pushes_eq_false (h : x.Conformant)
    (hall : 4 * (x.ledger t).pushed.length = x.length.toNat) :
    pushes (x.input t) (x.state t) = false := by
  cases hpush : pushes (x.input t) (x.state t) with
  | false => rfl
  | true =>
      have hanswer := h t (valid_of_pushes (x.iResetN t) hpush)
      have hoffered := (Run.stored (r := x.toRun) t).offered.length_le
      have hbound := reads_bound (x := x) (t := t) (by omega)
      omega

/-- Before the start pulse a conformant slave has nothing to answer, so the FIFO is empty. -/
theorem nothing_before (h : x.Conformant) (hle : t ≤ x.start) :
    (x.ledger t).pushed = [] ∧ (x.ledger t).popped = [] ∧ FIFO.words (x.state t).fi = [] :=
  h.nothing_before fun _ hlt => oStart_before (hlt.trans_le hle)

end Transfer

end CE213Lab.DMA
