import CE213Lab.DMA.Buffering

/-!
# The write side as a conveyor

The FIFO and the write master together are a conveyor: words wait in the FIFO, one is presented at
the write port, the accepted ones are delivered. `conveyor_step` is the refinement of one clock
edge. It holds until the end test succeeds, and then depends on `iWM_waitrequest` in the very
cycle the last word is first presented: accepted at once, the writer is `Finished` and keeps
`oWM_done` high; stalled, it raises `oWM_done` with the word still on offer (`Stalled`) and
afterwards never lowers `oWM_write` again (`Stuck`).
-/

namespace CE213Lab.DMA

open Foundation DMAFinal

/-- The conveyor the FIFO and the write master stand for. -/
def conveyor (s : State) (l : Ledger) : Conveyor Word where
  delivered := l.writes.map Prod.snd
  held := if s.wm.oWMWrite then some s.wm.oWMWritedata else none
  waiting := FIFO.words s.fi

/-- The last word of the transfer is presented for the first time. -/
def LastPresented (s : State) : Prop :=
  s.wm.state = 1#2 ∧ WriteMaster.AtEnd s.wm

instance (s : State) : Decidable (LastPresented s) :=
  inferInstanceAs (Decidable (_ ∧ _))

section Step

variable {i : Inputs} {s : State} {l : Ledger}

theorem wm_move (hreset : i.iResetN = true) (hstart : s.control.oStart = false) :
    WriteMaster.Move (wmInputs i s) s.wm (step i s).wm :=
  WriteMaster.step_move hreset hstart

theorem empty_iff (hreset : i.iResetN = true) :
    (wmInputs i s).iFFEmpty = true ↔ FIFO.words s.fi = [] := by
  rw [← FIFO.ffEmpty_iff, ← fifo_eq hreset]
  rfl

/-- While commands are presented in state 1 only, a clock edge is one cycle of the conveyor. -/
theorem conveyor_step (hreset : i.iResetN = true) (hstart : s.control.oStart = false)
    (hbound : FIFO.Bounded s.fi) (hstate : s.wm.state = 0#2 ∨ s.wm.state = 1#2)
    (hwrite : s.wm.oWMWrite = (s.wm.state == 1#2)) :
    conveyor (step i s) (record i s l) =
      (conveyor s l).cycle (!i.iWMWaitrequest)
        (if pushes i s then some i.iRMReaddata else none) := by
  have hwords := words_step hreset hbound
  have hpops := pops_eq (s := s) hreset
  have hmove := wm_move hreset hstart
  have harrive : (if pushes i s then some i.iRMReaddata else none : Option Word).toList =
      if pushes i s then [i.iRMReaddata] else [] := by
    split <;> rfl
  simp only [conveyor, Conveyor.cycle, hwords, harrive]
  generalize (step i s).wm = next at hmove ⊢
  cases hmove with
  | empty h hempty =>
      have hempty := (empty_iff hreset).mp hempty
      simp [record, acceptsWrite, Conveyor.advance, hwrite, h, hempty]
  | take h hempty =>
      have hempty : FIFO.ffEmpty s.fi = false := by
        rw [← fifo_eq hreset]
        exact hempty
      rw [hpops, FIFO.words_eq_cons hempty]
      simp [record, acceptsWrite, Conveyor.advance, hwrite, h, hempty, wmInputs, fifo_eq hreset]
  | stall h _ hwait | stallLast h _ hwait =>
      have hwait : i.iWMWaitrequest = true := hwait
      simp [record, acceptsWrite, Conveyor.advance, hwrite, hpops, h, hwait]
  | accept h _ hwait | acceptLast h _ hwait =>
      have hwait : i.iWMWaitrequest = false := hwait
      simp [record, acceptsWrite, Conveyor.advance, hwrite, hpops, h, hwait]
  | clear h | unused h => rcases hstate with h' | h' <;> simp [h] at h'

end Step

/-! ## The stages of a transfer -/

/-- Nothing is lost, doubled or reordered between the FIFO's input and the write port. -/
structure Conserved (W : Word) (s : State) (l : Ledger) : Prop where
  entered : (conveyor s l).entered = l.pushed
  addresses : l.writes.map Prod.fst = stride W 4 l.writes.length
  presented : s.wm.oWMWrite = true → s.wm.oWMWriteaddress = strideAt W 4 l.writes.length

/-- Words move through; the end test has not succeeded. -/
structure Moving (W L : Word) (s : State) (l : Ledger) : Prop extends Conserved W s l where
  last : s.wm.wmLastwriteaddress = W + L
  done : s.wm.oWMDone = false
  state : s.wm.state = 0#2 ∨ s.wm.state = 1#2
  write : s.wm.oWMWrite = (s.wm.state == 1#2)
  address : s.wm.oWMWriteaddress = strideAt W 4 l.writes.length
  unfinished : l.writes.length ≠ 0 → s.wm.oWMWriteaddress ≠ s.wm.wmLastwriteaddress

/-- The last word was accepted in the cycle it was first presented. -/
structure Finished (W L : Word) (s : State) (l : Ledger) : Prop extends Conserved W s l where
  done : s.wm.oWMDone = true
  state : s.wm.state = 0#2
  write : s.wm.oWMWrite = false
  words : FIFO.words s.fi = []
  complete : 4 * l.writes.length = L.toNat

/-- The last word was stalled in the cycle it was first presented: done is reported for it. -/
structure Stalled (W L : Word) (s : State) (l : Ledger) : Prop extends Conserved W s l where
  done : s.wm.oWMDone = true
  state : s.wm.state = 2#2
  write : s.wm.oWMWrite = true
  words : FIFO.words s.fi = []
  complete : 4 * (l.writes.length + 1) = L.toNat

/-- The command of the stalled last word is presented for ever. -/
structure Stuck (W L : Word) (s : State) (l : Ledger) : Prop where
  done : s.wm.oWMDone = false
  state : s.wm.state = 0#2
  write : s.wm.oWMWrite = true
  words : FIFO.words s.fi = []
  complete : 4 * l.pushed.length = L.toNat
  positive : 0 < l.pushed.length
  address : s.wm.oWMWriteaddress = strideAt W 4 (l.pushed.length - 1)
  region : ∀ w ∈ l.writes, ∃ n < l.pushed.length, w.1 = strideAt W 4 n

namespace Conserved

variable {W : Word} {s : State} {l : Ledger}

/-- What has entered the FIFO is written, presented or stored. -/
theorem length_pushed (h : Conserved W s l) :
    l.pushed.length =
      l.writes.length + (if s.wm.oWMWrite then 1 else 0) + (FIFO.words s.fi).length := by
  have hheld : (conveyor s l).held.toList.length = if s.wm.oWMWrite then 1 else 0 := by
    simp only [conveyor]
    split <;> rfl
  rw [← h.entered, Conveyor.length_entered, hheld]
  simp [conveyor]

/-- Every accepted write went to an address of the region walked so far. -/
theorem address_of_mem (h : Conserved W s l) {w : Word × Word} (hw : w ∈ l.writes) :
    ∃ n < l.writes.length, w.1 = strideAt W 4 n := by
  have hmem : w.1 ∈ stride W 4 l.writes.length := h.addresses ▸ List.mem_map_of_mem hw
  obtain ⟨n, hn, heq⟩ := List.mem_map.mp hmem
  exact ⟨n, List.mem_range.mp hn, heq.symm⟩

end Conserved

/-! ## Steps between the stages -/

section Stages

variable {W L : Word} {i : Inputs} {s : State} {l : Ledger}

/-- A write of the ledger is an old one or goes to the address presented. -/
theorem mem_writes_record {w : Word × Word} (hw : w ∈ (record i s l).writes) :
    w ∈ l.writes ∨ w.1 = s.wm.oWMWriteaddress := by
  simp only [record, List.mem_append] at hw
  rcases hw with hw | hw
  · exact .inl hw
  · split at hw
    · exact .inr (congrArg Prod.fst (List.mem_singleton.mp hw))
    · simp at hw

theorem Conserved.addresses_step (h : Conserved W s l) :
    (record i s l).writes.map Prod.fst = stride W 4 (record i s l).writes.length := by
  cases haccept : acceptsWrite i s with
  | false => simpa [record, haccept] using h.addresses
  | true =>
      have hwrite : s.wm.oWMWrite = true := (Bool.and_eq_true_iff.mp haccept).1
      simp [record, haccept, h.addresses, h.presented hwrite, stride_succ]

theorem Conserved.entered_step (h : Conserved W s l) (hreset : i.iResetN = true)
    (hconveyor : conveyor (step i s) (record i s l) = (conveyor s l).cycle (!i.iWMWaitrequest)
      (if pushes i s then some i.iRMReaddata else none)) :
    (conveyor (step i s) (record i s l)).entered = (record i s l).pushed := by
  rw [hconveyor, Conveyor.entered_cycle, h.entered, record_pushed hreset]
  split <;> rfl

/-- When the end test succeeds, the presented word is the last of the region and the FIFO is
empty. -/
theorem Moving.last_word (h : Moving W L s l) (hlast : LastPresented s)
    (hbound : 4 ∣ L.toNat → 4 * l.pushed.length ≤ L.toNat) :
    4 * (l.writes.length + 1) = L.toNat ∧ FIFO.words s.fi = [] ∧
      l.pushed.length = l.writes.length + 1 := by
  obtain ⟨hstate, hend⟩ := hlast
  have hmod : 4 * (l.writes.length + 1) % 2 ^ 32 = L.toNat := by
    rw [← strideAt_eq_end, ← h.last, ← strideAt_succ, ← h.address]
    exact hend
  have hpushed := h.length_pushed
  rw [h.write, hstate] at hpushed
  have hle := hbound (dvd_of_mod_eq (by decide) hmod)
  have hlt := L.isLt
  simp only [beq_self_eq_true, if_true] at hpushed
  rw [Nat.mod_eq_of_lt (by omega)] at hmod
  exact ⟨hmod, List.length_eq_zero_iff.mp (by omega), by omega⟩

/-- A writer that stays as it is and has nothing accepted keeps the transfer moving. -/
theorem Moving.unchanged (h : Moving W L s l)
    (hentered : (conveyor (DMAFinal.step i s) (record i s l)).entered = (record i s l).pushed)
    (hwm : (DMAFinal.step i s).wm = s.wm) (hwrites : (record i s l).writes = l.writes) :
    Moving W L (DMAFinal.step i s) (record i s l) where
  entered := hentered
  addresses := h.addresses_step
  presented := by rw [hwm, hwrites]; exact h.presented
  last := by rw [hwm]; exact h.last
  done := by rw [hwm]; exact h.done
  state := by rw [hwm]; exact h.state
  write := by rw [hwm]; exact h.write
  address := by rw [hwm, hwrites]; exact h.address
  unfinished := by rw [hwm, hwrites]; exact h.unfinished

/-- One edge of a moving transfer: it keeps moving unless the last word is presented, and then the
destination slave's answer in this cycle decides. -/
theorem Moving.step (h : Moving W L s l) (hreset : i.iResetN = true)
    (hstart : s.control.oStart = false) (hstored : FIFO.Bounded s.fi)
    (hbound : 4 ∣ L.toNat → 4 * l.pushed.length ≤ L.toNat)
    (hfull : 4 * l.pushed.length = L.toNat → pushes i s = false) :
    ¬ LastPresented s ∧ Moving W L (step i s) (record i s l) ∨
      LastPresented s ∧ i.iWMWaitrequest = false ∧ Finished W L (step i s) (record i s l) ∨
      LastPresented s ∧ i.iWMWaitrequest = true ∧ Stalled W L (step i s) (record i s l) := by
  have hentered := h.toConserved.entered_step hreset
    (conveyor_step hreset hstart hstored h.state h.write)
  have haddresses := h.toConserved.addresses_step (i := i)
  have hwords := words_step hreset hstored
  -- state 1 pops nothing, and at the last word nothing is pushed either
  have hdrained : LastPresented s → FIFO.words (DMAFinal.step i s).fi = [] := by
    intro hlast
    obtain ⟨hcomplete, hempty, hpushed⟩ := h.last_word hlast hbound
    simp [hwords, hempty, hfull (by omega)]
  have hmove := wm_move hreset hstart
  generalize hnext : (DMAFinal.step i s).wm = next at hmove
  cases hmove with
  | empty hstate _ =>
      have hwrites : (record i s l).writes = l.writes := by
        simp [record, acceptsWrite, h.write, hstate]
      refine .inl ⟨fun hlast => by simp [hlast.1] at hstate, ?_⟩
      exact h.unchanged hentered hnext hwrites
  | take hstate _ =>
      have hwrites : (record i s l).writes = l.writes := by
        simp [record, acceptsWrite, h.write, hstate]
      refine .inl ⟨fun hlast => by simp [hlast.1] at hstate, ?_⟩
      exact { entered := hentered, addresses := haddresses,
              presented := by rw [hnext, hwrites]; exact fun _ => h.address
              last := by rw [hnext]; exact h.last
              done := by rw [hnext]; exact h.done
              state := by rw [hnext]; exact .inr rfl
              write := by rw [hnext]; rfl
              address := by rw [hnext, hwrites]; exact h.address
              unfinished := by rw [hnext, hwrites]; exact h.unfinished }
  | stall hstate hend hwait =>
      have hwait : i.iWMWaitrequest = true := hwait
      have hwrites : (record i s l).writes = l.writes := by
        simp [record, acceptsWrite, hwait]
      exact .inl ⟨fun hlast => hend hlast.2, h.unchanged hentered hnext hwrites⟩
  | accept hstate hend hwait =>
      have hwait : i.iWMWaitrequest = false := hwait
      have hwrites : (record i s l).writes.length = l.writes.length + 1 := by
        simp [record, acceptsWrite, h.write, hstate, hwait]
      refine .inl ⟨fun hlast => hend hlast.2, ?_⟩
      exact { entered := hentered, addresses := haddresses,
              presented := by simp [hnext]
              last := by rw [hnext]; exact h.last
              done := by rw [hnext]; exact h.done
              state := by rw [hnext]; exact .inl rfl
              write := by rw [hnext]; rfl
              address := by rw [hnext, hwrites, ← strideAt_succ, ← h.address]; rfl
              unfinished := by rw [hnext]; exact fun _ heq => hend heq.symm }
  | stallLast hstate hend hwait =>
      have hwait : i.iWMWaitrequest = true := hwait
      have hwrites : (record i s l).writes = l.writes := by
        simp [record, acceptsWrite, hwait]
      have hlast : LastPresented s := ⟨hstate, hend⟩
      refine .inr (.inr ⟨hlast, hwait, ?_⟩)
      exact { entered := hentered, addresses := haddresses,
              presented := by rw [hnext, hwrites]; exact fun _ => h.address
              done := by rw [hnext]
              state := by rw [hnext]; rfl
              write := by rw [hnext, h.write, hstate]; rfl
              words := hdrained hlast
              complete := by rw [hwrites]; exact (h.last_word hlast hbound).1 }
  | acceptLast hstate hend hwait =>
      have hwait : i.iWMWaitrequest = false := hwait
      have hwrites : (record i s l).writes.length = l.writes.length + 1 := by
        simp [record, acceptsWrite, h.write, hstate, hwait]
      have hlast : LastPresented s := ⟨hstate, hend⟩
      refine .inr (.inl ⟨hlast, hwait, ?_⟩)
      exact { entered := hentered, addresses := haddresses,
              presented := by simp [hnext]
              done := by rw [hnext]
              state := by rw [hnext]; rfl
              write := by rw [hnext]
              words := hdrained hlast
              complete := by rw [hwrites]; exact (h.last_word hlast hbound).1 }
  | clear hstate | unused hstate =>
      rcases h.state with h' | h' <;> simp [hstate] at h'

/-- A transfer past its last word leaves the FIFO empty. -/
theorem words_step_eq_nil (hreset : i.iResetN = true) (hstored : FIFO.Bounded s.fi)
    (hwords : FIFO.words s.fi = []) (hpush : pushes i s = false) :
    FIFO.words (step i s).fi = [] := by
  simp [words_step hreset hstored, hwords, hpush]

/-- With nothing to take the writer rests in state 0. -/
theorem wm_step_of_empty (hreset : i.iResetN = true) (hstart : s.control.oStart = false)
    (hstate : s.wm.state = 0#2) (hwords : FIFO.words s.fi = []) : (step i s).wm = s.wm := by
  have hempty : (wmInputs i s).iFFEmpty = true := (empty_iff hreset).mpr hwords
  have hmove := wm_move hreset hstart
  generalize (step i s).wm = next at hmove ⊢
  cases hmove with
  | empty => rfl
  | take _ h => simp [hempty] at h
  | stall h | accept h | stallLast h | acceptLast h | clear h | unused h => simp [hstate] at h

theorem Finished.all_pushed (h : Finished W L s l) : 4 * l.pushed.length = L.toNat := by
  rw [h.length_pushed, h.write, h.words]
  simpa using h.complete

theorem Stalled.all_pushed (h : Stalled W L s l) : 4 * l.pushed.length = L.toNat := by
  rw [h.length_pushed, h.write, h.words]
  simpa using h.complete

/-- A finished transfer stays finished, with the same writes. -/
theorem Finished.step (h : Finished W L s l) (hreset : i.iResetN = true)
    (hstart : s.control.oStart = false) (hstored : FIFO.Bounded s.fi)
    (hpush : pushes i s = false) :
    Finished W L (step i s) (record i s l) ∧ (record i s l).writes = l.writes := by
  have hwm := wm_step_of_empty hreset hstart h.state h.words
  have hwords := words_step_eq_nil hreset hstored h.words hpush
  have hwrites : (record i s l).writes = l.writes := by
    simp [record, acceptsWrite, h.write]
  have hentered : (conveyor (DMAFinal.step i s) (record i s l)).entered =
      (record i s l).pushed := by
    rw [record_pushed hreset, hpush, ← h.entered]
    simp [conveyor, hwm, hwords, h.words, hwrites, Conveyor.entered]
  refine ⟨?_, hwrites⟩
  exact { entered := hentered, addresses := h.addresses_step
          presented := by simp [hwm, h.write]
          done := by rw [hwm]; exact h.done
          state := by rw [hwm]; exact h.state
          write := by rw [hwm]; exact h.write
          words := hwords
          complete := by rw [hwrites]; exact h.complete }

/-- After the stalled last word the writer is stuck with its command on offer. -/
theorem Stalled.step (h : Stalled W L s l) (hreset : i.iResetN = true)
    (hstart : s.control.oStart = false) (hstored : FIFO.Bounded s.fi)
    (hpush : pushes i s = false) : Stuck W L (step i s) (record i s l) := by
  have hwords := words_step_eq_nil hreset hstored h.words hpush
  have hpushed : (record i s l).pushed = l.pushed := by
    rw [record_pushed hreset, hpush]
    simp
  have hlength : l.pushed.length = l.writes.length + 1 := by
    simpa [h.write, h.words] using h.length_pushed
  have haddress := h.presented h.write
  have hmove := wm_move hreset hstart
  generalize hnext : (DMAFinal.step i s).wm = next at hmove
  cases hmove with
  | clear _ =>
      exact {
        done := by rw [hnext]
        state := by rw [hnext]; rfl
        write := by rw [hnext]; exact h.write
        words := hwords
        complete := by rw [hpushed]; exact h.all_pushed
        positive := by rw [hpushed]; omega
        address := by rw [hnext, hpushed, hlength]; exact haddress
        region := by
          intro w hw
          rw [hpushed]
          rcases mem_writes_record hw with hw | hw
          · obtain ⟨n, hn, heq⟩ := h.address_of_mem hw
            exact ⟨n, by omega, heq⟩
          · exact ⟨l.writes.length, by omega, hw.trans haddress⟩ }
  | empty h' | take h' | stall h' | accept h' | stallLast h' | acceptLast h' | unused h' =>
      simp [h.state] at h'

/-- A stuck writer stays stuck. -/
theorem Stuck.step (h : Stuck W L s l) (hreset : i.iResetN = true)
    (hstart : s.control.oStart = false) (hstored : FIFO.Bounded s.fi)
    (hpush : pushes i s = false) : Stuck W L (step i s) (record i s l) := by
  have hwm := wm_step_of_empty hreset hstart h.state h.words
  have hpushed : (record i s l).pushed = l.pushed := by
    rw [record_pushed hreset, hpush]
    simp
  exact {
    done := by rw [hwm]; exact h.done
    state := by rw [hwm]; exact h.state
    write := by rw [hwm]; exact h.write
    words := words_step_eq_nil hreset hstored h.words hpush
    complete := by rw [hpushed]; exact h.complete
    positive := by rw [hpushed]; exact h.positive
    address := by rw [hwm, hpushed]; exact h.address
    region := by
      intro w hw
      rw [hpushed]
      rcases mem_writes_record hw with hw | hw
      · exact h.region w hw
      · exact ⟨_, Nat.sub_lt h.positive one_pos, hw.trans h.address⟩ }

end Stages

end CE213Lab.DMA
