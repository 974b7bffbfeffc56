import CE213Lab.DMA.Completion
import CE213Lab.DMA.Repeats

/-!
# The copy under any stalls that end

Neither slave need accept a command at once: each only has to accept, some time or other, what is
kept on offer. The reader then gets through its walk, a full FIFO included, since the writer makes
room; and the write side drains until the whole course has been written. What the memory behind
the write port holds from then on is the copy, although the last entry may be written for ever.
-/

namespace CE213Lab.DMA

open Foundation DMAFinal

/-- The memory `after` holds `data` at the addresses of the walk from `W`, and is `before`
elsewhere. -/
structure HoldsCopy (W : Word) (data : List Word) (before after : Word → Word) : Prop where
  copied : ∀ n word, data[n]? = some word → after (strideAt W 4 n) = word
  kept : ∀ a, a ∉ stride W 4 data.length → after a = before a

/-- The course of a walk that visits each address once leaves a copy. -/
theorem holds_copy_course {W : Word} {data : List Word} {memory : Word → Word}
    (h : 4 * data.length ≤ 2 ^ 32) :
    HoldsCopy W data memory (afterWrites memory (course W data)) where
  copied := by
    intro n word hword
    have hentry : (course W data)[n]? = some (strideAt W 4 n, word) := by
      rw [getElem?_course, hword]
      rfl
    exact after_writes_of_nodup (nodup_course h) (List.mem_of_getElem? hentry)
  kept := by
    intro a ha
    refine after_writes_of_not_mem ?_
    rwa [course, List.map_fst_zip (by simp)]

namespace Transfer

variable {x : Transfer} {t n N : ℕ}

/-- A read kept on offer is accepted some time. -/
def ReadsServed (x : Transfer) : Prop :=
  InfinitelyOften fun t =>
    (x.state t).rm.oRMRead = true → (x.input t).iRMWaitrequest = false

/-- A write kept on offer is accepted some time. -/
def WritesServed (x : Transfer) : Prop :=
  InfinitelyOften fun t =>
    (x.state t).wm.oWMWrite = true → (x.input t).iWMWaitrequest = false

/-! ## Reads -/

/-- A reader held up by a full FIFO, with the writer in `state`. -/
def HeldUp (x : Transfer) (state : BitVec 2) (n t : ℕ) : Prop :=
  x.Pending 0#2 n t ∧ FIFO.ffAlmostfull (x.state t).fi = true ∧ (x.state t).wm.state = state

/-- The writer of a full FIFO has a word to write or is free to take one. -/
theorem moving_of_full (h : x.Conformant) (hlt : x.start < t)
    (hfull : FIFO.ffAlmostfull (x.state t).fi = true) :
    Moving x.writeStart x.length (x.state t) (x.ledger t) := by
  have hwords := (FIFO.ffAlmostfull_iff _).mp hfull
  cases stage h hlt with
  | moving hm => exact hm
  | finished hf => simp [hf.words] at hwords
  | stalled hs => simp [hs.words] at hwords
  | stuck hs => simp [hs.words] at hwords

/-- With a writer that holds a word, a full FIFO stays full. -/
theorem full_succ (hfull : FIFO.ffAlmostfull (x.state t).fi = true)
    (hbusy : (x.state t).wm.state ≠ 0#2) : FIFO.ffAlmostfull (x.state (t + 1)).fi = true := by
  have hwords := words_step (x.iResetN t) (Run.stored (r := x.toRun) t).bounded
  rw [pops_eq (x.iResetN t), pushes_eq (x.iResetN t), hfull] at hwords
  rw [FIFO.ffAlmostfull_iff, x.state_succ]
  show (FIFO.words (step _ _).fi).length = 128
  rw [hwords]
  simpa [hbusy] using (FIFO.ffAlmostfull_iff _).mp hfull

/-- A writer free to take a word makes room. -/
theorem room_succ (hfull : FIFO.ffAlmostfull (x.state t).fi = true)
    (hfree : (x.state t).wm.state = 0#2) : FIFO.ffAlmostfull (x.state (t + 1)).fi = false := by
  have hlength := (FIFO.ffAlmostfull_iff _).mp hfull
  have hne : FIFO.ffEmpty (x.state t).fi = false := by
    rw [Bool.eq_false_iff, Ne, FIFO.ffEmpty_iff]
    intro hwords
    simp [hwords] at hlength
  have hwords := words_step (x.iResetN t) (Run.stored (r := x.toRun) t).bounded
  rw [pops_eq (x.iResetN t), pushes_eq (x.iResetN t), hfull, hne, hfree] at hwords
  rw [Bool.eq_false_iff, Ne, FIFO.ffAlmostfull_iff, x.state_succ]
  show (FIFO.words (step _ _).fi).length ≠ 128
  simp [hwords, hlength]

/-- A reader in state 0 stays there while the FIFO is full. -/
theorem pending_zero_succ (hfull : FIFO.ffAlmostfull (x.state t).fi = true)
    (hp : x.Pending 0#2 n t) : x.Pending 0#2 n (t + 1) := by
  obtain ⟨hlt, hstate, hreads⟩ := hp
  exact ⟨by omega, by rw [state_of_zero hlt hstate, hfull]; rfl,
    by simp [reads_succ hlt, hstate, hreads]⟩

/-- The word the writer holds is written some time, and is not the last. -/
theorem held_up_writes (h : x.Conformant) (hserved : x.WritesServed) :
    LeadsTo (x.HeldUp 1#2 n) (x.HeldUp 0#2 n) := by
  have hshort : ∀ t, x.HeldUp 1#2 n t →
      (x.state t).wm.oWMWrite = true ∧ ¬ WriteMaster.AtEnd (x.state t).wm := by
    intro t ⟨⟨hlt, _⟩, hfull, hwm⟩
    have hmoving := moving_of_full h hlt hfull
    refine ⟨by simp [hmoving.write, hwm], fun hend => ?_⟩
    have hwords := (hmoving.last_word ⟨hwm, hend⟩ (pushed_bound h)).2.1
    have hlength := (FIFO.ffAlmostfull_iff _).mp hfull
    simp [hwords] at hlength
  refine .of_fair hserved ?_ ?_
  · intro t hheld hwait
    obtain ⟨hwrite, hend⟩ := hshort t hheld
    obtain ⟨hp, hfull, hwm⟩ := hheld
    have hwait : (x.input t).iWMWaitrequest = true := by simpa [hwrite] using hwait
    refine ⟨pending_zero_succ hfull hp, full_succ hfull (by simp [hwm]), ?_⟩
    rw [(held_up_succ hp.1 hwm hend hwait).1, hwm]
  · intro t hheld haccept
    obtain ⟨hwrite, hend⟩ := hshort t hheld
    obtain ⟨hp, hfull, hwm⟩ := hheld
    refine ⟨pending_zero_succ hfull hp, full_succ hfull (by simp [hwm]), ?_⟩
    have hmove := wm_succ hp.1
    generalize (x.state (t + 1)).wm = next at hmove ⊢
    cases hmove with
    | accept => rfl
    | stall _ _ hwait => exact absurd ((haccept hwrite).symm.trans hwait) Bool.false_ne_true
    | stallLast _ hlast | acceptLast _ hlast => exact absurd hlast hend
    | empty h | take h | clear h | unused h => simp [hwm] at h

/-- A full FIFO holds the reader up only for a time. -/
theorem leaves_zero (h : x.Conformant) (hserved : x.WritesServed) :
    LeadsTo (x.Pending 0#2 n) (x.Pending 1#2 n) := by
  have hroom : LeadsTo
      (fun t => x.Pending 0#2 n t ∧ FIFO.ffAlmostfull (x.state t).fi = false)
      (x.Pending 1#2 n) := by
    refine .of_next ?_
    intro t ⟨⟨hlt, hstate, hreads⟩, hempty⟩
    exact ⟨by omega, by rw [state_of_zero hlt hstate, hempty]; rfl,
      by simp [reads_succ hlt, hstate, hreads]⟩
  have hfree : LeadsTo (x.HeldUp 0#2 n) (x.Pending 1#2 n) := by
    refine LeadsTo.trans (.of_next ?_) hroom
    intro t ⟨hp, hfull, hwm⟩
    exact ⟨pending_zero_succ hfull hp, room_succ hfull hwm⟩
  intro t hp
  cases hfull : FIFO.ffAlmostfull (x.state t).fi with
  | false => exact hroom t ⟨hp, hfull⟩
  | true =>
      rcases (moving_of_full h hp.1 hfull).state with hwm | hwm
      · exact hfree t ⟨hp, hfull, hwm⟩
      · exact (held_up_writes h hserved).trans hfree t ⟨hp, hfull, hwm⟩

/-- Short of its end address the reader reads another word. -/
theorem reads_another (h : x.Conformant) (hreads : x.ReadsServed) (hwrites : x.WritesServed)
    (hne : 4 * n ≠ x.length.toNat) : LeadsTo (x.HasRead n) (x.HasRead (n + 1)) := by
  have htwo : LeadsTo (x.Pending 2#2 n) (x.HasRead (n + 1)) := by
    refine .of_fair hreads ?_ ?_
    · intro t ⟨hlt, hstate, hcount⟩ hwait
      have hwait : (x.input t).iRMWaitrequest = true := by
        simpa [(walking hlt).read, hstate] using hwait
      exact ⟨by omega, by rw [state_of_two hlt hstate, hwait]; rfl,
        by simp [reads_succ hlt, hcount, hwait]⟩
    · intro t ⟨hlt, hstate, hcount⟩ haccept
      have hwait := haccept (by simp [(walking hlt).read, hstate])
      exact ⟨by omega, by simp [reads_succ hlt, hstate, hcount, hwait]⟩
  have hone : LeadsTo (x.Pending 1#2 n) (x.HasRead (n + 1)) := by
    refine LeadsTo.trans (.of_next ?_) htwo
    intro t ⟨hlt, hstate, hcount⟩
    exact ⟨by omega, by rw [state_of_one hlt hstate, hcount, if_neg hne],
      by simp [reads_succ hlt, hstate, hcount]⟩
  intro t ⟨hlt, hcount⟩
  rcases (walking hlt).state with hstate | hstate | hstate
  · exact (leaves_zero h hwrites).trans hone t ⟨hlt, hstate, hcount⟩
  · exact hone t ⟨hlt, hstate, hcount⟩
  · exact htwo t ⟨hlt, hstate, hcount⟩

/-- The reader reaches the `n`-th word of its walk unless the region ends before it. -/
theorem reads_reach_served (h : x.Conformant) (hreads : x.ReadsServed)
    (hwrites : x.WritesServed) (hbefore : ∀ m < n, 4 * m ≠ x.length.toNat) :
    ∃ t, x.HasRead n t := by
  induction n with
  | zero =>
      have hidle := reader_idle (x := x) le_rfl
      exact ⟨x.start + 1, Nat.lt_succ_self _, by
        simp [x.ledger_succ, record, acceptsRead, hidle.read, hidle.reads]⟩
  | succ n ih =>
      obtain ⟨t, ht⟩ := ih fun m hm => hbefore m (by omega)
      obtain ⟨u, _, hu⟩ :=
        reads_another h hreads hwrites (hbefore n (Nat.lt_succ_self n)) t ht
      exact ⟨u, hu⟩

/-! ## Writes -/

/-- Everything has entered the FIFO and words still move through. -/
def Draining (x : Transfer) (t : ℕ) : Prop :=
  x.start < t ∧ Moving x.writeStart x.length (x.state t) (x.ledger t) ∧
    4 * (x.ledger t).pushed.length = x.length.toNat

/-- The last word has been presented, and accepted or stalled. -/
def Drained (x : Transfer) (t : ℕ) : Prop :=
  x.start < t ∧ (Finished x.writeStart x.length (x.state t) (x.ledger t) ∨
    Stalled x.writeStart x.length (x.state t) (x.ledger t))

theorem pushed_succ_of_all (h : x.Conformant)
    (hall : 4 * (x.ledger t).pushed.length = x.length.toNat) :
    (x.ledger (t + 1)).pushed = (x.ledger t).pushed := by
  rw [x.ledger_succ, record_pushed (x.iResetN t), pushes_eq_false h hall]
  simp

/-- One edge of a draining write side: the last word leaves it drained, any other keeps it
draining. -/
theorem draining_succ (h : x.Conformant) (hd : x.Draining t) :
    LastPresented (x.state t) ∧ x.Drained (t + 1) ∨
      ¬ LastPresented (x.state t) ∧ x.Draining (t + 1) := by
  obtain ⟨hlt, hmoving, hall⟩ := hd
  rcases moving_succ h hlt hmoving with ⟨hlast, hm⟩ | ⟨hlast, _, hf⟩ | ⟨hlast, _, hs⟩
  · exact .inr ⟨hlast, by omega, hm, by rw [pushed_succ_of_all h hall, hall]⟩
  · exact .inl ⟨hlast, by omega, .inl hf⟩
  · exact .inl ⟨hlast, by omega, .inr hs⟩

/-- Taking a word from the FIFO brings the write side forward. -/
theorem remaining_of_take (h : x.Conformant) (hpos : 0 < x.length.toNat) (hd : x.Draining t)
    (hstate : (x.state t).wm.state = 0#2) : x.remaining (t + 1) < x.remaining t := by
  obtain ⟨hlt, hmoving, hall⟩ := hd
  have hnext := takes_of_waiting hlt hstate (waiting_of_all_pushed hmoving hpos hall hstate)
  have hwrites : (x.ledger (t + 1)).writes = (x.ledger t).writes := by
    simp [x.ledger_succ, record, acceptsWrite, hmoving.write, hstate]
  simp [remaining, pushed_succ_of_all h hall, hnext, hstate, hwrites]

/-- So does an accepted write. -/
theorem remaining_of_accept (h : x.Conformant) (hd : x.Draining t)
    (hstate : (x.state t).wm.state = 1#2) (hwait : (x.input t).iWMWaitrequest = false) :
    x.remaining (t + 1) < x.remaining t := by
  obtain ⟨hlt, hmoving, hall⟩ := hd
  have hwrites := writes_succ_of_write (x := x) (t := t) (by simp [hmoving.write, hstate])
  have hlength := hmoving.length_pushed
  have hbusy : ¬ (x.state t).wm.state = 0#2 := by simp [hstate]
  simp only [hmoving.write, hstate, beq_self_eq_true, if_true] at hlength
  simp only [hwait, Bool.false_eq_true, if_false] at hwrites
  rw [remaining, remaining, pushed_succ_of_all h hall, hwrites, if_neg hbusy]
  split <;> omega

/-- A stalled word that is not the last waits, with the measure where it is. -/
theorem remaining_of_stall (h : x.Conformant) (hd : x.Draining t)
    (hstate : (x.state t).wm.state = 1#2) (hlast : ¬ LastPresented (x.state t))
    (hwait : (x.input t).iWMWaitrequest = true) :
    (x.state (t + 1)).wm = (x.state t).wm ∧ x.remaining (t + 1) = x.remaining t := by
  obtain ⟨hlt, hmoving, hall⟩ := hd
  have hwm := (held_up_succ hlt hstate (fun hend => hlast ⟨hstate, hend⟩) hwait).1
  have hwrites := writes_succ_of_write (x := x) (t := t) (by simp [hmoving.write, hstate])
  simp only [hwait, if_true, Nat.add_zero] at hwrites
  exact ⟨hwm, by rw [remaining, remaining, pushed_succ_of_all h hall, hwrites, hwm]⟩

/-- The write side drains: the last word is presented some time. -/
theorem drains_served (h : x.Conformant) (hserved : x.WritesServed)
    (hpos : 0 < x.length.toNat) : LeadsTo x.Draining x.Drained := by
  refine LeadsTo.of_measure x.remaining fun n => ?_
  -- a word presented that is not the last is accepted some time
  have hpresented : LeadsTo
      (fun t => (x.Draining t ∧ x.remaining t = n) ∧ (x.state t).wm.state = 1#2 ∧
        ¬ LastPresented (x.state t))
      (fun t => x.Drained t ∨ x.Draining t ∧ x.remaining t < n) := by
    refine .of_fair hserved ?_ ?_
    · intro t ⟨⟨hd, hmeasure⟩, hstate, hlast⟩ hwait
      have hwrite : (x.state t).wm.oWMWrite = true := by simp [hd.2.1.write, hstate]
      have hwait : (x.input t).iWMWaitrequest = true := by simpa [hwrite] using hwait
      obtain ⟨hwm, hsame⟩ := remaining_of_stall h hd hstate hlast hwait
      have hnext := (draining_succ h hd).resolve_left fun hdone => hlast hdone.1
      refine ⟨⟨hnext.2, by rw [hsame, hmeasure]⟩, by rw [hwm, hstate], ?_⟩
      rwa [LastPresented, hwm]
    · intro t ⟨⟨hd, hmeasure⟩, hstate, hlast⟩ haccept
      have hwait := haccept (by simp [hd.2.1.write, hstate])
      have hnext := (draining_succ h hd).resolve_left fun hdone => hlast hdone.1
      exact .inr ⟨hnext.2, by rw [← hmeasure]; exact remaining_of_accept h hd hstate hwait⟩
  intro t ⟨hd, hmeasure⟩
  rcases draining_succ h hd with ⟨_, hdrained⟩ | ⟨hlast, hnext⟩
  · exact ⟨t + 1, Nat.le_succ t, .inl hdrained⟩
  · rcases hd.2.1.state with hstate | hstate
    · refine ⟨t + 1, Nat.le_succ t, .inr ⟨hnext, ?_⟩⟩
      rw [← hmeasure]
      exact remaining_of_take h hpos hd hstate
    · exact hpresented t ⟨⟨hd, hmeasure⟩, hstate, hlast⟩

/-- In cycle `t` the whole course has been written, and completion has been reported. -/
structure Written (x : Transfer) (t : ℕ) : Prop where
  reported : ∃ u ≤ t, x.start < u ∧ (x.state u).wm.oWMDone = true
  pushed : 4 * (x.ledger t).pushed.length = x.length.toNat
  writes : (x.ledger t).pushed.length ≤ (x.ledger t).writes.length

theorem written_of_finished (hlt : x.start < t)
    (hf : Finished x.writeStart x.length (x.state t) (x.ledger t)) : x.Written t := by
  have hall := hf.all_pushed
  have hcomplete := hf.complete
  exact ⟨⟨t, le_rfl, hlt, hf.done⟩, hall, by omega⟩

/-- A stalled last word is accepted some time. -/
theorem written_of_last_stalled (h : x.Conformant) (hserved : x.WritesServed)
    (hs : x.LastStalled t) : ∃ u, x.Written u := by
  obtain ⟨hlt, hstalled⟩ := stalled_of_last_stalled h hs
  obtain ⟨u, hle, haccept⟩ := hserved (t + 1)
  obtain ⟨hwrite, _, _⟩ := offered_after h hs (show t < u by omega)
  obtain ⟨_, _, hall⟩ := offered_after h hs (show t < u + 1 by omega)
  have hwrites := writes_succ_of_write hwrite
  have hmono := (Run.writes_mono (r := x.toRun) hle).length_le
  have hcomplete := hstalled.complete
  simp only [haccept hwrite, Bool.false_eq_true, if_false] at hwrites
  exact ⟨u + 1, ⟨t + 1, by omega, by omega, hstalled.done⟩, hall, by omega⟩

theorem written_of_drained (h : x.Conformant) (hserved : x.WritesServed) (hd : x.Drained t) :
    ∃ u, x.Written u := by
  obtain ⟨hlt, hf | hs⟩ := hd
  · exact ⟨t, written_of_finished hlt hf⟩
  · rcases stage_or_last_stalled h hlt with hm | hf | ⟨u, _, hlast⟩
    · exact absurd (hm.done.symm.trans hs.done) Bool.false_ne_true
    · simpa [hs.state] using hf.state
    · exact written_of_last_stalled h hserved hlast

/-- Some time the whole course has been written. -/
theorem exists_written (hlatency : x.FixedLatency) (hlossless : x.Lossless)
    (hreads : x.ReadsServed) (hwrites : x.WritesServed) (hlength : x.length.toNat = 4 * N)
    (hpos : 0 < N) : ∃ t, x.Written t := by
  have h := hlatency.conformant
  obtain ⟨t, hlt, hcount⟩ := reads_reach_served (n := N) h hreads hwrites fun m hm => by omega
  have hall : 4 * (x.ledger (t + 1)).pushed.length = x.length.toNat := by
    rw [hlossless, hlatency.returned_succ, hcount, hlength]
  have hlater : x.start < t + 1 := by omega
  rcases stage_or_last_stalled h hlater with hm | hf | ⟨u, _, hs⟩
  · obtain ⟨u, _, hd⟩ := drains_served h hwrites (by omega) (t + 1) ⟨hlater, hm, hall⟩
    exact written_of_drained h hwrites hd
  · exact ⟨t + 1, written_of_finished hlater hf⟩
  · exact written_of_last_stalled h hwrites hs

/-- What is written stays written, and nothing more enters the FIFO. -/
theorem written_later {u : ℕ} (h : x.Conformant) (hw : x.Written t) (hle : t ≤ u) :
    x.Written u ∧ (x.ledger u).pushed = (x.ledger t).pushed := by
  induction u, hle using Nat.le_induction with
  | base => exact ⟨hw, rfl⟩
  | succ u hle ih =>
      obtain ⟨hu, hsame⟩ := ih
      have hpushed := pushed_succ_of_all h hu.pushed
      have hmono := (Run.writes_mono (r := x.toRun) (Nat.le_succ u)).length_le
      obtain ⟨v, hv, hdone⟩ := hu.reported
      refine ⟨⟨⟨v, by omega, hdone⟩, by rw [hpushed]; exact hu.pushed, ?_⟩, by rw [hpushed, hsame]⟩
      rw [hpushed]
      exact hu.writes.trans hmono

/-- From the cycle the course has been written on, the memory behind the write port holds the
words that entered the FIFO, and nothing else has changed. -/
theorem Written.holds_copy (h : x.Conformant) (hw : x.Written t) (memory : Word → Word) :
    HoldsCopy x.writeStart (x.ledger t).pushed memory
      (afterWrites memory (x.ledger t).writes) := by
  have hsmall : 4 * (x.ledger t).pushed.length ≤ 2 ^ 32 := by
    have hlt := x.length.isLt
    have hall := hw.pushed
    omega
  rw [(writes_repeat_last h).after_writes (by simpa using hw.writes) (nodup_course hsmall)]
  exact holds_copy_course hsmall

/-- DONE is reported in exactly one cycle. -/
theorem Written.done_once (hw : x.Written t) :
    ∃ T, ∀ t, ControlSlave.done (x.state t).control = true ↔ t = T := by
  obtain ⟨u, _, hlt, hdone⟩ := hw.reported
  obtain ⟨D, hD⟩ := exists_done hlt hdone
  have hset := Run.done_iff.mpr hD
  exact ⟨D, fun t => ⟨fun ht => Run.done_unique ht hset, fun ht => ht ▸ hset⟩⟩

/-- With a read slave of latency one, no word lost and both slaves accepting what is kept on offer,
a transfer of `N` words reports DONE once and leaves, for good, the `N` words it has read at the
`N` addresses programmed, whatever the stalls. -/
theorem copies_when_served (hlatency : x.FixedLatency) (hlossless : x.Lossless)
    (hreads : x.ReadsServed) (hwrites : x.WritesServed) (hlength : x.length.toNat = 4 * N)
    (hpos : 0 < N) :
    (∃ T, ∀ t, ControlSlave.done (x.state t).control = true ↔ t = T) ∧
      ∃ data, data.length = N ∧ ∃ T, ∀ t, T ≤ t →
        (x.ledger t).reads = stride x.readStart 4 N ∧ (x.ledger t).returned = data ∧
          ∀ memory, HoldsCopy x.writeStart data memory
            (afterWrites memory (x.ledger t).writes) := by
  have h := hlatency.conformant
  obtain ⟨T, hT⟩ := exists_written hlatency hlossless hreads hwrites hlength hpos
  refine ⟨hT.done_once, (x.ledger T).pushed, ?_, T, ?_⟩
  · have hpushed := hT.pushed
    omega
  · intro t hle
    obtain ⟨ht, hpushed⟩ := written_later h hT hle
    refine ⟨?_, by rw [← hlossless t, hpushed], fun memory => hpushed ▸ ht.holds_copy h memory⟩
    have hall := ht.pushed
    have hbound := reads_bound (x := x) (t := t) ⟨N, hlength⟩
    have hcount : (x.ledger t).reads.length = N := by
      have hle := h.pushed_le t
      omega
    rw [← hcount]
    exact reads_eq

/-- A single word whose first two offers are stalled. -/
theorem stalled_copy_served :
    (∃ T, ∀ t, ControlSlave.done (stalledCopy.state t).control = true ↔ t = T) ∧
      ∃ data, data.length = 1 ∧ ∃ T, ∀ t, T ≤ t →
        (stalledCopy.ledger t).reads = stride stalledCopy.readStart 4 1 ∧
          (stalledCopy.ledger t).returned = data ∧
          ∀ memory, HoldsCopy stalledCopy.writeStart data memory
            (afterWrites memory (stalledCopy.ledger t).writes) := by
  have hlength := stalled_copy_parameters.2
  have hlatency : stalledCopy.FixedLatency := Bench.transfer_fixed_latency
  refine copies_when_served hlatency (lossless_of_short hlatency ⟨1, hlength⟩ (by omega))
    (fun t => ⟨t, le_rfl, fun _ => rfl⟩) (fun t => ⟨t + 12, by omega, fun _ => ?_⟩) hlength
    one_pos
  show (t + 12 == 10 || t + 12 == 11) = false
  simp

end Transfer

end CE213Lab.DMA
