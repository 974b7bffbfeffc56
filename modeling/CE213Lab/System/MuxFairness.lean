import CE213Lab.System.CmdXbarMux

/-!
# Nobody starves at the command multiplexer

With masters that hold their command until it is taken, packets of one beat and no lock, which is
how the masters of the system come to the multiplexer, the round robin bounds the wait of a sink
from both sides: `serves_within` counts the beats of the others that go first and the cycles it
waits beyond those in which the source is stalled.
-/

namespace CE213Lab.System.CmdXbarMux

open Foundation

variable {n w : ℕ} {e : Execution (machine n w)} {k : Fin n} {t : ℕ}

/-- Sink `k` holds its beat until it is taken. -/
def HoldsBeat (e : Execution (machine n w)) (k : Fin n) : Prop :=
  ∀ t, ((e.input t).sink k).valid = true → takes (e.input t) (e.state t) k = false →
    ((e.input (t + 1)).sink k).valid = true

/-- Every sink does. -/
def Patient (e : Execution (machine n w)) : Prop :=
  ∀ k, HoldsBeat e k

/-- A packet in progress has its beat waiting at the source. -/
def Offers (e : Execution (machine n w)) : Prop :=
  ∀ t, (e.state t).packetInProgress = true → srcValid (e.input t) (e.state t) = true

/-- Every beat is a packet of its own, and no sink raises the lock. -/
structure SingleBeats (e : Execution (machine n w)) : Prop where
  endofpacket : ∀ t k, ((e.input t).sink k).valid = true → ((e.input t).sink k).endofpacket = true
  unlocked : ∀ t k, ((e.input t).sink k).data.getLsbD 72 = false

/-- The source offers a beat that is not taken. -/
def stalled (i : Inputs n w) (s : State n) : Bool :=
  srcValid i s && !i.srcReady

/-- The stalled cycles before cycle `t`. -/
def stalls (e : Execution (machine n w)) (t : ℕ) : ℕ :=
  e.history (fun i s count => if stalled i s then count + 1 else count) 0 t

theorem stalls_succ (e : Execution (machine n w)) (t : ℕ) :
    stalls e (t + 1) =
      if stalled (e.input t) (e.state t) then stalls e t + 1 else stalls e t :=
  rfl

/-- Without locks the requests are the valid sinks. -/
theorem not_locked (hreset : e.state 0 = reset) (hsingle : SingleBeats e) (t : ℕ) :
    (e.state t).locked = 0 := by
  cases t with
  | zero => rw [hreset]; rfl
  | succ t =>
      have hlock : lock (e.input t) = 0 := by
        refine BitVec.eq_of_getLsbD_eq fun j hj => ?_
        exact (getLsbD_wires _ ⟨j, hj⟩).trans
          ((hsingle.unlocked t ⟨j, hj⟩).trans BitVec.getLsbD_zero.symm)
      rw [e.state_succ]
      show nextGrant (e.input t) (e.state t) &&& lock (e.input t) = 0
      rw [hlock]
      exact BitVec.and_zero

theorem request_eq (hreset : e.state 0 = reset) (hsingle : SingleBeats e) (t : ℕ) (j : Fin n) :
    (request (e.input t) (e.state t)).getLsbD j = ((e.input t).sink j).valid := by
  rw [request, not_locked hreset hsingle t, valid]
  simp only [BitVec.getLsbD_or, getLsbD_wires]
  exact (congrArg _ BitVec.getLsbD_zero).trans (Bool.or_false _)

/-- Patient sinks leave no packet in progress without its beat. -/
theorem offers_of_patient (hn : 1 < n) (hreset : e.state 0 = reset) (hpatient : Patient e)
    (hsingle : SingleBeats e) : Offers e := by
  intro t
  induction t with
  | zero =>
      intro hin
      rw [hreset] at hin
      cases hin
  | succ t ih =>
      intro hin
      obtain ⟨holder, first, h⟩ := exists_turn hn hreset t
      rw [e.state_succ] at hin ⊢
      cases hupdate : updateGrant (e.input t) (e.state t) with
      | true => exact absurd ((packet_left hupdate).symm.trans hin) Bool.false_ne_true
      | false =>
          cases holder with
          | none => exact absurd (hupdate.symm.trans h.update_none) Bool.false_ne_true
          | some g =>
              -- the holder's beat was there and was not taken
              have hvalid : ((e.input t).sink g).valid = true := by
                by_contra hgone
                rw [Bool.not_eq_true] at hgone
                rw [h.update, hgone] at hupdate
                have hoffered := ih (by simpa using hupdate)
                rw [h.src_valid, hgone] at hoffered
                cases hoffered
              have hheld : takes (e.input t) (e.state t) g = false := by
                rw [h.update, hvalid] at hupdate
                rw [h.takes_eq, hvalid]
                simpa [Beat.isLast, hsingle.endofpacket t g hvalid, hsingle.unlocked t g]
                  using hupdate
              exact (h.keep hupdate).1.src_valid.trans (hpatient g t hvalid hheld)

/-- A cycle that is not stalled decides. -/
theorem update_of_moves (hn : 1 < n) (hreset : e.state 0 = reset) (hsingle : SingleBeats e)
    (hoffers : (e.state t).packetInProgress = true → srcValid (e.input t) (e.state t) = true)
    (hmoves : stalled (e.input t) (e.state t) = false) :
    updateGrant (e.input t) (e.state t) = true := by
  obtain ⟨holder, first, h⟩ := exists_turn hn hreset t
  cases holder with
  | none => exact h.update_none
  | some g =>
      rw [h.update]
      cases hg : ((e.input t).sink g).valid with
      | true =>
          have hready : (e.input t).srcReady = true := by
            simpa [stalled, h.src_valid, hg] using hmoves
          simp [hready, Beat.isLast, hsingle.endofpacket t g hg, hsingle.unlocked t g]
      | false =>
          rw [h.src_valid, hg] at hoffers
          simpa using hoffers

/-- A source that is never stalled leaves no packet in progress at all. -/
theorem no_packet_of_moves (hn : 1 < n) (hreset : e.state 0 = reset) (hsingle : SingleBeats e)
    (hmoves : ∀ t, stalled (e.input t) (e.state t) = false) (t : ℕ) :
    (e.state t).packetInProgress = false := by
  induction t with
  | zero => rw [hreset]; rfl
  | succ t ih =>
      rw [e.state_succ]
      refine packet_left (update_of_moves hn hreset hsingle (fun hin => ?_) (hmoves t))
      exact absurd (ih.symm.trans hin) Bool.false_ne_true

theorem offers_of_moves (hn : 1 < n) (hreset : e.state 0 = reset) (hsingle : SingleBeats e)
    (hmoves : ∀ t, stalled (e.input t) (e.state t) = false) : Offers e := fun t hin =>
  absurd ((no_packet_of_moves hn hreset hsingle hmoves t).symm.trans hin) Bool.false_ne_true

/-- A beat is never taken in the cycle it is first offered. -/
theorem not_taken_at_once (hn : 1 < n) (hreset : e.state 0 = reset) (hsingle : SingleBeats e)
    (hoffers : Offers e) (hnew : ((e.input t).sink k).valid = false) :
    takes (e.input (t + 1)) (e.state (t + 1)) k = false := by
  obtain ⟨holder, first, h⟩ := exists_turn hn hreset t
  have hother : ∃ holder' first', Turn (e.state (t + 1)) holder' first' ∧ holder' ≠ some k := by
    rw [e.state_succ]
    cases hupdate : updateGrant (e.input t) (e.state t) with
    | false =>
        cases holder with
        | none => exact absurd (hupdate.symm.trans h.update_none) Bool.false_ne_true
        | some g =>
            refine ⟨some g, first, (h.keep hupdate).1, fun heq => ?_⟩
            rw [Option.some.injEq] at heq
            subst heq
            rw [h.update, hnew] at hupdate
            have hoffered := hoffers t (by simpa using hupdate)
            rw [h.src_valid, hnew] at hoffered
            cases hoffered
    | true =>
        rcases h.next hn hupdate with ⟨_, hnext⟩ | ⟨g, hg, hnext⟩
        · exact ⟨none, first, hnext, by simp⟩
        · refine ⟨some g, _, hnext, fun heq => ?_⟩
          rw [Option.some.injEq] at heq
          have hrequest := hg.requests
          rw [request_eq hreset hsingle, heq, hnew] at hrequest
          cases hrequest
  obtain ⟨holder', first', hturn, hne⟩ := hother
  cases holder' with
  | none => rw [takes, hturn.sink_ready_none, Bool.and_false]
  | some g =>
      rw [hturn.takes_eq, decide_eq_false fun heq => hne (congrArg some heq.symm), Bool.and_false]

/-! ## The wait -/

section Wait

variable {holder : Option (Fin n)} {first v : ℕ}

/-- How many decisions may still go past sink `k`. -/
def decisions (holder : Option (Fin n)) (first : ℕ) (k : Fin n) : ℕ :=
  if holder = some k then 0 else ahead n first k + 1

/-- How many beats of others may still go first. -/
def overtakes (holder : Option (Fin n)) (first : ℕ) (k : Fin n) (offered : Bool) : ℕ :=
  if holder = some k then 0 else ahead n first k + offered.toNat

/-- Since cycle `t`, in which sink `k` waits, the source has been stalled. -/
structure Waiting (e : Execution (machine n w)) (t : ℕ) (holder : Option (Fin n)) (first : ℕ)
    (k : Fin n) (v : ℕ) : Prop where
  le : t ≤ v
  turn : Turn (e.state v) holder first
  valid : ((e.input v).sink k).valid = true
  offered : srcValid (e.input v) (e.state v) = srcValid (e.input t) (e.state t)
  log_eq : log e v = log e t
  stalls_eq : v + stalls e t = t + stalls e v

/-- A stalled cycle changes nothing. -/
theorem Waiting.step (hpatient : Patient e) (h : Waiting e t holder first k v)
    (hstalled : stalled (e.input v) (e.state v) = true) :
    Waiting e t holder first k (v + 1) := by
  obtain ⟨hvalid, hready⟩ := Bool.and_eq_true_iff.mp hstalled
  rw [Bool.not_eq_true'] at hready
  have hturn := h.turn
  cases holder with
  | none => exact absurd (hturn.src_valid_none.symm.trans hvalid) Bool.false_ne_true
  | some g =>
      have hg : ((e.input v).sink g).valid = true := hturn.src_valid.symm.trans hvalid
      have hupdate : updateGrant (e.input v) (e.state v) = false := by
        rw [hturn.update, hg, hready]
        simp
      have hheld : ∀ j, takes (e.input v) (e.state v) j = false := by
        intro j
        rw [hturn.takes_eq, hready]
        simp
      have hkeep : Turn (e.state (v + 1)) (some g) first := by
        rw [e.state_succ]
        exact (hturn.keep hupdate).1
      refine ⟨h.le.trans (Nat.le_succ v), hkeep, hpatient k v h.valid (hheld k), ?_, ?_, ?_⟩
      · rw [hkeep.src_valid, hpatient g v hg (hheld g), ← h.offered, hvalid]
      · rw [log_succ, hturn.taken_eq, hg, hready, h.log_eq]
        simp
      · have hcount := h.stalls_eq
        rw [stalls_succ, if_pos hstalled]
        omega

/-- A cycle that is not stalled hands over the beat of sink `k` or brings its turn nearer. -/
theorem Waiting.decide (hn : 1 < n) (hreset : e.state 0 = reset) (hsingle : SingleBeats e)
    (hoffers : Offers e) (hholds : HoldsBeat e k) (h : Waiting e t holder first k v)
    (hmoves : stalled (e.input v) (e.state v) = false) :
    takes (e.input v) (e.state v) k = true ∨
      ∃ holder' first', Waiting e (v + 1) holder' first' k (v + 1) ∧
        decisions holder' first' k < decisions holder first k ∧
        (taken (e.input v) (e.state v)).length + overtakes holder' first' k
            (srcValid (e.input (v + 1)) (e.state (v + 1))) ≤
          overtakes holder first k (srcValid (e.input v) (e.state v)) ∧
        ∀ b ∈ taken (e.input v) (e.state v), b.1 ≠ k := by
  have hturn := h.turn
  by_cases hholder : holder = some k
  · subst hholder
    left
    have hready : (e.input v).srcReady = true := by
      simpa [stalled, hturn.src_valid, h.valid] using hmoves
    rw [hturn.takes_eq, h.valid, hready]
    simp
  · right
    have hupdate := update_of_moves hn hreset hsingle (hoffers v) hmoves
    have hrequest := (request_eq hreset hsingle v k).trans h.valid
    -- whoever is first is no further than the sink that waits
    rcases hturn.next hn hupdate with ⟨hnone, _⟩ | ⟨g, hg, hnext⟩
    · rw [hnone] at hrequest
      exact absurd (BitVec.getLsbD_zero.symm.trans hrequest) Bool.false_ne_true
    · have hheld : takes (e.input v) (e.state v) k = false := by
        cases holder with
        | none => rw [takes, hturn.sink_ready_none, Bool.and_false]
        | some j =>
            rw [hturn.takes_eq, decide_eq_false fun heq => hholder (congrArg some heq.symm),
              Bool.and_false]
      have hnear : some g ≠ some k → ahead n (after n g) k < ahead n first k := by
        intro hne
        refine ahead_after_lt hturn.first_lt k.isLt
          (lt_of_le_of_ne (hg.nearest k k.isLt hrequest) fun heq => hne ?_)
        exact congrArg some (Fin.ext (eq_of_ahead_eq hturn.first_lt g.isLt k.isLt heq))
      refine ⟨some g, after n g, ⟨le_rfl, ?_, hholds v h.valid hheld, rfl, rfl, rfl⟩,
        ?_, ?_, ?_⟩
      · rw [e.state_succ]
        exact hnext
      · rw [decisions, decisions, if_neg hholder]
        split
        · omega
        · rename_i hne
          have := hnear hne
          omega
      · have htaken : (taken (e.input v) (e.state v)).length ≤
            (srcValid (e.input v) (e.state v)).toNat := by
          cases holder with
          | none => simp [hturn.taken_none]
          | some j =>
              rw [hturn.taken_eq, hturn.src_valid]
              cases ((e.input v).sink j).valid <;> cases (e.input v).srcReady <;> simp
        rw [overtakes, overtakes, if_neg hholder]
        split
        · omega
        · rename_i hne
          have := hnear hne
          have := Bool.toNat_le (srcValid (e.input (v + 1)) (e.state (v + 1)))
          omega
      · intro b hb heq
        cases holder with
        | none =>
            rw [hturn.taken_none] at hb
            cases hb
        | some j =>
            rw [hturn.taken_eq] at hb
            split at hb
            · rw [List.mem_singleton.mp hb] at heq
              exact hholder (congrArg some heq)
            · cases hb

/-- The source is not stalled for ever. -/
theorem exists_move (hpatient : Patient e)
    (hready : InfinitelyOften fun t => stalled (e.input t) (e.state t) = false)
    (h : Waiting e t holder first k t) :
    ∃ v, Waiting e t holder first k v ∧ stalled (e.input v) (e.state v) = false := by
  have hleads : LeadsTo (Waiting e t holder first k)
      fun u => ∃ v, u = v + 1 ∧ Waiting e t holder first k v ∧
        stalled (e.input v) (e.state v) = false :=
    LeadsTo.of_fair hready
      (fun _ hv hstalled => hv.step hpatient (by simpa using hstalled))
      (fun v hv hmoves => ⟨v, rfl, hv, hmoves⟩)
  obtain ⟨_, _, v, _, hv⟩ := hleads t h
  exact ⟨v, hv⟩

theorem serves_from (hn : 1 < n) (hreset : e.state 0 = reset) (hsingle : SingleBeats e)
    (hoffers : Offers e) (hholds : HoldsBeat e k)
    (hmove : ∀ t holder first, Waiting e t holder first k t →
      ∃ v, Waiting e t holder first k v ∧ stalled (e.input v) (e.state v) = false)
    (d t : ℕ) (holder : Option (Fin n)) (first : ℕ) (hwaiting : Waiting e t holder first k t)
    (hd : decisions holder first k ≤ d) :
    ∃ u, t ≤ u ∧ takes (e.input u) (e.state u) k = true ∧ u + stalls e t ≤ t + d + stalls e u ∧
      ∃ others, log e u = log e t ++ others ∧
        others.length ≤ overtakes holder first k (srcValid (e.input t) (e.state t)) ∧
        ∀ b ∈ others, b.1 ≠ k := by
  induction d generalizing t holder first with
  | zero =>
      obtain ⟨v, hv, hmoves⟩ := hmove t holder first hwaiting
      rcases hv.decide hn hreset hsingle hoffers hholds hmoves with htakes | ⟨_, _, _, hfewer, _⟩
      · have := hv.stalls_eq
        exact ⟨v, hv.le, htakes, by omega, [], by simp [hv.log_eq]⟩
      · omega
  | succ d ih =>
      obtain ⟨v, hv, hmoves⟩ := hmove t holder first hwaiting
      have hcount := hv.stalls_eq
      rcases hv.decide hn hreset hsingle hoffers hholds hmoves with
        htakes | ⟨holder', first', hnext, hfewer, hbeats, hothers⟩
      · exact ⟨v, hv.le, htakes, by omega, [], by simp [hv.log_eq]⟩
      · obtain ⟨u, hle, htakes, hwait, others, hlog, hlength, hnot⟩ :=
          ih (v + 1) holder' first' hnext (by omega)
        rw [stalls_succ, hmoves] at hwait
        have hsince := hv.le
        refine ⟨u, by omega, htakes, ?_, taken (e.input v) (e.state v) ++ others, ?_, ?_, ?_⟩
        · simp only [Bool.false_eq_true, if_false] at hwait
          omega
        · rw [hlog, log_succ, hv.log_eq, List.append_assoc]
        · rw [List.length_append, ← hv.offered]
          omega
        · intro b hb
          rcases List.mem_append.mp hb with hb | hb
          · exact hothers b hb
          · exact hnot b hb

end Wait

theorem decisions_le {holder : Option (Fin n)} {first : ℕ} (h : Turn (e.state t) holder first)
    (k : Fin n) : decisions holder first k ≤ n := by
  have hahead := ahead_lt h.first_lt k.isLt
  unfold decisions
  split <;> omega

theorem overtakes_lt {holder : Option (Fin n)} {first : ℕ} (h : Turn (e.state t) holder first)
    (k : Fin n) : overtakes holder first k (srcValid (e.input t) (e.state t)) < n := by
  have hahead := ahead_lt h.first_lt k.isLt
  unfold overtakes
  split
  · omega
  · rename_i hholder
    cases holder with
    | none => simpa [h.src_valid_none] using hahead
    | some g =>
        -- the holder itself is the last in turn
        have hlast : ahead n first g = n - 1 := by
          rw [h.behind g rfl]
          exact ahead_after_self g.isLt
        have hne : ahead n first k ≠ ahead n first g := fun heq =>
          hholder (congrArg some (Fin.ext (eq_of_ahead_eq h.first_lt g.isLt k.isLt heq.symm)))
        have := Bool.toNat_le (srcValid (e.input t) (e.state t))
        omega

/-- At a source that is never stalled a sink waits at most `n` cycles. -/
theorem serves_unstalled (hn : 1 < n) (hreset : e.state 0 = reset) (hsingle : SingleBeats e)
    (hmoves : ∀ t, stalled (e.input t) (e.state t) = false) (hholds : HoldsBeat e k)
    (hvalid : ((e.input t).sink k).valid = true) :
    ∃ u, t ≤ u ∧ u ≤ t + n ∧ takes (e.input u) (e.state u) k = true := by
  obtain ⟨holder, first, hturn⟩ := exists_turn hn hreset t
  have hnone : ∀ v, stalls e v = 0 := by
    intro v
    induction v with
    | zero => rfl
    | succ v ih => rw [stalls_succ, hmoves, ih]; rfl
  obtain ⟨u, hle, htakes, hwait, _⟩ :=
    serves_from hn hreset hsingle (offers_of_moves hn hreset hsingle hmoves) hholds
      (fun v _ _ h => ⟨v, h, hmoves v⟩) n t holder first
      ⟨le_rfl, hturn, hvalid, rfl, rfl, rfl⟩ (decisions_le hturn k)
  rw [hnone, hnone] at hwait
  exact ⟨u, hle, by omega, htakes⟩

/-- A waiting sink is served after fewer than `n` beats of the others, and after at most `n` cycles
beyond those in which the source is stalled. -/
theorem serves_within (hn : 1 < n) (hreset : e.state 0 = reset) (hpatient : Patient e)
    (hsingle : SingleBeats e)
    (hready : InfinitelyOften fun t => stalled (e.input t) (e.state t) = false)
    (hvalid : ((e.input t).sink k).valid = true) :
    ∃ u, t ≤ u ∧ takes (e.input u) (e.state u) k = true ∧ u + stalls e t ≤ t + n + stalls e u ∧
      ∃ others, log e u = log e t ++ others ∧ others.length < n ∧ ∀ b ∈ others, b.1 ≠ k := by
  obtain ⟨holder, first, hturn⟩ := exists_turn hn hreset t
  obtain ⟨u, hle, htakes, hwait, others, hlog, hlength, hnot⟩ :=
    serves_from hn hreset hsingle (offers_of_patient hn hreset hpatient hsingle) (hpatient k)
      (fun _ _ _ => exists_move hpatient hready) n t holder first
      ⟨le_rfl, hturn, hvalid, rfl, rfl, rfl⟩ (decisions_le hturn k)
  have hfew := overtakes_lt hturn k
  exact ⟨u, hle, htakes, hwait, others, hlog, by omega, hnot⟩

theorem contended_single_beats : SingleBeats contended where
  endofpacket _ _ _ := rfl
  unlocked _ := by
    show ∀ k : Fin 3, (BitVec.ofNat 105 k).getLsbD 72 = false
    decide

/-- The third of three sinks under full load. -/
theorem contended_serves_third :
    ∃ u, 0 ≤ u ∧ takes (contended.input u) (contended.state u) 2 = true ∧
      u + stalls contended 0 ≤ 0 + 3 + stalls contended u ∧
      ∃ others, log contended u = log contended 0 ++ others ∧ others.length < 3 ∧
        ∀ b ∈ others, b.1 ≠ 2 :=
  serves_within (by decide) rfl (fun _ _ _ _ => rfl) contended_single_beats
    (fun t => ⟨t, le_rfl, Bool.and_false _⟩) rfl

end CE213Lab.System.CmdXbarMux
