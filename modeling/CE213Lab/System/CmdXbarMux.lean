import CE213Lab.Foundation.Machine
import CE213Lab.Foundation.Progress
import CE213Lab.System.Arbitrator
import Mathlib.Data.List.Chain
import Mathlib.Data.Fin.Basic

/-!
# The command crossbar multiplexer

`System_cmd_xbar_mux.sv` and `System_cmd_xbar_mux_001.sv`, one template for `n` sinks: the grant is
decided one cycle ahead (`PIPELINE_ARB` 1), every sink has one share, and `PKT_TRANS_LOCK` is bit 72
of the data. `passes_whole` says that the source carries the packets of the sinks, each unbroken and
each once; `serves_within` bounds how long a sink waits when every packet is one beat.
-/

namespace CE213Lab.System.CmdXbarMux

open Foundation

/-! ## The beats -/

/-- The payload of a sink. -/
structure Beat (w : ℕ) where
  channel : BitVec 5
  data : BitVec w
  startofpacket : Bool
  endofpacket : Bool
  deriving DecidableEq

structure Sink (w : ℕ) extends Beat w where
  valid : Bool
  deriving DecidableEq

structure Inputs (n w : ℕ) where
  sink : Fin n → Sink w
  srcReady : Bool

structure State (n : ℕ) where
  savedGrant : BitVec n
  locked : BitVec n
  packetInProgress : Bool
  shareCount : BitVec 1
  shareCountZeroFlag : Bool
  arb : Arbitrator.State n

variable {n w : ℕ}

/-- What a reset leaves. -/
def reset : State n where
  savedGrant := 0
  locked := 0
  packetInProgress := false
  shareCount := 0
  shareCountZeroFlag := true
  arb := Arbitrator.reset

namespace Beat

def zero : Beat w where
  channel := 0
  data := 0
  startofpacket := false
  endofpacket := false

/-- `payload & {PAYLOAD_W {grant}}`. -/
def mask (b : Beat w) (grant : Bool) : Beat w where
  channel := b.channel &&& BitVec.fill 5 grant
  data := b.data &&& BitVec.fill w grant
  startofpacket := b.startofpacket && grant
  endofpacket := b.endofpacket && grant

def or (a b : Beat w) : Beat w where
  channel := a.channel ||| b.channel
  data := a.data ||| b.data
  startofpacket := a.startofpacket || b.startofpacket
  endofpacket := a.endofpacket || b.endofpacket

theorem and_fill_true {m : ℕ} (x : BitVec m) : x &&& BitVec.fill m true = x := by
  simp [BitVec.fill, BitVec.neg_one_eq_allOnes]

@[simp] theorem mask_true (b : Beat w) : b.mask true = b := by
  simp only [mask, and_fill_true, Bool.and_true]

@[simp] theorem mask_false (b : Beat w) : b.mask false = zero := by
  simp [mask, BitVec.fill, zero]

@[simp] theorem or_zero (b : Beat w) : b.or zero = b := by
  simp [or, zero]

@[simp] theorem zero_or (b : Beat w) : zero.or b = b := by
  simp [or, zero]

/-- Nothing of the packet follows: its end, and no lock that holds the grant beyond it. -/
def isLast (b : Beat w) : Bool :=
  b.endofpacket && !b.data.getLsbD 72

end Beat

/-! ## The wires -/

/-- One wire of each sink as a vector. -/
def wires (f : Fin n → Bool) : BitVec n :=
  (BitVec.iunfoldr (fun k (_ : Unit) => ((), f k)) ()).2

@[simp] theorem getLsbD_wires (f : Fin n → Bool) (k : Fin n) : (wires f).getLsbD k = f k :=
  BitVec.iunfoldr_getLsbD (fun _ => ()) k fun _ => rfl

def valid (i : Inputs n w) : BitVec n :=
  wires fun k => (i.sink k).valid

def lock (i : Inputs n w) : BitVec n :=
  wires fun k => (i.sink k).data.getLsbD 72

def srcValid (i : Inputs n w) (s : State n) : Bool :=
  s.savedGrant &&& valid i != 0

def srcPayload (i : Inputs n w) (s : State n) : Beat w :=
  (List.finRange n).foldr
    (fun k rest => ((i.sink k).toBeat.mask (s.savedGrant.getLsbD k)).or rest) .zero

def sinkReady (i : Inputs n w) (s : State n) (k : Fin n) : Bool :=
  i.srcReady && s.savedGrant.getLsbD k

def lastCycle (i : Inputs n w) (s : State n) : Bool :=
  srcValid i s && i.srcReady && (srcPayload i s).endofpacket && (lock i &&& s.savedGrant == 0)

def request (i : Inputs n w) (s : State n) : BitVec n :=
  valid i ||| s.locked

def nextGrant (i : Inputs n w) (s : State n) : BitVec n :=
  Arbitrator.grant .roundRobin (request i s) s.arb

def updateGrant (i : Inputs n w) (s : State n) : Bool :=
  (!s.packetInProgress && !srcValid i s) || (lastCycle i s && s.shareCountZeroFlag)

/-- The counter load value of a sink with one arbitration share. -/
def share (_ : Fin n) : BitVec 1 :=
  0

def nextGrantShare (i : Inputs n w) (s : State n) : BitVec 1 :=
  (List.finRange n).foldr
    (fun k rest => (share k &&& BitVec.fill 1 ((nextGrant i s).getLsbD k)) ||| rest) 0

def p1ShareCount (s : State n) : BitVec 1 :=
  if s.shareCountZeroFlag then 0 else s.shareCount - 1

def step (i : Inputs n w) (s : State n) : State n where
  savedGrant := if updateGrant i s then nextGrant i s else s.savedGrant
  locked := nextGrant i s &&& lock i
  packetInProgress :=
    if lastCycle i s then false else if srcValid i s then true else s.packetInProgress
  shareCount :=
    if updateGrant i s then nextGrantShare i s
    else if lastCycle i s then p1ShareCount s else s.shareCount
  shareCountZeroFlag :=
    if updateGrant i s then nextGrantShare i s == 0
    else if lastCycle i s then p1ShareCount s == 0 else s.shareCountZeroFlag
  arb :=
    Arbitrator.step true .roundRobin
      { request := request i s
        incrementTopPriority := updateGrant i s
        saveTopPriority := srcValid i s } s.arb

def machine (n w : ℕ) : Machine (Inputs n w) (State n) where
  step := step

/-! ## The turn -/

section Turn

variable {i : Inputs n w} {s : State n} {holder : Option (Fin n)} {g : Fin n} {first : ℕ}

/-- Where the arbiter stands: `holder` has the grant, and the next search begins at `first`, which
is the place behind the holder. -/
structure Turn (s : State n) (holder : Option (Fin n)) (first : ℕ) : Prop where
  first_lt : first < n
  top : s.arb.topPriorityReg = BitVec.twoPow n first
  granted : s.savedGrant = holder.elim 0 fun g => BitVec.twoPow n g
  behind : ∀ g, holder = some g → first = after n g
  idle : holder = none → s.packetInProgress = false
  oneShare : s.shareCountZeroFlag = true

theorem turn_reset (hn : 1 < n) : Turn (reset : State n) none 0 where
  first_lt := by omega
  top := by
    show (1 : BitVec n) = BitVec.twoPow n 0
    rw [BitVec.twoPow_zero]
    rfl
  granted := rfl
  behind := fun _ h => by cases h
  idle := fun _ => rfl
  oneShare := rfl

/-- The only bit of a one-hot grant. -/
theorem getLsbD_grant (g k : Fin n) : (BitVec.twoPow n g).getLsbD k = decide (k = g) := by
  rw [BitVec.getLsbD_twoPow, decide_eq_true g.isLt, Bool.true_and, Bool.eq_iff_iff,
    decide_eq_true_eq, decide_eq_true_eq, Fin.ext_iff, eq_comm]

/-- A one-hot grant picks one wire of a vector. -/
theorem twoPow_and_wires_eq_zero (g : Fin n) (f : Fin n → Bool) :
    BitVec.twoPow n g &&& wires f = 0 ↔ f g = false := by
  refine ⟨fun h => ?_, fun h => BitVec.eq_of_getLsbD_eq fun j hj => ?_⟩
  · have hbit := congrArg (fun x => x.getLsbD g) h
    simp only [BitVec.getLsbD_and, getLsbD_grant, getLsbD_wires, decide_true, Bool.true_and] at hbit
    exact hbit.trans BitVec.getLsbD_zero
  · have hwire := getLsbD_wires f ⟨j, hj⟩
    have hgrant := getLsbD_grant g ⟨j, hj⟩
    simp only at hwire hgrant
    rw [BitVec.getLsbD_and, hgrant, hwire]
    by_cases heq : (⟨j, hj⟩ : Fin n) = g
    · simp [heq, h]
    · simp [heq]

/-- The sum of products over a one-hot grant is the payload of the sink it picks. -/
theorem payload_of_grant (beat : Fin n → Beat w) (g : Fin n) :
    (List.finRange n).foldr
      (fun k rest => ((beat k).mask ((BitVec.twoPow n g).getLsbD k)).or rest) .zero = beat g := by
  have hpart : ∀ l : List (Fin n), l.Nodup →
      l.foldr (fun k rest => ((beat k).mask ((BitVec.twoPow n g).getLsbD k)).or rest) .zero =
        if g ∈ l then beat g else .zero := by
    intro l
    induction l with
    | nil => exact fun _ => rfl
    | cons k l ih =>
        intro hnodup
        rw [List.foldr_cons, ih hnodup.of_cons, getLsbD_grant]
        by_cases hk : k = g
        · subst hk
          simp [(List.nodup_cons.mp hnodup).1]
        · simp [hk, Ne.symm hk]
  rw [hpart _ (List.nodup_finRange n), if_pos (List.mem_finRange g)]

/-- A cycle that decides leaves the packet behind. -/
theorem packet_left (hupdate : updateGrant i s = true) :
    (step i s).packetInProgress = false := by
  show (if lastCycle i s then false else if srcValid i s then true else s.packetInProgress) = false
  cases hlast : lastCycle i s with
  | true => rfl
  | false =>
      have hidle : s.packetInProgress = false ∧ srcValid i s = false := by
        simpa [updateGrant, hlast] using hupdate
      simp [hidle]

namespace Turn

theorem src_valid_none (h : Turn s none first) : srcValid i s = false := by
  simp [srcValid, h.granted]

theorem src_valid (h : Turn s (some g) first) : srcValid i s = (i.sink g).valid := by
  have hzero := twoPow_and_wires_eq_zero g fun k => (i.sink k).valid
  show (s.savedGrant &&& valid i != 0) = _
  rw [h.granted]
  cases hv : (i.sink g).valid with
  | false => simpa [valid] using hzero.mpr hv
  | true => simpa [valid, hv] using hzero

theorem src_payload (h : Turn s (some g) first) : srcPayload i s = (i.sink g).toBeat := by
  have hgrant : s.savedGrant = BitVec.twoPow n g := h.granted
  rw [srcPayload, hgrant]
  exact payload_of_grant (fun k => (i.sink k).toBeat) g

theorem sink_ready (h : Turn s (some g) first) (k : Fin n) :
    sinkReady i s k = (i.srcReady && decide (k = g)) := by
  have hgrant : s.savedGrant = BitVec.twoPow n g := h.granted
  rw [sinkReady, hgrant, getLsbD_grant]

theorem sink_ready_none (h : Turn s none first) (k : Fin n) : sinkReady i s k = false := by
  simp [sinkReady, h.granted]

/-- The source hands a last beat over. -/
theorem last_cycle (h : Turn s (some g) first) :
    lastCycle i s =
      ((i.sink g).valid && i.srcReady && (i.sink g).toBeat.isLast) := by
  have hzero := twoPow_and_wires_eq_zero g fun k => (i.sink k).data.getLsbD 72
  have hgrant : s.savedGrant = BitVec.twoPow n g := h.granted
  have hlock : (lock i &&& s.savedGrant == 0) = !(i.sink g).data.getLsbD 72 := by
    rw [hgrant, BitVec.and_comm, Bool.eq_iff_iff, beq_iff_eq, Bool.not_eq_true']
    exact hzero
  rw [lastCycle, h.src_valid, h.src_payload, hlock, Beat.isLast, Bool.and_assoc]

theorem update_none (h : Turn s none first) : updateGrant i s = true := by
  simp [updateGrant, h.idle rfl, h.src_valid_none]

theorem update (h : Turn s (some g) first) :
    updateGrant i s =
      ((!s.packetInProgress && !(i.sink g).valid) ||
        ((i.sink g).valid && i.srcReady && (i.sink g).toBeat.isLast)) := by
  rw [updateGrant, h.src_valid, h.last_cycle, h.oneShare, Bool.and_true]

theorem next_grant_share (i : Inputs n w) (s : State n) : nextGrantShare i s = 0 := by
  unfold nextGrantShare
  induction List.finRange n with
  | nil => rfl
  | cons k l _ => simp [share]

theorem one_share_step (h : Turn s holder first) : (step i s).shareCountZeroFlag = true := by
  simp [step, next_grant_share, p1ShareCount, h.oneShare]

/-- A cycle that does not decide again leaves the grant, inside a packet. -/
theorem keep (h : Turn s (some g) first) (hupdate : updateGrant i s = false) :
    Turn (step i s) (some g) first ∧ (step i s).packetInProgress = true := by
  have hgrant : (step i s).savedGrant = s.savedGrant := by
    simp [step, hupdate]
  have harb : (step i s).arb = s.arb := by
    simp [step, Arbitrator.step, hupdate]
  refine ⟨⟨h.first_lt, by rw [harb, h.top], by rw [hgrant, h.granted], h.behind, fun hnone => ?_,
    h.one_share_step⟩, ?_⟩
  · cases hnone
  · rw [h.update, Bool.or_eq_false_iff] at hupdate
    show (if lastCycle i s then false else if srcValid i s then true else s.packetInProgress) = true
    rw [h.last_cycle, hupdate.2, h.src_valid]
    cases hv : (i.sink g).valid with
    | true => simp
    | false => simpa [hv] using hupdate.1

/-- With a request the next holder is the first one from `first` on. -/
theorem pass (h : Turn s holder first) (hn : 1 < n) (hupdate : updateGrant i s = true)
    (hfirst : FirstFrom (request i s).getLsbD n first g) :
    Turn (step i s) (some g) (after n g) := by
  have hnext : nextGrant i s = BitVec.twoPow n g :=
    Arbitrator.grant_of_first hn h.first_lt h.top hfirst
  have hsome : request i s ≠ 0 := by
    intro hzero
    simpa [hzero] using hfirst.requests
  refine ⟨after_lt g.isLt, ?_, ?_, fun k hk => ?_, fun hnone => ?_, h.one_share_step⟩
  · show (Arbitrator.step true .roundRobin _ s.arb).topPriorityReg = _
    simp only [Arbitrator.step, hupdate, if_true, hsome, ne_eq, not_false_eq_true]
    exact (congrArg (fun x => x.rotateLeft 1) hnext).trans (Arbitrator.rotate_twoPow hn g.isLt)
  · show (if updateGrant i s then nextGrant i s else s.savedGrant) = _
    rw [if_pos hupdate, hnext]
    rfl
  · rw [Option.some.injEq] at hk
    rw [hk]
  · cases hnone

/-- Without a request nobody holds the grant next. -/
theorem rest (h : Turn s holder first) (hn : 1 < n) (hupdate : updateGrant i s = true)
    (hnone : request i s = 0) : Turn (step i s) none first := by
  have hnext : nextGrant i s = 0 := by
    rw [nextGrant, hnone]
    exact Arbitrator.grant_of_none hn h.first_lt h.top
  refine ⟨h.first_lt, ?_, ?_, fun k hk => ?_, fun _ => packet_left hupdate, h.one_share_step⟩
  · show (Arbitrator.step true .roundRobin _ s.arb).topPriorityReg = _
    simp only [Arbitrator.step, hupdate, if_true, hnone, ne_eq, not_true_eq_false, if_false]
    exact h.top
  · show (if updateGrant i s then nextGrant i s else s.savedGrant) = _
    rw [if_pos hupdate, hnext]
    rfl
  · cases hk

/-- A cycle that decides gives the grant to the first request, if there is one. -/
theorem next (h : Turn s holder first) (hn : 1 < n) (hupdate : updateGrant i s = true) :
    (request i s = 0 ∧ Turn (step i s) none first) ∨
      ∃ g : Fin n, FirstFrom (request i s).getLsbD n first g ∧
        Turn (step i s) (some g) (after n g) := by
  by_cases hnone : request i s = 0
  · exact .inl ⟨hnone, h.rest hn hupdate hnone⟩
  · obtain ⟨j, hj, hrequest⟩ : ∃ j < n, (request i s).getLsbD j = true := by
      by_contra hall
      push Not at hall
      exact hnone (BitVec.eq_of_getLsbD_eq fun j hj =>
        (Bool.eq_false_iff.mpr (hall j hj)).trans BitVec.getLsbD_zero.symm)
    obtain ⟨g, hg⟩ : ∃ g, FirstFrom (request i s).getLsbD n first g :=
      exists_first_from hj hrequest
    exact .inr ⟨⟨g, hg.lt⟩, hg, h.pass (g := ⟨g, hg.lt⟩) hn hupdate hg⟩

/-- Every cycle leaves the arbiter in some turn. -/
theorem exists_step (h : Turn s holder first) (hn : 1 < n) (i : Inputs n w) :
    ∃ holder' first', Turn (step i s) holder' first' := by
  cases hupdate : updateGrant i s with
  | false =>
      cases holder with
      | none => exact absurd (hupdate.symm.trans h.update_none) Bool.false_ne_true
      | some g => exact ⟨some g, first, (h.keep hupdate).1⟩
  | true =>
      rcases h.next hn hupdate with ⟨_, hnext⟩ | ⟨g, _, hnext⟩
      · exact ⟨none, first, hnext⟩
      · exact ⟨some g, after n g, hnext⟩

end Turn

end Turn

/-! ## The packets -/

section Packets

variable {e : Execution (machine n w)} {i : Inputs n w} {s : State n} {g k : Fin n} {first t : ℕ}

/-- Sink `k` hands its beat over. -/
def takes (i : Inputs n w) (s : State n) (k : Fin n) : Bool :=
  (i.sink k).valid && sinkReady i s k

/-- The beats handed over in a cycle, each with its sink. -/
def taken (i : Inputs n w) (s : State n) : List (Fin n × Beat w) :=
  ((List.finRange n).filter (takes i s)).map fun k => (k, (i.sink k).toBeat)

/-- The beats handed over before cycle `t`. -/
def log (e : Execution (machine n w)) (t : ℕ) : List (Fin n × Beat w) :=
  e.history (fun i s log => log ++ taken i s) [] t

/-- The beats the source has handed over before cycle `t`. -/
def sourceLog (e : Execution (machine n w)) (t : ℕ) : List (Beat w) :=
  e.history
    (fun i s log => if srcValid i s && i.srcReady then log ++ [srcPayload i s] else log) [] t

/-- The beats sink `k` has handed over before cycle `t`. -/
def sinkLog (e : Execution (machine n w)) (k : Fin n) (t : ℕ) : List (Beat w) :=
  e.history (fun i s log => if takes i s k then log ++ [(i.sink k).toBeat] else log) [] t

theorem log_succ (e : Execution (machine n w)) (t : ℕ) :
    log e (t + 1) = log e t ++ taken (e.input t) (e.state t) :=
  rfl

namespace Turn

theorem takes_eq (h : Turn s (some g) first) (k : Fin n) :
    takes i s k = ((i.sink k).valid && i.srcReady && decide (k = g)) := by
  rw [takes, h.sink_ready, Bool.and_assoc]

/-- At most the holder hands a beat over. -/
theorem taken_eq (h : Turn s (some g) first) :
    taken i s = if (i.sink g).valid && i.srcReady then [(g, (i.sink g).toBeat)] else [] := by
  have honly : (List.finRange n).filter (takes i s) =
      if (i.sink g).valid && i.srcReady then [g] else [] := by
    cases hgo : (i.sink g).valid && i.srcReady with
    | false =>
        rw [List.filter_eq_nil_iff.mpr]
        · rfl
        · intro k _ hk
          rw [h.takes_eq, Bool.and_eq_true, decide_eq_true_eq] at hk
          rw [← hk.2, hk.1] at hgo
          cases hgo
    | true =>
        have hself : ∀ k, takes i s k = (k == g) := by
          intro k
          rw [h.takes_eq]
          by_cases hk : k = g
          · subst hk
            rw [hgo]
            simp
          · simp [hk]
        rw [funext hself, List.filter_beq, (List.nodup_finRange n).count,
          if_pos (List.mem_finRange g)]
        rfl
  rw [taken, honly]
  split <;> rfl

theorem taken_none (h : Turn s none first) : taken i s = [] := by
  rw [taken, List.filter_eq_nil_iff.mpr]
  · rfl
  · intro k _
    rw [takes, h.sink_ready_none, Bool.and_false]
    exact Bool.false_ne_true

end Turn

/-- Every cycle of a run from a reset is some sink's turn or nobody's. -/
theorem exists_turn (hn : 1 < n) (hreset : e.state 0 = reset) (t : ℕ) :
    ∃ holder first, Turn (e.state t) holder first :=
  e.invariant (fun s => ∃ holder first, Turn s holder first) 0
    (hreset ▸ ⟨none, 0, turn_reset hn⟩)
    (fun t _ ⟨_, _, h⟩ => h.exists_step hn (e.input t)) (Nat.zero_le t)

/-- What the source hands over is what the sinks hand over. -/
theorem source_log_eq (hn : 1 < n) (hreset : e.state 0 = reset) (t : ℕ) :
    sourceLog e t = (log e t).map Prod.snd := by
  induction t with
  | zero => rfl
  | succ t ih =>
      obtain ⟨holder, first, h⟩ := exists_turn hn hreset t
      rw [log_succ, List.map_append, ← ih]
      show (if srcValid (e.input t) (e.state t) && (e.input t).srcReady
        then sourceLog e t ++ [srcPayload (e.input t) (e.state t)] else sourceLog e t) = _
      cases holder with
      | none => simp [h.src_valid_none, h.taken_none]
      | some g =>
          rw [h.src_valid, h.src_payload, h.taken_eq]
          split <;> simp

/-- What sink `k` hands over is its part of the log. -/
theorem sink_log_eq (k : Fin n) (t : ℕ) :
    sinkLog e k t = ((log e t).filter (·.1 = k)).map Prod.snd := by
  induction t with
  | zero => rfl
  | succ t ih =>
      have hpart : ((taken (e.input t) (e.state t)).filter (·.1 = k)).map Prod.snd =
          if takes (e.input t) (e.state t) k then [((e.input t).sink k).toBeat] else [] := by
        rw [taken, List.filter_map, List.map_map, List.filter_filter]
        cases hk : takes (e.input t) (e.state t) k with
        | false =>
            rw [List.filter_eq_nil_iff.mpr]
            · rfl
            · intro j _ hj
              simp only [Function.comp_apply, Bool.and_eq_true, decide_eq_true_eq] at hj
              rw [hj.1, hk] at hj
              exact Bool.false_ne_true hj.2
        | true =>
            have hself : ∀ j, (((fun b : Fin n × Beat w => decide (b.1 = k)) ∘
                fun j => (j, ((e.input t).sink j).toBeat)) j && takes (e.input t) (e.state t) j) =
                  (j == k) := by
              intro j
              by_cases hj : j = k
              · subst hj
                simp [hk]
              · simp [hj]
            rw [funext hself, List.filter_beq, (List.nodup_finRange n).count,
              if_pos (List.mem_finRange k)]
            rfl
      rw [log_succ, List.filter_append, List.map_append, ← ih, hpart]
      show (if takes (e.input t) (e.state t) k
        then sinkLog e k t ++ [((e.input t).sink k).toBeat] else sinkLog e k t) = _
      split <;> simp

/-- A beat that is not the last of its packet is followed by a beat of the same sink. -/
def Unbroken (log : List (Fin n × Beat w)) : Prop :=
  log.IsChain fun a b => a.2.isLast = false → b.1 = a.1

/-- The packets so far are unbroken, and the sink of an unfinished one still has the grant. -/
def Whole (s : State n) (log : List (Fin n × Beat w)) : Prop :=
  Unbroken log ∧ ∃ holder first, Turn s holder first ∧
    ∀ b ∈ log.getLast?, b.2.isLast = false → holder = some b.1 ∧ s.packetInProgress = true

theorem Whole.step (hn : 1 < n) {log : List (Fin n × Beat w)} (h : Whole s log)
    (i : Inputs n w) : Whole (step i s) (log ++ taken i s) := by
  obtain ⟨hunbroken, holder, first, hturn, hlast⟩ := h
  cases holder with
  | none =>
      -- nobody hands anything over, so the log ends as it did: in a finished packet
      obtain ⟨holder', first', hnext⟩ := hturn.exists_step hn i
      rw [hturn.taken_none, List.append_nil]
      exact ⟨hunbroken, holder', first', hnext, fun b hb hopen =>
        absurd (hlast b hb hopen).1 (by simp)⟩
  | some g =>
      have hupdate := hturn.update (i := i)
      rw [hturn.taken_eq]
      cases hgo : (i.sink g).valid && i.srcReady with
      | false =>
          simp only [Bool.false_eq_true, if_false, List.append_nil]
          refine ⟨hunbroken, ?_⟩
          by_cases hopen : ∃ b ∈ log.getLast?, b.2.isLast = false
          · -- inside a packet a cycle without a beat does not decide
            obtain ⟨b, hb, hnotlast⟩ := hopen
            obtain ⟨hholder, hin⟩ := hlast b hb hnotlast
            rw [hin, hgo, Bool.not_true, Bool.false_and, Bool.false_and, Bool.or_false] at hupdate
            obtain ⟨hkeep, hin'⟩ := hturn.keep hupdate
            refine ⟨some g, first, hkeep, fun b' hb' _ => ⟨?_, hin'⟩⟩
            rw [Option.mem_def] at hb hb'
            rw [hholder, Option.some.inj (hb'.symm.trans hb)]
          · obtain ⟨holder', first', hnext⟩ := hturn.exists_step hn i
            exact ⟨holder', first', hnext, fun b hb hnotlast => absurd ⟨b, hb, hnotlast⟩ hopen⟩
      | true =>
          simp only [if_true]
          refine ⟨List.isChain_append.mpr ⟨hunbroken, List.isChain_singleton _, ?_⟩, ?_⟩
          · intro b hb b' hb' hnotlast
            rw [List.head?_cons, Option.mem_some_iff] at hb'
            have hholder := (hlast b hb hnotlast).1
            rw [← hb']
            exact Option.some.inj hholder
          · rw [List.getLast?_concat]
            cases hend : (i.sink g).toBeat.isLast with
            | true =>
                obtain ⟨holder', first', hnext⟩ := hturn.exists_step hn i
                refine ⟨holder', first', hnext, fun b hb hnotlast => ?_⟩
                rw [Option.mem_some_iff] at hb
                rw [← hb, hend] at hnotlast
                cases hnotlast
            | false =>
                have hvalid := (Bool.and_eq_true_iff.mp hgo).1
                rw [hvalid, hend] at hupdate
                obtain ⟨hkeep, hin⟩ := hturn.keep (hupdate.trans (by simp))
                refine ⟨some g, first, hkeep, fun b hb _ => ?_⟩
                rw [Option.mem_some_iff] at hb
                rw [← hb]
                exact ⟨rfl, hin⟩

/-- The source carries the beats of the sinks, each once and in the order of its sink, and no
packet is broken by a beat of another sink. -/
theorem passes_whole (hn : 1 < n) (hreset : e.state 0 = reset) (t : ℕ) :
    (log e t).map Prod.snd = sourceLog e t ∧
      (∀ k, ((log e t).filter (·.1 = k)).map Prod.snd = sinkLog e k t) ∧ Unbroken (log e t) := by
  refine ⟨(source_log_eq hn hreset t).symm, fun k => (sink_log_eq k t).symm, ?_⟩
  have hwhole : Whole (e.state t) (log e t) :=
    e.invariant_history (fun i s log => log ++ taken i s) [] Whole 0
      (hreset ▸ ⟨List.isChain_nil, none, 0, turn_reset hn, fun b hb => by cases hb⟩)
      (fun t _ h => h.step hn (e.input t)) (Nat.zero_le t)
  exact hwhole.1

end Packets

/-- Three sinks with a packet of one beat, and a ready source. -/
def fullLoad : Inputs 3 105 where
  sink k :=
    { channel := 0
      data := BitVec.ofNat 105 k
      startofpacket := true
      endofpacket := true
      valid := true }
  srcReady := true

/-- The full load in every cycle. -/
def contended : Execution (machine 3 105) :=
  drive (machine 3 105) (fun _ _ => fullLoad) (fun _ _ env => env) reset ()

theorem contended_passes_whole :
    (log contended 7).map Prod.snd = sourceLog contended 7 ∧
      (∀ k, ((log contended 7).filter (·.1 = k)).map Prod.snd = sinkLog contended k 7) ∧
      Unbroken (log contended 7) :=
  passes_whole (by decide) rfl 7

example : (log contended 7).map Prod.fst = [0, 1, 2, 0, 1, 2] := by
  decide +kernel

end CE213Lab.System.CmdXbarMux
