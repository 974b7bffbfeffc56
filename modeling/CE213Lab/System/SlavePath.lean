import CE213Lab.System.MuxFairness
import CE213Lab.System.SlavePort

/-!
# From the masters to a slave

`System.v` between a slave and the masters that share it: the command multiplexer, whose sinks the
agents, translators, address routers and demultiplexers of the masters feed, the port of the slave,
and the response side, an id router and a demultiplexer. What the masters send, and when, is left
open. A response is the answer to a command taken in the cycle before and goes to the master that
sent it (`rsp_valid_succ`).
-/

namespace CE213Lab.System.SlavePath

open Foundation MasterAgent

/-- What a master has for this slave: what it drives, and whether its router has sent it here. -/
structure Command where
  valid : Bool
  av : Master

/-- A slave with the agents of its masters in the order of the multiplexer. The response of a master
either goes through a response multiplexer or straight to its agent. -/
structure Config (n : ℕ) where
  translator : SlavePort.Params
  agent : Fin n → MasterAgent.Params
  destid : BitVec 3
  idRouter : BitVec 3 → BitVec 5
  muxed : Fin n → Bool
  several : 1 < n
  routes : ∀ j k : Fin n, (idRouter (agent j).id).getLsbD k = decide (k = j)

variable {n : ℕ}

structure Inputs (n : ℕ) where
  master : Fin n → Command
  slave : SlavePort.Slave

structure State (n : ℕ) where
  mux : CmdXbarMux.State n
  port : SlavePort.State

section Wires

variable (c : Config n) (i : Inputs n) (slave : SlavePort.Slave) (s : State n)

/-! ## Commands -/

/-- The packets at the sinks of the multiplexer, of one beat each. -/
def sink (k : Fin n) : CmdXbarMux.Sink 105 where
  channel := 0
  data := routed (c.agent k) c.destid (i.master k).av
  startofpacket := true
  endofpacket := true
  valid := (i.master k).valid

def muxInputs : CmdXbarMux.Inputs n 105 where
  sink := sink c i
  srcReady := SlavePort.cpReady c.translator i.slave s.port

/-- The command of master `k` is not taken in this cycle. -/
def waitrequest (k : Fin n) : Bool :=
  !CmdXbarMux.sinkReady (muxInputs c i s) s.mux k

/-! ## Responses -/

def rspChannel : BitVec 5 :=
  c.idRouter (SlavePort.rpData c.translator slave s.port).destId

/-- The response demultiplexer offers the response to master `k`. -/
def rspValid (k : Fin n) : Bool :=
  (rspChannel c slave s).getLsbD k && SlavePort.rpValid s.port

/-- The agents of the masters always accept a response, and the response multiplexers, which do not
arbitrate, let one through when it is there. -/
def rspReady (k : Fin n) : Bool :=
  !c.muxed k || rspValid c slave s k

def rpReady : Bool :=
  (List.finRange n).any fun k => (rspChannel c slave s).getLsbD k && rspReady c slave s k

/-! ## Clock edge -/

def portInputs : SlavePort.Inputs where
  cpValid := CmdXbarMux.srcValid (muxInputs c i s) s.mux
  cpData := (CmdXbarMux.srcPayload (muxInputs c i s) s.mux).data
  cpStartofpacket := (CmdXbarMux.srcPayload (muxInputs c i s) s.mux).startofpacket
  cpEndofpacket := (CmdXbarMux.srcPayload (muxInputs c i s) s.mux).endofpacket
  rpReady := rpReady c i.slave s

def step : State n where
  mux := CmdXbarMux.step (muxInputs c i s) s.mux
  port := SlavePort.step c.translator (portInputs c i s) i.slave s.port

end Wires

def machine (c : Config n) : Machine (Inputs n) (State n) where
  step := step c

/-- What a reset leaves. -/
structure IsReset (s : State n) : Prop where
  mux : s.mux = CmdXbarMux.reset
  port : SlavePort.IsReset s.port

/-- A run from reset. -/
structure Run (c : Config n) extends Execution (machine c) where
  reset : IsReset (state 0)

namespace Run

variable {c : Config n} (r : Run c) {t : ℕ} {k g : Fin n} {first : ℕ}

/-- The multiplexer of the path. -/
def mux : Execution (CmdXbarMux.machine n 105) where
  input t := muxInputs c (r.input t) (r.state t)
  state t := (r.state t).mux
  state_succ t := by
    rw [r.state_succ]
    rfl

/-- The port of the path. -/
def port : Execution (SlavePort.machine c.translator) where
  input t := (portInputs c (r.input t) (r.state t), (r.input t).slave)
  state t := (r.state t).port
  state_succ t := by
    rw [r.state_succ]
    rfl

/-- The command of master `k` in cycle `t`. -/
def command (t : ℕ) (k : Fin n) : Command :=
  (r.input t).master k

/-- The command of master `k` is taken in cycle `t`. -/
def takes (t : ℕ) (k : Fin n) : Bool :=
  (r.command t k).valid && !waitrequest c (r.input t) (r.state t) k

variable {r}

theorem takes_eq (t : ℕ) (k : Fin n) :
    r.takes t k = CmdXbarMux.takes (r.mux.input t) (r.mux.state t) k := by
  rw [takes, waitrequest, Bool.not_not]
  rfl

theorem mux_reset : r.mux.state 0 = CmdXbarMux.reset :=
  r.reset.mux

/-- Who has the grant. -/
theorem exists_turn (t : ℕ) : ∃ holder first, CmdXbarMux.Turn (r.mux.state t) holder first :=
  CmdXbarMux.exists_turn c.several mux_reset t

/-- In the first cycle no one has. -/
theorem turn_zero : CmdXbarMux.Turn (r.mux.state 0) none 0 := by
  rw [mux_reset]
  exact CmdXbarMux.turn_reset c.several

theorem single_beats : CmdXbarMux.SingleBeats r.mux where
  endofpacket _ _ _ := rfl
  unlocked _ _ := transLock_routed _ _ _

/-! ## The port is well used -/

/-- Nothing is offered to the port but the command of the master that has the grant. -/
theorem port_input (h : CmdXbarMux.Turn (r.mux.state t) (some g) first) :
    (r.port.input t).1.cpValid = (r.command t g).valid ∧
      (r.port.input t).1.cpData = routed (c.agent g) c.destid (r.command t g).av :=
  ⟨h.src_valid (i := r.mux.input t),
    congrArg CmdXbarMux.Beat.data (h.src_payload (i := r.mux.input t))⟩

theorem port_input_none (h : CmdXbarMux.Turn (r.mux.state t) none first) :
    (r.port.input t).1.cpValid = false :=
  h.src_valid_none (i := r.mux.input t)

/-- Without a command nothing is to be answered. -/
theorem asks_none (h : CmdXbarMux.Turn (r.mux.state t) none first) :
    SlavePort.asks (r.port.input t).1 = none := by
  rw [SlavePort.asks, SlavePort.nonpostedWriteEndofpacket, SlavePort.localRead,
    SlavePort.localWrite, port_input_none h]
  simp

theorem asks_of_turn (h : CmdXbarMux.Turn (r.mux.state t) (some g) first) :
    (SlavePort.asks (r.port.input t).1).isSome =
      ((r.command t g).valid && (r.command t g).av.read) := by
  obtain ⟨hvalid, hdata⟩ := port_input h
  rw [SlavePort.isSome_asks_of_routed hdata, hvalid]

/-- A response to one of the masters is taken. -/
theorem rp_ready_of_dest {slave : SlavePort.Slave} {s : State n}
    (hvalid : SlavePort.rpValid s.port = true)
    (hdest : (SlavePort.rpData c.translator slave s.port).destId = (c.agent g).id) :
    rpReady c slave s = true := by
  have hchannel : (rspChannel c slave s).getLsbD g = true := by
    rw [rspChannel, hdest, c.routes, decide_eq_true rfl]
  refine List.any_eq_true.mpr ⟨g, List.mem_finRange g, ?_⟩
  rw [rspReady, rspValid, hchannel, hvalid, Bool.and_true, Bool.or_true]
  rfl

/-- The command accepted in cycle `t` is that of the master with the grant. -/
theorem port_src_id (h : CmdXbarMux.Turn (r.mux.state t) (some g) first) :
    (r.port.input t).1.cpData.srcId = (c.agent g).id := by
  rw [(port_input h).2, srcId_routed]

theorem accepted_none (h : CmdXbarMux.Turn (r.mux.state t) none first) :
    SlavePort.accepted r.port t = none := by
  rw [SlavePort.accepted, SlavePort.accepts, asks_none h, ite_self]

/-- Up to any cycle the port answers what it accepted in the cycle before, and responses are
taken. -/
theorem holding_and_ready (t : ℕ) :
    SlavePort.Holding (r.port.state (t + 1)) (SlavePort.accepted r.port t) ∧
      (SlavePort.rpValid (r.port.state (t + 1)) = true →
        (r.port.input (t + 1)).1.rpReady = true) := by
  have hready : ∀ u, SlavePort.Holding (r.port.state (u + 1)) (SlavePort.accepted r.port u) →
      SlavePort.rpValid (r.port.state (u + 1)) = true →
        (r.port.input (u + 1)).1.rpReady = true := by
    intro u hold hvalid
    have hsome : (SlavePort.accepted r.port u).isSome = true := hold.rp_valid.symm.trans hvalid
    obtain ⟨command, hcommand⟩ := Option.isSome_iff_exists.mp hsome
    obtain ⟨holder, first, h⟩ := r.exists_turn u
    cases holder with
    | none =>
        rw [accepted_none h] at hcommand
        cases hcommand
    | some g =>
        rw [hcommand] at hold
        refine rp_ready_of_dest (g := g) hvalid ?_
        show (SlavePort.rpData c.translator _ (r.port.state (u + 1))).destId = _
        rw [SlavePort.destId_rpData, hold.rf_sink, SlavePort.token, SlavePort.srcId_rfSourceData,
          SlavePort.eq_of_mem_asks (SlavePort.eq_of_mem_accepts hcommand)]
        exact port_src_id h
  -- the two halves carry each other: a response is taken because it answers a master
  induction t with
  | zero =>
      have hfirst : SlavePort.Holding (r.port.state 1) (SlavePort.accepted r.port 0) := by
        rw [accepted_none turn_zero, r.port.state_succ]
        exact r.reset.port.step (accepted_none turn_zero)
      exact ⟨hfirst, hready 0 hfirst⟩
  | succ t ih =>
      have hnext : SlavePort.Holding (r.port.state (t + 2))
          (SlavePort.accepted r.port (t + 1)) := by
        rw [r.port.state_succ]
        exact ih.1.step fun hsome => ih.2 (ih.1.rp_valid.trans hsome)
      exact ⟨hnext, hready (t + 1) hnext⟩

theorem well_used : SlavePort.WellUsed r.port where
  reset := r.reset.port
  quiet := accepted_none turn_zero
  rpReady t hvalid := by
    cases t with
    | zero => exact absurd (r.reset.port.rp_valid.symm.trans hvalid) Bool.false_ne_true
    | succ t => exact (holding_and_ready t).2 hvalid

/-! ## Who is served -/

theorem takes_none (h : CmdXbarMux.Turn (r.mux.state t) none first) : r.takes t k = false := by
  rw [takes_eq, CmdXbarMux.takes, h.sink_ready_none, Bool.and_false]

/-- Only the master with the grant is served, when the port is ready. -/
theorem takes_of_turn (h : CmdXbarMux.Turn (r.mux.state t) (some g) first) :
    r.takes t k = ((r.command t g).valid &&
      !SlavePort.uavWaitrequest c.translator (r.input t).slave (r.state t).port &&
        decide (k = g)) := by
  have hready : (r.command t g).valid = true → (r.mux.input t).srcReady =
      !SlavePort.uavWaitrequest c.translator (r.input t).slave (r.state t).port := by
    intro hvalid
    cases t with
    | zero =>
        rw [(port_input h).1.symm.trans (port_input_none turn_zero)] at hvalid
        cases hvalid
    | succ t => exact (well_used.holding t).cp_ready
  rw [takes_eq, h.takes_eq]
  show ((r.command t k).valid && _ && _) = _
  by_cases hk : k = g
  · subst hk
    cases hvalid : (r.command t k).valid with
    | false => rfl
    | true => rw [hready hvalid]
  · rw [decide_eq_false hk, Bool.and_false, Bool.and_false]

/-- At most one master is served in a cycle. -/
theorem takes_unique (hk : r.takes t k = true) (hg : r.takes t g = true) : k = g := by
  obtain ⟨holder, first, h⟩ := r.exists_turn t
  cases holder with
  | none =>
      rw [takes_none h] at hk
      cases hk
  | some j =>
      rw [takes_of_turn h, Bool.and_eq_true, decide_eq_true_eq] at hk hg
      exact hk.2.trans hg.2.symm

/-- The port is offered the command of the master that is served. -/
theorem port_input_of_takes (h : r.takes t k = true) :
    (r.port.input t).1.cpValid = true ∧
      (r.port.input t).1.cpData = routed (c.agent k) c.destid (r.command t k).av := by
  obtain ⟨holder, first, hturn⟩ := r.exists_turn t
  cases holder with
  | none =>
      rw [takes_none hturn] at h
      cases h
  | some g =>
      rw [takes_of_turn hturn, Bool.and_eq_true, Bool.and_eq_true, decide_eq_true_eq] at h
      obtain ⟨hvalid, hdata⟩ := port_input hturn
      rw [h.2]
      exact ⟨hvalid.trans h.1.1, hdata⟩

theorem accepted_of_turn (h : CmdXbarMux.Turn (r.mux.state t) (some g) first) :
    (SlavePort.accepted r.port t).isSome = (r.takes t g && (r.command t g).av.read) := by
  have hasks := asks_of_turn h
  rw [takes_of_turn h, decide_eq_true rfl, Bool.and_true, SlavePort.accepted, SlavePort.accepts]
  show (if SlavePort.uavWaitrequest c.translator (r.input t).slave (r.state t).port
    then none else _ : Option _).isSome = _
  cases SlavePort.uavWaitrequest c.translator (r.input t).slave (r.state t).port with
  | true => simp
  | false =>
      rw [if_neg Bool.false_ne_true, hasks, Bool.not_false, Bool.and_true]

/-- A response comes in exactly the cycles after a read is taken, to the master that sent it. -/
theorem rsp_valid_succ (t : ℕ) (k : Fin n) :
    rspValid c (r.input (t + 1)).slave (r.state (t + 1)) k =
      (r.takes t k && (r.command t k).av.read) := by
  obtain ⟨holder, first, h⟩ := r.exists_turn t
  have hasked : SlavePort.rpValid (r.state (t + 1)).port = (SlavePort.accepted r.port t).isSome :=
    well_used.rp_valid_succ t
  rw [rspValid, hasked]
  cases holder with
  | none => rw [accepted_none h, takes_none h, Option.isSome_none, Bool.and_false, Bool.false_and]
  | some g =>
      rw [accepted_of_turn h] at hasked ⊢
      by_cases hk : k = g
      · subst hk
        cases hread : r.takes t k && (r.command t k).av.read with
        | false => exact Bool.and_false _
        | true =>
            have hdest : (SlavePort.rpData c.translator (r.input (t + 1)).slave
                (r.state (t + 1)).port).destId = (c.agent k).id :=
              (well_used.dest_id_succ (hasked.trans hread) _).trans (port_src_id h)
            rw [rspChannel, hdest, c.routes, decide_eq_true rfl]
            rfl
      · have htakes : r.takes t k = false := by
          rw [takes_of_turn h, decide_eq_false hk, Bool.and_false]
        rw [htakes, Bool.false_and]
        cases hread : r.takes t g && (r.command t g).av.read with
        | false => exact Bool.and_false _
        | true =>
            -- the response goes to the one that sent the command
            have hdest : (SlavePort.rpData c.translator (r.input (t + 1)).slave
                (r.state (t + 1)).port).destId = (c.agent g).id :=
              (well_used.dest_id_succ (hasked.trans hread) _).trans (port_src_id h)
            rw [rspChannel, hdest, c.routes, decide_eq_false hk]
            rfl

/-- In the first cycle there is no response. -/
theorem rsp_valid_zero (k : Fin n) : rspValid c (r.input 0).slave (r.state 0) k = false := by
  rw [rspValid, r.reset.port.rp_valid, Bool.and_false]

/-- The response says whether the command was a write as well. -/
theorem rsp_trans_write (h : rspValid c (r.input (t + 1)).slave (r.state (t + 1)) k = true) :
    (SlavePort.rpData c.translator (r.input (t + 1)).slave (r.state (t + 1)).port).transWrite =
      (r.command t k).av.write := by
  have htakes := (r.rsp_valid_succ t k).symm.trans h
  rw [Bool.and_eq_true] at htakes
  have hvalid : SlavePort.rpValid (r.state (t + 1)).port = true := (Bool.and_eq_true_iff.mp h).2
  exact (well_used.trans_write_succ hvalid _).trans
    ((congrArg Packet.transWrite (port_input_of_takes htakes.1).2).trans (transWrite_routed _ _ _))

/-! ## A slave without a wait request -/

section Unstalled

variable (hwait : c.translator.useWaitrequest = false)

include hwait

/-- The port is ready from the second cycle on. -/
theorem src_ready_succ (t : ℕ) : (r.mux.input (t + 1)).srcReady = true :=
  well_used.cp_ready_succ hwait _ t

/-- So the multiplexer is never stalled. -/
theorem not_stalled (t : ℕ) : CmdXbarMux.stalled (r.mux.input t) (r.mux.state t) = false := by
  cases t with
  | zero => rw [CmdXbarMux.stalled, turn_zero.src_valid_none, Bool.false_and]
  | succ t => rw [CmdXbarMux.stalled, src_ready_succ hwait, Bool.not_true, Bool.and_false]

/-- What is offered to the port is the command of a master that is served. -/
theorem exists_taken (hvalid : (r.port.input t).1.cpValid = true) :
    ∃ k, r.takes t k = true ∧
      (r.port.input t).1.cpData = routed (c.agent k) c.destid (r.command t k).av := by
  obtain ⟨holder, first, h⟩ := r.exists_turn t
  cases holder with
  | none =>
      rw [port_input_none h] at hvalid
      cases hvalid
  | some g =>
      obtain ⟨hoffered, hdata⟩ := port_input h
      refine ⟨g, ?_, hdata⟩
      cases t with
      | zero =>
          -- in the first cycle no one has the grant
          rw [port_input_none turn_zero] at hvalid
          cases hvalid
      | succ t =>
          have hready : SlavePort.uavWaitrequest c.translator (r.input (t + 1)).slave
              (r.state (t + 1)).port = false :=
            (well_used.holding t).not_waiting hwait
          rw [takes_of_turn h, ← hoffered, hvalid, hready, decide_eq_true rfl]
          rfl

/-- A command that stays on offer is taken within as many cycles as there are masters. -/
theorem served_within
    (hholds : ∀ t, (r.command t k).valid = true → r.takes t k = false →
      (r.command (t + 1) k).valid = true)
    (hvalid : (r.command t k).valid = true) :
    ∃ u, t ≤ u ∧ u ≤ t + n ∧ r.takes u k = true := by
  have hbeat : CmdXbarMux.HoldsBeat r.mux k := fun u hu htakes =>
    hholds u hu ((r.takes_eq u k).trans htakes)
  obtain ⟨u, hle, hbound, htakes⟩ := CmdXbarMux.serves_unstalled c.several mux_reset
    single_beats (not_stalled hwait) hbeat hvalid
  exact ⟨u, hle, hbound, (r.takes_eq u k).trans htakes⟩

/-- A command waits in the cycle it is first offered. -/
theorem not_taken_at_once (hnew : (r.command t k).valid = false) : r.takes (t + 1) k = false := by
  rw [takes_eq]
  exact CmdXbarMux.not_taken_at_once c.several mux_reset single_beats
    (CmdXbarMux.offers_of_moves c.several mux_reset single_beats (not_stalled hwait)) hnew

end Unstalled

end Run

end CE213Lab.System.SlavePath
