import CE213Lab.Foundation.Machine
import CE213Lab.Foundation.RoundRobin

/-!
# The arbitrator

`altera_merlin_arbitrator.sv`, the round-robin arbiter in front of every slave of the system, for
any number of requesters and each of its schemes. The word `request` is written twice and the
one-hot `top_priority` added to its complement, by a chain of full adders up to eight bits wide and
by `+` beyond that. `grant_iff` says whom the sum grants, `Run.grants_until_lost` that a run keeps
granting unless it saves a grant that grants nobody, and `Run.passed_over_once` that it is fair.
-/

namespace CE213Lab.System.Arbitrator

open Foundation

inductive Scheme where
  | roundRobin
  | fixedPriority
  | noArb
  deriving DecidableEq

structure State (n : ℕ) where
  topPriorityReg : BitVec n

structure Inputs (n : ℕ) where
  request : BitVec n
  incrementTopPriority : Bool
  saveTopPriority : Bool

/-- What a reset leaves. -/
def reset {n : ℕ} : State n := ⟨1⟩

variable {n w : ℕ}

/-- One stage of the ripple adder: its carry out and its sum bit. The first has no carry in. -/
def fullAdder (a b : BitVec w) (i : Fin w) (cin : Bool) : Bool × Bool :=
  if i.val = 0 then (a.getLsbD i && b.getLsbD i, a.getLsbD i ^^ b.getLsbD i)
  else
    ((a.getLsbD i && b.getLsbD i) || (cin && (a.getLsbD i ^^ b.getLsbD i)),
      (a.getLsbD i ^^ b.getLsbD i) ^^ cin)

/-- `altera_merlin_arb_adder`. -/
def arbAdder (a b : BitVec w) : BitVec w :=
  if w ≤ 8 then (BitVec.iunfoldr (fullAdder a b) false).2 else a + b

def topPriority (scheme : Scheme) (s : State n) : BitVec n :=
  if scheme = .roundRobin ∧ 1 < n then s.topPriorityReg else 1

def grant (scheme : Scheme) (request : BitVec n) (s : State n) : BitVec n :=
  let result := arbAdder (~~~request ++ ~~~request) (0#n ++ topPriority scheme s)
  if scheme = .noArb then request
  else
    let grantDoubleVector := (request ++ request) &&& result
    grantDoubleVector.extractLsb' 0 n ||| grantDoubleVector.extractLsb' n n

def step (pipeline : Bool) (scheme : Scheme) (i : Inputs n) (s : State n) : State n :=
  if pipeline then
    if i.incrementTopPriority then
      { s with
        topPriorityReg :=
          if i.request ≠ 0 then (grant scheme i.request s).rotateLeft 1 else s.topPriorityReg }
    else s
  else
    let saved :=
      if i.saveTopPriority then { s with topPriorityReg := grant scheme i.request s } else s
    -- the increment is written after the save and overrides it
    if i.incrementTopPriority then
      { s with
        topPriorityReg :=
          if i.request ≠ 0 then (grant scheme i.request s).rotateLeft 1
          else s.topPriorityReg.rotateLeft 1 }
    else saved

/-! ## The adder -/

/-- Both adders add. -/
theorem arb_adder_eq (a b : BitVec w) : arbAdder a b = a + b := by
  unfold arbAdder
  split
  · rw [BitVec.iunfoldr_replace (fun i => BitVec.carry i a b false) (a + b) false BitVec.carry_zero]
    intro i
    rw [BitVec.carry_succ, ← BitVec.getLsbD_eq_getElem i.isLt, BitVec.getLsbD_add i.isLt,
      fullAdder]
    split
    · rename_i hzero
      have hcarry : BitVec.carry i a b false = false := by
        rw [hzero]
        exact BitVec.carry_zero
      rw [hcarry]
      cases a.getLsbD i <;> cases b.getLsbD i <;> rfl
    · cases a.getLsbD i <;> cases b.getLsbD i <;> cases BitVec.carry i a b false <;> rfl
  · rfl

/-! ## The grant -/

section Grant

variable {request : BitVec n} {s : State n} {k i : ℕ}

/-- The grant is the first requester from the one-hot top priority on. -/
theorem grant_eq_circular (hn : 1 < n) (hk : k < n) (htop : s.topPriorityReg = BitVec.twoPow n k) :
    grant .roundRobin request s = circular request k := by
  have hwide : 0#n ++ BitVec.twoPow n k = BitVec.twoPow (n + n) k := by
    refine BitVec.eq_of_getLsbD_eq fun j hj => ?_
    rw [BitVec.getLsbD_append, BitVec.getLsbD_twoPow, BitVec.getLsbD_twoPow]
    split
    · simp [hk, show k < n + n by omega]
    · simp [show k ≠ j by omega]
  have hsum : ~~~request ++ ~~~request = ~~~(request ++ request) := BitVec.not_append.symm
  simp only [grant, topPriority, hn, and_self, if_true, htop, arb_adder_eq, hsum, hwide,
    reduceCtorEq, if_false, circular]

theorem grant_iff (hn : 1 < n) (hk : k < n) (htop : s.topPriorityReg = BitVec.twoPow n k)
    (hi : i < n) :
    (grant .roundRobin request s).getLsbD i = true ↔ FirstFrom request.getLsbD n k i := by
  rw [grant_eq_circular hn hk htop]
  exact getLsbD_circular request hk hi

/-- With a first requester, the grant is its bit and no other. -/
theorem grant_of_first (hn : 1 < n) (hk : k < n) (htop : s.topPriorityReg = BitVec.twoPow n k)
    (h : FirstFrom request.getLsbD n k i) :
    grant .roundRobin request s = BitVec.twoPow n i := by
  refine BitVec.eq_of_getLsbD_eq fun j hj => ?_
  rw [Bool.eq_iff_iff, grant_iff hn hk htop hj, BitVec.getLsbD_twoPow, decide_eq_true h.lt,
    Bool.true_and, decide_eq_true_eq]
  exact ⟨fun hj' => h.unique hk hj', fun heq => heq ▸ h⟩

/-- Without requests nobody is granted. -/
theorem grant_of_none (hn : 1 < n) (hk : k < n) (htop : s.topPriorityReg = BitVec.twoPow n k) :
    grant .roundRobin 0 s = 0 := by
  refine BitVec.eq_of_getLsbD_eq fun j hj => ?_
  rw [Bool.eq_iff_iff, grant_iff hn hk htop hj]
  refine ⟨fun h => ?_, fun h => ?_⟩
  · simpa using h.requests
  · simp at h

/-- Rotating a grant puts the place behind it on top. -/
theorem rotate_twoPow (hn : 1 < n) (hi : i < n) :
    (BitVec.twoPow n i).rotateLeft 1 = BitVec.twoPow n (after n i) := by
  refine BitVec.eq_of_getLsbD_eq fun j hj => ?_
  rw [BitVec.getLsbD_rotateLeft_of_le hn, BitVec.getLsbD_twoPow, BitVec.getLsbD_twoPow,
    BitVec.getLsbD_twoPow, decide_eq_true hi, decide_eq_true (after_lt hi)]
  -- bit 0 comes from the highest bit, every other bit from the one below
  cases j with
  | zero =>
      simp only [Nat.lt_one_iff, decide_true, cond_true, Nat.add_zero, Bool.true_and, after]
      split <;> simp <;> omega
  | succ j =>
      simp only [show ¬ j + 1 < 1 by omega, decide_false, cond_false, hj, decide_true,
        Bool.true_and, Nat.add_sub_cancel, after]
      split <;> simp
      omega

end Grant

/-! ## Runs -/

/-- The round-robin arbiter, with or without the register of `PIPELINE`. -/
def machine (n : ℕ) (pipeline : Bool) : Machine (Inputs n) (State n) where
  step := step pipeline .roundRobin

/-- A saved grant that grants nobody. Nothing is saved with `PIPELINE`, and an increment overrides
the save. -/
def emptySave (pipeline : Bool) (i : Inputs n) : Bool :=
  !pipeline && i.saveTopPriority && !i.incrementTopPriority && i.request == 0

section Runs

variable {pipeline : Bool} {i : Inputs n} {s : State n} {k : ℕ}

theorem top_step : (step pipeline .roundRobin i s).topPriorityReg =
    if i.incrementTopPriority then
      if i.request ≠ 0 then (grant .roundRobin i.request s).rotateLeft 1
      else if pipeline then s.topPriorityReg else s.topPriorityReg.rotateLeft 1
    else if !pipeline && i.saveTopPriority then grant .roundRobin i.request s
    else s.topPriorityReg := by
  cases pipeline <;> cases hincrement : i.incrementTopPriority <;>
    cases hsave : i.saveTopPriority <;> simp [step, hincrement, hsave]

/-- With no top priority left nobody is granted any more. -/
theorem grant_lost (hn : 1 < n) (htop : s.topPriorityReg = 0) (request : BitVec n) :
    grant .roundRobin request s = 0 := by
  have hresult : arbAdder (~~~request ++ ~~~request) (0#n ++ topPriority .roundRobin s) =
      ~~~(request ++ request) := by
    have htop : topPriority .roundRobin s = 0#n := by simp [topPriority, hn, htop]
    rw [arb_adder_eq, htop, BitVec.zero_append_zero, BitVec.add_zero, BitVec.not_append]
  simp only [grant, hresult, reduceCtorEq, if_false, BitVec.and_not_self]
  exact BitVec.eq_of_getLsbD_eq fun j hj => by simp

theorem step_lost (hn : 1 < n) (htop : s.topPriorityReg = 0) :
    (step pipeline .roundRobin i s).topPriorityReg = 0 := by
  have hrotate : (0 : BitVec n).rotateLeft 1 = 0 := by
    refine BitVec.eq_of_getLsbD_eq fun j hj => ?_
    simp [BitVec.getLsbD_rotateLeft_of_le hn]
  rw [top_step, grant_lost hn htop, htop, hrotate]
  simp

/-- One requester is on top. -/
def OnTop (k : ℕ) (s : State n) : Prop :=
  k < n ∧ s.topPriorityReg = BitVec.twoPow n k

/-- Where the search begins after an edge, if `j` is the first requester. -/
def nextTop (pipeline : Bool) (i : Inputs n) (k j : ℕ) : ℕ :=
  if i.incrementTopPriority then after n j
  else if !pipeline && i.saveTopPriority then j
  else k

theorem OnTop.step_granted (h : OnTop k s) (hn : 1 < n) {j : ℕ}
    (hfirst : FirstFrom i.request.getLsbD n k j) :
    OnTop (nextTop pipeline i k j) (step pipeline .roundRobin i s) := by
  obtain ⟨hk, htop⟩ := h
  have hrequest : i.request ≠ 0 := fun hzero => by
    have := hfirst.requests
    simp [hzero] at this
  rw [OnTop, top_step, if_pos hrequest, grant_of_first hn hk htop hfirst, htop,
    rotate_twoPow hn hfirst.lt, nextTop]
  split
  · exact ⟨after_lt hfirst.lt, rfl⟩
  · split
    · exact ⟨hfirst.lt, rfl⟩
    · exact ⟨hk, rfl⟩

/-- An edge without requests turns the ring, keeps it or loses it. -/
theorem OnTop.step_none (h : OnTop k s) (hn : 1 < n) (hrequest : i.request = 0) :
    if emptySave pipeline i then (step pipeline .roundRobin i s).topPriorityReg = 0
    else ∃ k', OnTop k' (step pipeline .roundRobin i s) := by
  obtain ⟨hk, htop⟩ := h
  simp only [OnTop, top_step, hrequest, grant_of_none hn hk htop, htop, rotate_twoPow hn hk,
    emptySave]
  cases pipeline <;> cases i.incrementTopPriority <;> cases i.saveTopPriority <;>
    simp <;> first | exact ⟨k, hk, rfl⟩ | exact ⟨after n k, after_lt hk, rfl⟩

end Runs

/-- A run from the reset. -/
structure Run (n : ℕ) (pipeline : Bool) extends Execution (machine n pipeline) where
  start : state 0 = reset

namespace Run

variable {pipeline : Bool} (run : Run n pipeline) {t : ℕ}

theorem lost_stays (hn : 1 < n) {u : ℕ} (hle : t ≤ u)
    (htop : (run.state t).topPriorityReg = 0) : (run.state u).topPriorityReg = 0 := by
  induction u, hle using Nat.le_induction with
  | base => exact htop
  | succ u _ ih =>
      rw [run.state_succ]
      exact step_lost hn ih

/-- Until nobody's grant is saved, someone is on top. -/
theorem on_top (hn : 1 < n) (hsaves : ∀ v < t, emptySave pipeline (run.input v) = false) :
    ∃ k, OnTop k (run.state t) := by
  induction t with
  | zero =>
      refine ⟨0, by omega, ?_⟩
      rw [run.start, BitVec.twoPow_zero]
      rfl
  | succ t ih =>
      obtain ⟨k, hk⟩ := ih fun v hv => hsaves v (Nat.lt_succ_of_lt hv)
      rw [run.state_succ]
      by_cases hrequest : (run.input t).request = 0
      · have hstep := @OnTop.step_none n pipeline _ _ _ hk hn hrequest
        rwa [hsaves t (Nat.lt_succ_self t), if_neg Bool.false_ne_true] at hstep
      · obtain ⟨j, hj, hbit⟩ : ∃ j < n, (run.input t).request.getLsbD j = true := by
          by_contra hnone
          refine hrequest (BitVec.eq_of_getLsbD_eq fun j hj => ?_)
          have hclear : (run.input t).request.getLsbD j = false :=
            Bool.eq_false_of_not_eq_true fun hbit => hnone ⟨j, hj, hbit⟩
          exact hclear.trans BitVec.getLsbD_zero.symm
        obtain ⟨g, hg⟩ := exists_first_from hj hbit
        exact ⟨_, hk.step_granted hn hg⟩

/-- In every run the arbiter grants the first requester from some place on, until it saves a grant
that grants nobody. From then on it grants nobody at all. -/
theorem grants_until_lost (hn : 1 < n) (t : ℕ) :
    ((∀ v < t, emptySave pipeline (run.input v) = false) → ∃ k < n, ∀ request : BitVec n, ∀ i < n,
      ((grant .roundRobin request (run.state t)).getLsbD i = true ↔
        FirstFrom request.getLsbD n k i)) ∧
    ((∃ v < t, emptySave pipeline (run.input v) = true) →
      ∀ request : BitVec n, grant .roundRobin request (run.state t) = 0) := by
  refine ⟨fun hsaves => ?_, fun hsaved request => ?_⟩
  · obtain ⟨k, hk, htop⟩ := run.on_top hn hsaves
    exact ⟨k, hk, fun request i hi => grant_iff hn hk htop hi⟩
  · -- the first empty save loses the top priority
    obtain ⟨v, ⟨hlt, hempty⟩, hfirst⟩ : ∃ v, (v < t ∧ emptySave pipeline (run.input v) = true) ∧
        ∀ u < v, ¬ (u < t ∧ emptySave pipeline (run.input u) = true) :=
      ⟨Nat.find hsaved, Nat.find_spec hsaved, fun _ hu => Nat.find_min hsaved hu⟩
    obtain ⟨k, hk⟩ := run.on_top hn fun u hu =>
      Bool.eq_false_of_not_eq_true fun h => hfirst u hu ⟨hu.trans hlt, h⟩
    have hrequest : (run.input v).request = 0 := by
      simp only [emptySave, Bool.and_eq_true, beq_iff_eq] at hempty
      exact hempty.2
    have hstep := @OnTop.step_none n pipeline _ _ _ hk hn hrequest
    rw [hempty, if_pos rfl] at hstep
    refine grant_lost hn (run.lost_stays hn hlt ?_) request
    rw [run.state_succ]
    exact hstep

/-- Three requesters that do not give up, served in turn. -/
def crowded : Run 3 false where
  toExecution := drive (machine 3 false) (fun _ (_ : Unit) => ⟨7, true, false⟩) (fun _ _ _ => ())
    reset ()
  start := rfl

theorem crowded_grants :
    ((∀ v < 2, emptySave false (crowded.input v) = false) → ∃ k < 3, ∀ request : BitVec 3, ∀ i < 3,
      ((grant .roundRobin request (crowded.state 2)).getLsbD i = true ↔
        FirstFrom request.getLsbD 3 k i)) ∧
    ((∃ v < 2, emptySave false (crowded.input v) = true) →
      ∀ request : BitVec 3, grant .roundRobin request (crowded.state 2) = 0) :=
  crowded.grants_until_lost (by decide) 2

/-- The increments in the `d` cycles from `t` on. -/
def turns (run : Run n pipeline) (t : ℕ) : ℕ → ℕ
  | 0 => 0
  | d + 1 => run.turns t d + if (run.input (t + d)).incrementTopPriority then 1 else 0

/-- A requester that waits is passed over by each of the others once at most, as far as the turns
go: grants that are saved come back and do not count. -/
theorem passed_over_once (hn : 1 < n) (hsaves : ∀ v < t, emptySave pipeline (run.input v) = false)
    {i d : ℕ} (hi : i < n)
    (hwaits : ∀ v, t ≤ v → v < t + d → (run.input v).request.getLsbD i = true)
    (hpassed : ∀ v, t ≤ v → v < t + d → (run.input v).incrementTopPriority = true →
      (grant .roundRobin (run.input v).request (run.state v)).getLsbD i = false) :
    run.turns t d ≤ n - 1 := by
  have hnear : ∃ k, OnTop k (run.state (t + d)) ∧ run.turns t d + ahead n k i ≤ n - 1 := by
    induction d with
    | zero =>
        obtain ⟨k, hk⟩ := run.on_top hn hsaves
        have hahead := ahead_lt hk.1 hi
        exact ⟨k, hk, by rw [turns]; omega⟩
    | succ d ih =>
        obtain ⟨k, hk, hsum⟩ := ih (fun v hle hlt => hwaits v hle (by omega))
          fun v hle hlt => hpassed v hle (by omega)
        have hbit := hwaits (t + d) (by omega) (by omega)
        obtain ⟨j, hj⟩ := exists_first_from hi hbit
        refine ⟨_, by rw [← Nat.add_assoc, run.state_succ]; exact hk.step_granted hn hj, ?_⟩
        have hle := hj.nearest i hi hbit
        rw [turns, nextTop]
        split
        · next hincrement =>
            have hnot := hpassed (t + d) (by omega) (by omega) hincrement
            have hne : j ≠ i := by
              rintro rfl
              rw [(grant_iff hn hk.1 hk.2 hi).mpr hj] at hnot
              exact Bool.noConfusion hnot
            have hlt : ahead n k j < ahead n k i :=
              Nat.lt_of_le_of_ne hle fun heq => hne (eq_of_ahead_eq hk.1 hj.lt hi heq)
            have hcloser := ahead_after_lt hk.1 hi hlt
            omega
        · split
          · have hcloser := ahead_self_le hk.1 hi hle
            omega
          · exact hsum
  obtain ⟨k, -, hsum⟩ := hnear
  omega

/-- The last waits for the two others. -/
theorem crowded_passed_over : crowded.turns 0 2 ≤ 3 - 1 := by
  refine crowded.passed_over_once (i := 2) (by decide) (fun _ _ => rfl) (by decide)
    (fun v _ _ => ?_) fun v _ hv _ => ?_
  · show (7 : BitVec 3).getLsbD 2 = true
    decide
  · have hcycles : ∀ v < 2, (grant .roundRobin (crowded.input v).request
        (crowded.state v)).getLsbD 2 = false := by decide +kernel
    exact hcycles v (by omega)

end Run

end CE213Lab.System.Arbitrator
