import CE213Lab.Foundation.Machine
import Mathlib.Tactic.IntervalCases

/-!
# The digits of a student number

`fsm_student_ID.v`: a press of `start` shows the digits of 23520200 one cycle each, from the digit
entered on, and `Done` marks the last. While digits are shown the inputs do not matter, a reset
excepted. The main theorem is `Run.shows_digits`.
-/

namespace CE213Lab.StudentIDSM

open Foundation

namespace FsmStudentID

/-- The codes of the states. `S0` to `S7` are 0 to 7, and the others are not used. -/
abbrev State := BitVec 4

def idle : State := 15

structure Inputs where
  rstN : Bool
  start : Bool
  userInput : BitVec 4

structure Outputs where
  active : Bool
  done : Bool
  outputDigit : BitVec 4
  deriving DecidableEq

/-- The state `start` leads to. -/
def firstState (userInput : BitVec 4) : State :=
  if userInput = 2 then 0
  else if userInput = 3 then 1
  else if userInput = 5 then 2
  else if userInput = 0 then 4
  else 0

def nextState (i : Inputs) (currentState : State) : State :=
  match currentState with
  | 15 => if i.start then firstState i.userInput else idle
  | 0 => 1
  | 1 => 2
  | 2 => 3
  | 3 => 4
  | 4 => 5
  | 5 => 6
  | 6 => 7
  | 7 => idle
  | _ => idle

/-- The outputs depend on the state alone. -/
def outputs (currentState : State) : Outputs :=
  match currentState with
  | 0 => ⟨true, false, 2⟩
  | 1 => ⟨true, false, 3⟩
  | 2 => ⟨true, false, 5⟩
  | 3 => ⟨true, false, 2⟩
  | 4 => ⟨true, false, 0⟩
  | 5 => ⟨true, false, 2⟩
  | 6 => ⟨true, false, 0⟩
  | 7 => ⟨true, true, 0⟩
  | _ => ⟨false, false, 0⟩

def step (i : Inputs) (currentState : State) : State :=
  if !i.rstN then idle else nextState i currentState

def machine : Machine Inputs State := ⟨step⟩

/-- From the state of rest, which every reset leads to. -/
structure Run extends Execution machine where
  start : state 0 = idle

/-! ## One edge -/

def studentID : List (BitVec 4) :=
  [2, 3, 5, 2, 0, 2, 0, 0]

/-- The place of the first digit that is shown: the first one of the digit entered, or the start of
the number if it does not occur. -/
def entry (userInput : BitVec 4) : ℕ :=
  (studentID.idxOf? userInput).getD 0

variable {i : Inputs} {s : State} {j : ℕ}

theorem entry_lt (userInput : BitVec 4) : entry userInput < 8 := by
  revert userInput
  decide

/-- The state of the digit at place `j`. -/
def digitState (j : ℕ) : State :=
  BitVec.ofNat 4 j

/-- `start` leads to the state of that place. -/
theorem digit_state_entry (userInput : BitVec 4) :
    digitState (entry userInput) = firstState userInput := by
  revert userInput
  decide

theorem student_id_entry (userInput : BitVec 4) (h : userInput ∈ studentID) :
    studentID[entry userInput]? = some userInput := by
  revert userInput
  decide

theorem digit_state_ne_idle (hj : j < 8) : digitState j ≠ idle := by
  interval_cases j <;> decide

theorem digit_state_inj {k : ℕ} (hj : j < 8) (hk : k < 8) (h : digitState j = digitState k) :
    j = k := by
  have hnat := congrArg BitVec.toNat h
  simp only [digitState, BitVec.toNat_ofNat] at hnat
  omega

/-- A digit is followed by the next, and the last by rest. -/
theorem next_digit (hj : j < 8) :
    nextState i (digitState j) = if j = 7 then idle else digitState (j + 1) := by
  interval_cases j <;> rfl

/-- The codes that are not used are left at once. -/
theorem rest_digit_or_unused (s : State) : s = idle ∨ (∃ j < 8, s = digitState j) ∨
    (s ≠ idle ∧ ∀ i, nextState i s = idle) := by
  have hcodes : ∀ s : State, s = 15 ∨ s.toNat < 8 ∨ s = 8 ∨ s = 9 ∨ s = 10 ∨ s = 11 ∨ s = 12 ∨
      s = 13 ∨ s = 14 := by decide
  rcases hcodes s with h | h | rfl | rfl | rfl | rfl | rfl | rfl | rfl
  · exact .inl h
  · exact .inr (.inl ⟨s.toNat, h, by rw [digitState, BitVec.ofNat_toNat, BitVec.setWidth_eq]⟩)
  all_goals exact .inr (.inr ⟨by decide, fun _ => rfl⟩)

theorem step_press (hrst : i.rstN = true) (hstart : i.start = true) :
    step i idle = digitState (entry i.userInput) := by
  rw [digit_state_entry, step, hrst]
  exact if_pos hstart

theorem step_digit (hrst : i.rstN = true) (hj : j + 1 < 8) :
    step i (digitState j) = digitState (j + 1) := by
  rw [step, hrst, if_neg (by decide), next_digit (by omega), if_neg (by omega)]

/-- Only a press and the digit before lead to a digit. -/
theorem of_step_eq_digit (hj : j < 8) (h : step i s = digitState j) : i.rstN = true ∧
    ((s = idle ∧ i.start = true ∧ entry i.userInput = j) ∨
      ∃ k, j = k + 1 ∧ s = digitState k) := by
  have hrest := digit_state_ne_idle hj
  have hrst : i.rstN = true := by
    by_contra hlow
    rw [step, Bool.eq_false_of_not_eq_true hlow] at h
    exact hrest h.symm
  rw [step, hrst, if_neg (by decide)] at h
  refine ⟨hrst, ?_⟩
  rcases rest_digit_or_unused s with rfl | ⟨k, hk, rfl⟩ | ⟨-, hunused⟩
  · have hstart : i.start = true := by
      by_contra hlow
      exact hrest (h.symm.trans (if_neg hlow))
    have hfirst : firstState i.userInput = digitState j := (if_pos hstart).symm.trans h
    rw [← digit_state_entry] at hfirst
    exact .inl ⟨rfl, hstart, digit_state_inj (entry_lt _) hj hfirst⟩
  · rw [next_digit hk] at h
    split at h
    · exact absurd h.symm hrest
    · exact .inr ⟨k, (digit_state_inj (by omega) hj h).symm, rfl⟩
  · exact absurd ((hunused i).symm.trans h).symm hrest

/-- Every edge leads to rest or to a digit. -/
theorem step_idle_or_digit : step i s = idle ∨ ∃ j < 8, step i s = digitState j := by
  cases hrst : i.rstN with
  | false => exact .inl (by rw [step, hrst]; rfl)
  | true =>
      rw [step, hrst, if_neg (by decide)]
      rcases rest_digit_or_unused s with rfl | ⟨k, hk, rfl⟩ | ⟨-, hunused⟩
      · by_cases hstart : i.start
        · exact .inr ⟨_, entry_lt i.userInput, (if_pos hstart).trans (digit_state_entry _).symm⟩
        · exact .inl (if_neg hstart)
      · rw [next_digit hk]
        split
        · exact .inl rfl
        · exact .inr ⟨k + 1, by omega, rfl⟩
      · exact .inl (hunused i)

theorem outputs_digit (hj : j < 8) : (outputs (digitState j)).active = true ∧
    studentID[j]? = some (outputs (digitState j)).outputDigit ∧
      ((outputs (digitState j)).done = true ↔ j = 7) := by
  interval_cases j <;> decide

theorem outputs_inactive (s : State) (h : (outputs s).active = false) :
    outputs s = ⟨false, false, 0⟩ := by
  revert s
  decide

/-! ## Runs -/

namespace Run

variable (run : Run) {t u : ℕ}

/-- The outputs in cycle `u`. -/
def out (u : ℕ) : Outputs :=
  outputs (run.state u)

/-- A press in cycle `t` is taken at its edge, and cycle `u` shows the digit at place `j` of what it
has begun, no reset having come between. -/
structure Showing (t u j : ℕ) : Prop where
  rest : run.state t = idle
  start : (run.input t).start = true
  running : ∀ v, t ≤ v → v < u → (run.input v).rstN = true
  place : u + entry (run.input t).userInput = t + 1 + j
  after : t < u

theorem state_eq_digit_iff {j : ℕ} (hj : j < 8) :
    run.state u = digitState j ↔ ∃ t, run.Showing t u j := by
  induction u generalizing j with
  | zero =>
      rw [run.start]
      exact ⟨fun h => absurd h.symm (digit_state_ne_idle hj),
        fun ⟨t, h⟩ => absurd h.after (Nat.not_lt_zero t)⟩
  | succ u ih =>
      rw [run.state_succ]
      constructor
      · intro h
        obtain ⟨hrst, ⟨hrest, hstart, hentry⟩ | ⟨k, rfl, hdigit⟩⟩ := of_step_eq_digit hj h
        · refine ⟨u, hrest, hstart, fun v hle hlt => ?_, by omega, Nat.lt_succ_self u⟩
          rwa [Nat.le_antisymm (Nat.le_of_lt_succ hlt) hle]
        · obtain ⟨t, hshow⟩ := (ih (by omega)).mp hdigit
          refine ⟨t, hshow.rest, hshow.start, fun v hle hlt => ?_, ?_, ?_⟩
          · rcases Nat.lt_succ_iff_lt_or_eq.mp hlt with hlt | rfl
            · exact hshow.running v hle hlt
            · exact hrst
          · have := hshow.place
            omega
          · exact Nat.lt_succ_of_lt hshow.after
      · rintro ⟨t, hshow⟩
        have hrst := hshow.running u (Nat.le_of_lt_succ hshow.after) (Nat.lt_succ_self u)
        have hplace := hshow.place
        rcases Nat.lt_succ_iff_lt_or_eq.mp hshow.after with hlt | rfl
        · obtain ⟨k, rfl⟩ : ∃ k, j = k + 1 := ⟨j - 1, by omega⟩
          have hbefore : run.Showing t u k := ⟨hshow.rest, hshow.start,
            fun v hle hv => hshow.running v hle (Nat.lt_succ_of_lt hv), by omega, hlt⟩
          have hdigit : run.state u = digitState k := (ih (by omega)).mpr ⟨t, hbefore⟩
          rw [hdigit]
          exact step_digit hrst hj
        · rw [show run.toExecution.state t = idle from hshow.rest]
          have hentry : entry (run.input t).userInput = j := by omega
          rw [← hentry]
          exact step_press hrst hshow.start

/-- In every run the outputs are active exactly while a press is answered: they show the digits one
after the other from the digit entered on, and are done at the last. Else they are zero. A digit of
the number that is entered is itself the first to be shown. -/
theorem shows_digits (u : ℕ) :
    ((run.out u).active = true ↔ ∃ t, ∃ j < 8, run.Showing t u j) ∧
      (∀ t j, j < 8 → run.Showing t u j →
        studentID[j]? = some (run.out u).outputDigit ∧ ((run.out u).done = true ↔ j = 7)) ∧
      ((run.out u).active = false → run.out u = ⟨false, false, 0⟩) ∧
      (run.state u = idle → (run.input u).start = true → (run.input u).rstN = true →
        (run.input u).userInput ∈ studentID →
          (run.out (u + 1)).outputDigit = (run.input u).userInput) := by
  refine ⟨⟨fun hactive => ?_, fun ⟨t, j, hj, hshow⟩ => ?_⟩, fun t j hj hshow => ?_,
    outputs_inactive _, fun hrest hstart hrst hmem => ?_⟩
  · have hcode : run.state u = idle ∨ ∃ j < 8, run.state u = digitState j := by
      cases u with
      | zero => exact .inl run.start
      | succ u =>
          rw [run.state_succ]
          exact step_idle_or_digit
    rcases hcode with hrest | ⟨j, hj, hdigit⟩
    · rw [out, hrest] at hactive
      exact absurd hactive (by decide)
    · obtain ⟨t, hshow⟩ := (run.state_eq_digit_iff hj).mp hdigit
      exact ⟨t, j, hj, hshow⟩
  · rw [out, (run.state_eq_digit_iff hj).mpr ⟨t, hshow⟩]
    exact (outputs_digit hj).1
  · rw [out, (run.state_eq_digit_iff hj).mpr ⟨t, hshow⟩]
    exact (outputs_digit hj).2
  · have hdigit : run.state (u + 1) = digitState (entry (run.input u).userInput) := by
      rw [run.state_succ, show run.toExecution.state u = idle from hrest]
      exact step_press hrst hstart
    have hshown := (outputs_digit (entry_lt (run.input u).userInput)).2.1
    rw [student_id_entry _ hmem, Option.some.injEq] at hshown
    rw [out, hdigit, ← hshown]

end Run

end FsmStudentID

end CE213Lab.StudentIDSM
