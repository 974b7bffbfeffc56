import Mathlib.Data.List.Infix
import Mathlib.Data.Nat.Notation
import Mathlib.Order.Basic

/-!
# Clocked machines, executions and history variables

A machine samples an input at every clock edge and moves its registers. An execution is
infinite, one state and one input for each cycle. `Execution.history` adds a variable the
machine itself does not have, such as the list of events so far, and
`Execution.invariant_history` is the induction rule the invariants of a machine and its history
are proved with. `drive` closes a machine with an environment that answers it.
-/

namespace CE213Lab.Foundation

variable {Input State History Env : Type*}

/-- A clocked machine: the input sampled at an edge and the registers before it determine the
registers after it. -/
structure Machine (Input State : Type*) where
  step : Input → State → State

/-- An infinite execution of a machine. Cycle `t` has the registers `state t` and the input
`input t`; the edge that ends it leads to `state (t + 1)`. -/
structure Execution (machine : Machine Input State) where
  input : ℕ → Input
  state : ℕ → State
  state_succ : ∀ t, state (t + 1) = machine.step (input t) (state t)

namespace Execution

variable {machine : Machine Input State}

/-- The value in cycle `t` of a history variable that starts at `init` and is updated by
`record` at every edge. -/
def history (e : Execution machine) (record : Input → State → History → History)
    (init : History) : ℕ → History
  | 0 => init
  | t + 1 => record (e.input t) (e.state t) (e.history record init t)

/-- What holds of the registers and the history in cycle `start` and is kept by every later edge
holds in every cycle from `start` on. -/
theorem invariant_history (e : Execution machine) (record : Input → State → History → History)
    (init : History) (Inv : State → History → Prop) (start : ℕ)
    (hstart : Inv (e.state start) (e.history record init start))
    (hstep : ∀ t, start ≤ t → Inv (e.state t) (e.history record init t) →
      Inv (machine.step (e.input t) (e.state t))
        (record (e.input t) (e.state t) (e.history record init t)))
    {t : ℕ} (hle : start ≤ t) : Inv (e.state t) (e.history record init t) := by
  induction t, hle using Nat.le_induction with
  | base => exact hstart
  | succ t hle ih =>
      rw [e.state_succ]
      exact hstep t hle ih

/-- The rule without a history variable. -/
theorem invariant (e : Execution machine) (Inv : State → Prop) (start : ℕ)
    (hstart : Inv (e.state start))
    (hstep : ∀ t, start ≤ t → Inv (e.state t) → Inv (machine.step (e.input t) (e.state t)))
    {t : ℕ} (hle : start ≤ t) : Inv (e.state t) :=
  e.invariant_history (fun _ _ (h : Unit) => h) () (fun s _ => Inv s) start hstart hstep hle

/-- A history that each edge only extends is extended by every later cycle. -/
theorem history_mono {α : Type*} (e : Execution machine)
    (record : Input → State → History → History) (init : History) (log : History → List α)
    (hrecord : ∀ i s h, log h <+: log (record i s h)) {t u : ℕ} (hle : t ≤ u) :
    log (e.history record init t) <+: log (e.history record init u) := by
  induction u, hle using Nat.le_induction with
  | base => exact List.prefix_rfl
  | succ u _ ih => exact ih.trans (hrecord _ _ _)

end Execution

/-- The registers and the environment's own state when `machine` runs closed by an environment:
in cycle `t` it applies the input `respond t env`, and the edge moves it by `observe`. -/
def driveState (machine : Machine Input State) (respond : ℕ → Env → Input)
    (observe : Input → State → Env → Env) (s : State) (env : Env) : ℕ → State × Env
  | 0 => (s, env)
  | t + 1 =>
      let current := driveState machine respond observe s env t
      let input := respond t current.2
      (machine.step input current.1, observe input current.1 current.2)

/-- The execution of a machine closed by an environment. -/
def drive (machine : Machine Input State) (respond : ℕ → Env → Input)
    (observe : Input → State → Env → Env) (s : State) (env : Env) : Execution machine where
  input t := respond t (driveState machine respond observe s env t).2
  state t := (driveState machine respond observe s env t).1
  state_succ _ := rfl

end CE213Lab.Foundation
