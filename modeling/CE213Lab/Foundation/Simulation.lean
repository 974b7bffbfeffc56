import CE213Lab.Foundation.Machine

/-!
# Simulation

Two machines that take the same inputs. A `Simulation` is a relation between their registers that
every edge with an allowed input keeps; `Simulation.run` carries it through whole executions.
With an abstract machine on one side it is a refinement, with the same machine on both sides it
compares two runs of it.
-/

namespace CE213Lab.Foundation

variable {Input State State' : Type*}

/-- The registers in cycle `t` when `machine` starts from `s` and takes the inputs `input`. -/
def feedState (machine : Machine Input State) (input : ℕ → Input) (s : State) : ℕ → State
  | 0 => s
  | t + 1 => machine.step (input t) (feedState machine input s t)

/-- The execution of a machine from `s` under the inputs `input`. -/
def Machine.feed (machine : Machine Input State) (input : ℕ → Input) (s : State) :
    Execution machine where
  input := input
  state := feedState machine input s
  state_succ _ := rfl

/-- A relation that every edge with an allowed input keeps. -/
structure Simulation (machine : Machine Input State) (machine' : Machine Input State')
    (Allowed : Input → Prop) where
  Rel : State → State' → Prop
  step : ∀ {i s s'}, Allowed i → Rel s s' → Rel (machine.step i s) (machine'.step i s')

/-- Related at the start and given the same allowed inputs, two executions stay related. -/
theorem Simulation.run {machine : Machine Input State} {machine' : Machine Input State'}
    {Allowed : Input → Prop} (sim : Simulation machine machine' Allowed)
    (e : Execution machine) (e' : Execution machine') (hinput : ∀ t, e'.input t = e.input t)
    (hallowed : ∀ t, Allowed (e.input t)) (hstart : sim.Rel (e.state 0) (e'.state 0)) (t : ℕ) :
    sim.Rel (e.state t) (e'.state t) := by
  induction t with
  | zero => exact hstart
  | succ t ih =>
      rw [e.state_succ, e'.state_succ, hinput]
      exact sim.step (hallowed t) ih

end CE213Lab.Foundation
