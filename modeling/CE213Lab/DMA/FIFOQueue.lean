import CE213Lab.DMA.Run
import CE213Lab.Foundation.Simulation

/-!
# The FIFO as a bounded queue

The FIFO on its own, under any requests in any order. From reset on it represents the bounded
queue of capacity 128 that receives the same requests, and its three outputs show that queue. The
main theorem is `refines_queue`; `Run.fifoRun` says that the FIFO inside the engine is such a FIFO.
-/

namespace CE213Lab.DMA

open Foundation DMAFinal

namespace FIFO

/-- The FIFO as a clocked machine. The asynchronous reset acts before the edge. -/
def machine : Machine Inputs State :=
  ⟨fun i s => step i (negedgeReset i.iResetN s)⟩

/-- The queue it stands for, under the same requests. -/
def queueMachine : Machine Inputs (BoundedQueue Word 128) :=
  ⟨fun i q => q.cycle i.ffReadrequest i.ffWriterequest i.ffData⟩

/-- The FIFO stores the items of the queue. -/
structure Represents (s : State) (q : BoundedQueue Word 128) : Prop where
  bounded : Bounded s
  words : words s = q.items

/-- The outputs show the queue: the two flags its length, `FF_q` its oldest item. A write is taken
when the queue has room, a read when it has an item. -/
structure Shows (i : Inputs) (s : State) (q : BoundedQueue Word 128) : Prop where
  empty : ffEmpty s = true ↔ q.items = []
  almostfull : ffAlmostfull s = true ↔ q.items.length = 128
  head : ∀ x rest, q.items = x :: rest → ffQ s = x
  write : fifoWr i s = true ↔ i.ffWriterequest = true ∧ q.items.length < 128
  read : fifoRd i s = true ↔ i.ffReadrequest = true ∧ q.items ≠ []

/-- Outside reset every edge of the FIFO is a cycle of the queue. -/
def refinement : Simulation machine queueMachine (fun i => i.iResetN = true) where
  Rel := Represents
  step := by
    intro i s q hreset h
    have hedge : machine.step i s = step i s := by
      show step i (negedgeReset i.iResetN s) = _
      simp [negedgeReset, hreset]
    rw [hedge]
    refine ⟨bounded_step hreset h.bounded, ?_⟩
    rw [step_words hreset h.bounded, h.words]
    rfl

theorem Represents.shows {s : State} {q : BoundedQueue Word 128} (h : Represents s q)
    (i : Inputs) : Shows i s q := by
  have hempty : ffEmpty s = true ↔ q.items = [] := by
    rw [ffEmpty_iff, h.words]
  have hfull : ffAlmostfull s = true ↔ q.items.length = 128 := by
    rw [ffAlmostfull_iff, h.words]
  constructor
  · exact hempty
  · exact hfull
  · intro x rest hitems
    have hnot : ffEmpty s = false := by
      rw [Bool.eq_false_iff, Ne, hempty, hitems]
      exact List.cons_ne_nil x rest
    have hcons := words_eq_cons hnot
    rw [h.words, hitems] at hcons
    exact (List.cons.inj hcons).1.symm
  · have hlt : q.items.length < 128 ↔ ¬ q.items.length = 128 := q.bounded.lt_iff_ne
    rw [fifoWr, Bool.and_eq_true, Bool.not_eq_true', Bool.eq_false_iff, Ne, hfull, hlt, and_comm]
  · rw [fifoRd, Bool.and_eq_true, Bool.not_eq_true', Bool.eq_false_iff, Ne, hempty, and_comm]

/-- An execution of the FIFO from reset, with `iReset_n` high from then on. -/
structure Run extends Execution machine where
  reset : ∃ i s, i.iResetN = false ∧ state 0 = machine.step i s
  iResetN : ∀ t, (input t).iResetN = true

/-- The queue that receives the requests of a run, empty at first. -/
def Run.queue (r : Run) : Execution queueMachine :=
  queueMachine.feed r.input BoundedQueue.empty

theorem Run.represents (r : Run) (t : ℕ) : Represents (r.state t) (r.queue.state t) := by
  refine refinement.run r.toExecution r.queue (fun _ => rfl) r.iResetN ?_ t
  obtain ⟨i, s, hreset, heq⟩ := r.reset
  obtain ⟨hbounded, hwords⟩ := step_reset hreset (negedgeReset i.iResetN s)
  exact ⟨heq ▸ hbounded, heq ▸ hwords⟩

/-- In every cycle of every run the outputs show the queue that has received the same requests. -/
theorem refines_queue (r : Run) (t : ℕ) : Shows (r.input t) (r.state t) (r.queue.state t) :=
  (r.represents t).shows (r.input t)

end FIFO

/-- The FIFO of the engine runs under the requests of the two masters. -/
def Run.fifoRun (r : Run) : FIFO.Run where
  input t := fiInputs (r.input t) (r.state t)
  state t := (r.state t).fi
  state_succ t := by
    rw [r.state_succ]
    rfl
  reset := by
    obtain ⟨i, s, hreset, heq⟩ := r.reset
    refine ⟨fiInputs i s, s.fi, hreset, ?_⟩
    rw [heq]
    rfl
  iResetN t := r.iResetN t

/-- The words between the two masters are the items of the queue their requests make. -/
theorem Run.words_eq_items (r : Run) (t : ℕ) :
    FIFO.words (r.state t).fi = (r.fifoRun.queue.state t).items :=
  (r.fifoRun.represents t).words

end CE213Lab.DMA
