import CE213Lab.DMA.Bench
import CE213Lab.Foundation.Simulation

/-!
# Reset erases history

The reset clears the pointers of the FIFO and leaves its memory, and the latch of `oFF_data`, as
they are. Neither is ever seen: two engines whose registers agree except for the latch, and whose
FIFOs store the same words, stay so under the same inputs. The main theorem is `reset_erases`.
-/

namespace CE213Lab.DMA

open Foundation

namespace ReadMaster

/-- The walk neither reads nor changes the latch. -/
theorem walk_latch (i : Inputs) (s : State) (latch : Word) :
    walk i { s with ffDataLatch := latch } = { walk i s with ffDataLatch := latch } := by
  unfold walk
  repeat' split
  all_goals first | rfl | simp_all

end ReadMaster

namespace WriteMaster

/-- An empty FIFO's output is not looked at. -/
theorem step_of_empty {i : Inputs} (s : State) (q : Word) (hempty : i.iFFEmpty = true) :
    step { i with iFFQ := q } s = step i s := by
  rcases ReadMaster.state_cases s.state with h | h | h | h <;> simp [step, present, h, hempty]

end WriteMaster

namespace DMAFinal

/-- The output ports of the engine. -/
structure Outputs where
  oReaddata : Word
  oRMRead : Bool
  oRMReadaddress : Word
  oWMWrite : Bool
  oWMWriteaddress : Word
  oWMWritedata : Word
  deriving DecidableEq

def outputs (s : State) : Outputs where
  oReaddata := s.control.oReaddata
  oRMRead := s.rm.oRMRead
  oRMReadaddress := s.rm.oRMReadaddress
  oWMWrite := s.wm.oWMWrite
  oWMWriteaddress := s.wm.oWMWriteaddress
  oWMWritedata := s.wm.oWMWritedata

/-- Two states that differ only in the FIFO's memory outside the stored words and in the latch. -/
structure Indistinguishable (s s' : State) : Prop where
  control : s'.control = s.control
  reader : s'.rm = { s.rm with ffDataLatch := s'.rm.ffDataLatch }
  writer : s'.wm = s.wm
  bounded : FIFO.Bounded s.fi
  bounded' : FIFO.Bounded s'.fi
  words : FIFO.words s'.fi = FIFO.words s.fi

namespace Indistinguishable

variable {i : Inputs} {s s' : State}

theorem outputs_eq (h : Indistinguishable s s') : outputs s' = outputs s := by
  unfold outputs
  rw [h.control, h.reader, h.writer]

theorem ffEmpty_eq (h : Indistinguishable s s') : FIFO.ffEmpty s'.fi = FIFO.ffEmpty s.fi := by
  rw [Bool.eq_iff_iff, FIFO.ffEmpty_iff, FIFO.ffEmpty_iff, h.words]

theorem ffAlmostfull_eq (h : Indistinguishable s s') :
    FIFO.ffAlmostfull s'.fi = FIFO.ffAlmostfull s.fi := by
  rw [Bool.eq_iff_iff, FIFO.ffAlmostfull_iff, FIFO.ffAlmostfull_iff, h.words]

/-- The words presented are the same when there are any. -/
theorem ffQ_eq (h : Indistinguishable s s') (hempty : FIFO.ffEmpty s.fi = false) :
    FIFO.ffQ s'.fi = FIFO.ffQ s.fi := by
  have hcons := FIFO.words_eq_cons (h.ffEmpty_eq.trans hempty)
  rw [h.words, FIFO.words_eq_cons hempty] at hcons
  exact (List.cons.inj hcons).1.symm

theorem rmInputs_eq (h : Indistinguishable s s') (hreset : i.iResetN = true) :
    rmInputs i s' = rmInputs i s := by
  simp [rmInputs, fifo_eq hreset, h.control, h.ffAlmostfull_eq]

theorem reader_step (h : Indistinguishable s s') (hreset : i.iResetN = true) :
    (step i s').rm = { (step i s).rm with ffDataLatch := (step i s').rm.ffDataLatch } := by
  have hwalk : ReadMaster.walk (rmInputs i s') s'.rm =
      { ReadMaster.walk (rmInputs i s) s.rm with ffDataLatch := s'.rm.ffDataLatch } := by
    rw [h.rmInputs_eq hreset, h.reader, ReadMaster.walk_latch]
  show ReadMaster.step (rmInputs i s') s'.rm = _
  unfold ReadMaster.step
  rw [hwalk]
  rfl

theorem writer_step (h : Indistinguishable s s') (hreset : i.iResetN = true) :
    (step i s').wm = (step i s).wm := by
  have hinputs : wmInputs i s' = { wmInputs i s with iFFQ := FIFO.ffQ s'.fi } := by
    simp [wmInputs, fifo_eq hreset, h.control, h.ffEmpty_eq]
  show WriteMaster.step (wmInputs i s') s'.wm = WriteMaster.step (wmInputs i s) s.wm
  rw [hinputs, h.writer]
  cases hempty : FIFO.ffEmpty s.fi with
  | true =>
      have hempty : (wmInputs i s).iFFEmpty = true := by
        simpa [wmInputs, fifo_eq hreset] using hempty
      exact WriteMaster.step_of_empty s.wm _ hempty
  | false =>
      rw [h.ffQ_eq hempty]
      simp [wmInputs, fifo_eq hreset]

theorem words_step_eq (h : Indistinguishable s s') (hreset : i.iResetN = true) :
    FIFO.words (step i s').fi = FIFO.words (step i s).fi := by
  have hstate : s'.rm.state = s.rm.state := by rw [h.reader]
  have hpushes : pushes i s' = pushes i s := by
    rw [pushes_eq hreset, pushes_eq hreset, h.ffAlmostfull_eq, hstate]
  have hpops : pops i s' = pops i s := by
    rw [pops_eq hreset, pops_eq hreset, h.ffEmpty_eq, h.writer]
  rw [words_step hreset h.bounded', words_step hreset h.bounded, hpushes, hpops, h.words]

/-- No edge outside reset lets the difference be seen. -/
theorem step (h : Indistinguishable s s') (hreset : i.iResetN = true) :
    Indistinguishable (step i s) (step i s') where
  control := by
    show ControlSlave.step (controlInputs i s') s'.control = _
    unfold controlInputs
    rw [h.control, h.writer]
    rfl
  reader := h.reader_step hreset
  writer := h.writer_step hreset
  bounded := bounded_step hreset h.bounded
  bounded' := bounded_step hreset h.bounded'
  words := h.words_step_eq hreset

end Indistinguishable

/-- A reset edge makes any two states indistinguishable, whatever else the edge samples. -/
theorem indistinguishable_of_reset {i i' : Inputs} (hreset : i.iResetN = false)
    (hreset' : i'.iResetN = false) (s s' : State) :
    Indistinguishable (step i s) (step i' s') := by
  have h := cleared_step hreset s
  have h' := cleared_step hreset' s'
  constructor
  · rw [h.control, h'.control]
  · rw [h'.reader, h.reader]
  · rw [h.writer, h'.writer]
  · exact h.bounded
  · exact h'.bounded
  · rw [h.words, h'.words]

/-- Indistinguishable engines remain so under the same inputs outside reset. -/
def indistinguishability : Simulation engine engine (fun i => i.iResetN = true) where
  Rel := Indistinguishable
  step hreset h := h.step hreset

/-- After a reset edge, the outputs depend on the later inputs only: two engines in any states, each
reset by one edge and then given the same inputs, show the same outputs in every cycle. -/
theorem reset_erases (s s' : State) {edge edge' : Inputs} (hedge : edge.iResetN = false)
    (hedge' : edge'.iResetN = false) (input : ℕ → Inputs) (hinput : ∀ t, (input t).iResetN = true)
    (t : ℕ) :
    outputs ((engine.feed input (step edge s)).state t) =
      outputs ((engine.feed input (step edge' s')).state t) := by
  have hrun := indistinguishability.run (engine.feed input (step edge s))
    (engine.feed input (step edge' s')) (fun _ => rfl) hinput
    (indistinguishable_of_reset hedge hedge' s s') t
  exact hrun.outputs_eq.symm

/-- An engine reset in the middle of a copy and one that was only powered up, both then answered
without having asked. -/
theorem reset_erases_copy :
    let copying := (Bench.transfer id 0x1000 0x2000 16 (fun _ => false) (fun _ => true)).state 14
    let edge := { Bench.idle with iResetN := false }
    let stray := fun _ => { Bench.idle with iRMReaddatavalid := true, iRMReaddata := 7 }
    outputs ((engine.feed stray (step edge copying)).state 9) =
      outputs ((engine.feed stray (step edge Bench.powerUp)).state 9) :=
  reset_erases _ Bench.powerUp rfl rfl _ (fun _ => rfl) 9

end DMAFinal

end CE213Lab.DMA
