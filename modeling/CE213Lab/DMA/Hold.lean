import CE213Lab.DMA.Bench
import CE213Lab.DMA.Stages

/-!
# The hold rule of the two Avalon masters

A command that meets `waitrequest` is on offer again in the next cycle, with the same address and
data. At the write port two things would break the rule: a start pulse while a command is on
offer, and a word in the FIFO once the end test has sent the writer back to state 0 with its last
command still out. Neither occurs in a run with a conformant read slave. The main theorem is
`holds_commands`.
-/

namespace CE213Lab.DMA

open Foundation DMAFinal

namespace Run

/-- A stalled read command is repeated. -/
def HoldsRead (r : Run) : Prop :=
  ∀ t, (r.state t).rm.oRMRead = true → (r.input t).iRMWaitrequest = true →
    (r.state (t + 1)).rm.oRMRead = true ∧
      (r.state (t + 1)).rm.oRMReadaddress = (r.state t).rm.oRMReadaddress

/-- A stalled write command is repeated. -/
def HoldsWrite (r : Run) : Prop :=
  ∀ t, (r.state t).wm.oWMWrite = true → (r.input t).iWMWaitrequest = true →
    (r.state (t + 1)).wm.oWMWrite = true ∧
      (r.state (t + 1)).wm.oWMWriteaddress = (r.state t).wm.oWMWriteaddress ∧
      (r.state (t + 1)).wm.oWMWritedata = (r.state t).wm.oWMWritedata

end Run

/-! ## The command registers at one edge -/

/-- A walking reader keeps a stalled command. -/
theorem rm_holds {R L : Word} {i : Inputs} {s : State} {reads : List Word}
    (h : Walking R L s.rm reads) (hreset : i.iResetN = true)
    (hstart : s.control.oStart = false) (hread : s.rm.oRMRead = true)
    (hwait : i.iRMWaitrequest = true) :
    (step i s).rm.oRMRead = true ∧ (step i s).rm.oRMReadaddress = s.rm.oRMReadaddress := by
  have hstate : s.rm.state = 2#2 := by simpa [h.read] using hread
  obtain ⟨next, hmove, hnext⟩ := rm_move hreset hstart
  rw [hnext]
  cases hmove with
  | stall => exact ⟨hread, rfl⟩
  | accept _ hready =>
      have hready : i.iRMWaitrequest = false := hready
      simp [hwait] at hready
  | full h' | leave h' | finish h' | issue h' | unused h' => simp [hstate] at h'

/-- Outside state 0 the writer keeps a stalled command, whether or not it is the last. -/
theorem wm_holds {i : Inputs} {s : State} (hreset : i.iResetN = true)
    (hstart : s.control.oStart = false) (hstate : s.wm.state ≠ 0#2)
    (hwrite : s.wm.oWMWrite = true) (hwait : i.iWMWaitrequest = true) :
    (step i s).wm.oWMWrite = true ∧
      (step i s).wm.oWMWriteaddress = s.wm.oWMWriteaddress ∧
      (step i s).wm.oWMWritedata = s.wm.oWMWritedata := by
  have hmove := wm_move hreset hstart
  generalize (step i s).wm = next at hmove ⊢
  cases hmove with
  | stall | stallLast | clear | unused => exact ⟨hwrite, rfl, rfl⟩
  | accept _ _ hready | acceptLast _ _ hready =>
      have hready : i.iWMWaitrequest = false := hready
      simp [hwait] at hready
  | empty h' | take h' => exact absurd h' hstate

/-! ## Over a run -/

namespace Transfer

variable {x : Transfer} {t : ℕ}

/-- From the start pulse on a stalled write command is repeated. -/
theorem holds_write (h : x.Conformant) (hlt : x.start < t)
    (hwrite : (x.state t).wm.oWMWrite = true) (hwait : (x.input t).iWMWaitrequest = true) :
    (x.state (t + 1)).wm.oWMWrite = true ∧
      (x.state (t + 1)).wm.oWMWriteaddress = (x.state t).wm.oWMWriteaddress ∧
      (x.state (t + 1)).wm.oWMWritedata = (x.state t).wm.oWMWritedata := by
  have hreset := x.iResetN t
  have hstart := oStart_after hlt
  rw [x.state_succ]
  cases stage h hlt with
  | moving hm =>
      have hstate : (x.state t).wm.state = 1#2 := by simpa [hm.write] using hwrite
      exact wm_holds hreset hstart (by simp [hstate]) hwrite hwait
  | finished hf => simp [hf.write] at hwrite
  | stalled hs => exact wm_holds hreset hstart (by simp [hs.state]) hwrite hwait
  | stuck hs =>
      -- nothing is left in the FIFO that could replace the command
      have hwm := wm_step_of_empty hreset hstart hs.state hs.words
      show (step _ _).wm.oWMWrite = true ∧ _
      rw [show (engine.step (x.input t) (x.state t)).wm = (x.state t).wm from hwm]
      exact ⟨by rw [hwm]; exact hwrite, rfl, rfl⟩

end Transfer

namespace Run

variable {r : Run}

theorem holds_read : r.HoldsRead := by
  intro t hread hwait
  rcases r.idle_or_transfer t with hnone | ⟨x, rfl, hlt⟩
  · simp [(reader_idle hnone).read] at hread
  · rw [x.state_succ]
    exact rm_holds (Transfer.walking hlt) (x.iResetN t) (Transfer.oStart_after hlt) hread hwait

/-- With a read slave that answers accepted reads only, both masters keep every stalled command. -/
theorem holds_commands (h : r.Conformant) : r.HoldsRead ∧ r.HoldsWrite := by
  refine ⟨holds_read, ?_⟩
  intro t hwrite hwait
  rcases r.idle_or_transfer t with hnone | ⟨x, rfl, hlt⟩
  · simp [(h.writer_idle hnone).write] at hwrite
  · exact Transfer.holds_write h hlt hwrite hwait

/-- Four words copied while both slaves stall every other cycle. -/
theorem holds_commands_copy :
    let copy := Bench.transfer id 0x1000 0x2000 16 (fun t => t % 2 == 0) (fun t => t % 2 == 1)
    copy.HoldsRead ∧ copy.HoldsWrite :=
  holds_commands Bench.transfer_fixed_latency.conformant

end Run

end CE213Lab.DMA
