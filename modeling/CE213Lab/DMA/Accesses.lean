import CE213Lab.DMA.Restart
import CE213Lab.Foundation.Latch

/-!
# The CPU's accesses

The control interface has no wait request, so an access has one cycle to be performed in. In the
cycle that reports DONE the control slave clears the control register instead. No other cycle has
a status of 1, so no read ever brings DONE into the read data register. The main theorem is
`accesses_kept_iff`.
-/

namespace CE213Lab.DMA

open Foundation DMAFinal
open ControlSlave (Phase)

/-! ## Accesses and registers -/

/-- The CPU writes register 0, 1, 2 or 3. -/
def PresentsWrite (i : Inputs) : Prop :=
  i.iChipselectN = false ∧ i.iWrite = true ∧ i.iAddress.toNat < 4

/-- The CPU reads register 7. -/
def PresentsRead (i : Inputs) : Prop :=
  i.iChipselectN = false ∧ i.iRead = true ∧ i.iAddress = 7

/-- The CPU reads register 7 and writes nothing. -/
def PresentsOnlyRead (i : Inputs) : Prop :=
  PresentsRead i ∧ i.iWrite = false

namespace ControlSlave

/-- The register a write goes to. -/
def register (address : BitVec 3) (s : State) : Option Word :=
  match address with
  | 0 => some s.oRMStartaddress
  | 1 => some s.oWMStartaddress
  | 2 => some s.oLength
  | 3 => some s.control
  | _ => none

theorem register_step {address : BitVec 3} {i : Inputs} {s : State} :
    register address (step i s) = register address (registerBlock i s) := rfl

theorem register_written {i : Inputs} {s : State} (haddress : i.iAddress.toNat < 4) :
    register i.iAddress (written i s) = some i.iWritedata := by
  have hcases : i.iAddress = 0#3 ∨ i.iAddress = 1#3 ∨ i.iAddress = 2#3 ∨ i.iAddress = 3#3 := by
    have hall : ∀ a : BitVec 3, a.toNat < 4 → a = 0#3 ∨ a = 1#3 ∨ a = 2#3 ∨ a = 3#3 := by decide
    exact hall _ haddress
  rcases hcases with h | h | h | h <;> simp [register, written, h]

/-- The DONE report clears the control register, whatever the CPU does. -/
theorem registerBlock_of_done {i : Inputs} {s : State} (hreset : i.iResetN = true)
    (hdone : done s = true) : registerBlock i s = { s with control := 0 } := by
  simp [registerBlock, hreset, hdone]

end ControlSlave

/-- What the access of cycle `t` is for: a write while BUSY is clear is in its register in the next
cycle, and a read brings the status into the read data register. -/
structure Run.AccessKept (r : Run) (t : ℕ) : Prop where
  write : PresentsWrite (r.input t) → ControlSlave.busy (r.state t).control = false →
    ControlSlave.register (r.input t).iAddress (r.state (t + 1)).control =
      some (r.input t).iWritedata
  read : PresentsOnlyRead (r.input t) →
    (r.state (t + 1)).control.oReaddata = (r.state t).control.status

/-- A CPU that reads the status in every cycle from the start pulse on sees DONE in the read data
register, if DONE is reported. -/
def Run.CompletionObservable (r : Run) : Prop :=
  ∀ T, (r.state T).control.oStart = true → (∀ t, T ≤ t → PresentsOnlyRead (r.input t)) →
    (∃ t, ControlSlave.done (r.state t).control = true) →
      ∃ t, (r.state t).control.oReaddata = 1

/-- No access is lost, and completion is observable. -/
structure Run.AccessesKept (r : Run) : Prop where
  kept : ∀ t, r.AccessKept t
  observable : r.CompletionObservable

/-- The access loses nothing in a cycle that only clears the control register: it is no read of
the status, and a write of what its register holds afterwards anyway. -/
def Harmless (i : Inputs) (s : State) : Prop :=
  ¬ PresentsOnlyRead i ∧
    (PresentsWrite i →
      ControlSlave.register i.iAddress { s.control with control := 0 } = some i.iWritedata)

/-! ## The read data register -/

namespace Run

variable {r : Run} {t : ℕ}

/-- A read of the status is performed. -/
def PerformsRead (r : Run) (t : ℕ) : Prop :=
  ControlSlave.readsStatus (controlInputs (r.input t) (r.state t)) (r.state t).control = true

/-- Reads of the status are performed outside the DONE cycle only. -/
theorem not_done_of_performs (h : r.PerformsRead t) :
    ControlSlave.done (r.state t).control = false := by
  simp only [PerformsRead, ControlSlave.readsStatus, Bool.and_eq_true, Bool.not_eq_true'] at h
  exact h.2

theorem readdata_succ : (r.state (t + 1)).control.oReaddata =
    (ControlSlave.registerBlock (controlInputs (r.input t) (r.state t))
      (r.state t).control).oReaddata := by
  rw [r.state_succ]
  rfl

/-- The read data register is loaded from the status by the reads that are performed. -/
theorem readdata_latches (r : Run) :
    Latches (fun t => (r.state t).control.oReaddata) (fun t => (r.state t).control.status)
      r.PerformsRead := by
  constructor <;> intro t hperforms <;> rw [readdata_succ]
  all_goals
    have haccess := control_access (s := r.state t) (r.iResetN t)
    generalize ControlSlave.registerBlock (controlInputs (r.input t) (r.state t))
      (r.state t).control = next at haccess ⊢
  · cases haccess with
    | clear h => simp [not_done_of_performs hperforms] at h
    | write h => simp [ControlSlave.not_writes_of_reads hperforms] at h
    | read _ => rfl
    | keep _ _ h => exact absurd hperforms (by simp [PerformsRead, h])
  · cases haccess with
    | clear | keep => rfl
    | write =>
        unfold ControlSlave.written
        split <;> rfl
    | read h => exact absurd h hperforms

/-- The read data register never shows DONE. -/
theorem readdata_ne_done (r : Run) (t : ℕ) : (r.state t).control.oReaddata ≠ 1 := by
  intro hdone
  rcases r.readdata_latches.value_eq_iff.mp hdone with ⟨u, hlatest, hstatus⟩ | ⟨_, hzero⟩
  · have hnone := not_done_of_performs hlatest.2.1
    simp [ControlSlave.done, hstatus] at hnone
  · rw [r.cleared.control] at hzero
    exact absurd hzero (by decide)

/-! ## One cycle -/

theorem status_of_done (hdone : ControlSlave.done (r.state t).control = true) :
    (r.state t).control.status = 1 := by
  rw [(r.in_phase t).status, done_iff.mp hdone]
  rfl

/-- The registers of the CPU after a cycle. -/
theorem register_succ {address : BitVec 3} :
    ControlSlave.register address (r.state (t + 1)).control =
      ControlSlave.register address (ControlSlave.registerBlock
        (controlInputs (r.input t) (r.state t)) (r.state t).control) := by
  rw [r.state_succ]
  exact ControlSlave.register_step

/-- Outside the DONE cycle every access is performed. -/
theorem access_kept_of_not_done (hdone : ControlSlave.done (r.state t).control = false) :
    r.AccessKept t := by
  constructor
  · rintro ⟨hselect, hwrite, haddress⟩ hbusy
    have hwrites : ControlSlave.writes (controlInputs (r.input t) (r.state t))
        (r.state t).control = true := by
      simp [ControlSlave.writes, controlInputs, hselect, hwrite, hbusy, hdone]
    have haccess := control_access (s := r.state t) (r.iResetN t)
    rw [register_succ]
    generalize ControlSlave.registerBlock (controlInputs (r.input t) (r.state t))
      (r.state t).control = next at haccess ⊢
    cases haccess with
    | clear h => simp [hdone] at h
    | write _ =>
        exact ControlSlave.register_written (i := controlInputs (r.input t) (r.state t)) haddress
    | read h => simp [ControlSlave.not_writes_of_reads h] at hwrites
    | keep _ h _ => simp [hwrites] at h
  · rintro ⟨⟨hselect, hread, haddress⟩, hwrite⟩
    refine r.readdata_latches.load t ?_
    simp [PerformsRead, ControlSlave.readsStatus, controlInputs, hselect, hread, hwrite, haddress,
      hdone]

/-! ## Over a run -/

/-- In the DONE cycle an access is kept exactly when it is harmless. -/
theorem access_kept_iff_of_done (hdone : ControlSlave.done (r.state t).control = true) :
    r.AccessKept t ↔ Harmless (r.input t) (r.state t) := by
  have hstatus := status_of_done hdone
  have hbusy : ControlSlave.busy (r.state t).control = false := by
    simp [ControlSlave.busy, hstatus]
  have hclear := ControlSlave.registerBlock_of_done
    (i := controlInputs (r.input t) (r.state t)) (r.iResetN t) hdone
  have hreaddata : (r.state (t + 1)).control.oReaddata = (r.state t).control.oReaddata := by
    rw [readdata_succ, hclear]
  refine ⟨fun h => ⟨fun hread => ?_, fun hwrite => ?_⟩, fun h => ⟨fun hwrite _ => ?_, ?_⟩⟩
  · exact r.readdata_ne_done (t + 1) ((h.read hread).trans hstatus)
  · rw [← hclear, ← register_succ]
    exact h.write hwrite hbusy
  · rw [register_succ, hclear]
    exact h.2 hwrite
  · exact fun hread => absurd hread h.1

/-- No access of a run is lost, and completion is observable, exactly when the CPU does nothing
that matters in the DONE cycle. It never sees DONE. -/
theorem accesses_kept_iff (r : Run) :
    (r.AccessesKept ↔ ∀ t, ControlSlave.done (r.state t).control = true →
      Harmless (r.input t) (r.state t)) ∧
      ∀ t, (r.state t).control.oReaddata ≠ 1 := by
  refine ⟨⟨fun h t hdone => (access_kept_iff_of_done hdone).mp (h.kept t), ?_⟩,
    r.readdata_ne_done⟩
  intro hharmless
  refine ⟨fun t => ?_, ?_⟩
  · cases hdone : ControlSlave.done (r.state t).control with
    | true => exact (access_kept_iff_of_done hdone).mpr (hharmless t hdone)
    | false => exact access_kept_of_not_done hdone
  · rintro T hstart hpolls ⟨t, hdone⟩
    -- DONE comes after the start pulse, so it meets a read
    have hlt : T < t :=
      Transfer.start_lt (x := { r with start := T, oStart := hstart })
        (by simp [show r.phase t = .done from done_iff.mp hdone, Phase.rank])
    exact absurd (hpolls t hlt.le) (hharmless t hdone).1

/-! ## A polled transfer -/

/-- The CPU reads register 7 in every cycle after the GO command. -/
def polled : Run :=
  Bench.onChip id (Bench.program 0x1000 0x2000 4 fun _ =>
    { Bench.idle with iChipselectN := false, iRead := true, iAddress := 7 })

theorem polled_reads {t : ℕ} (hle : 4 ≤ t) : PresentsOnlyRead (polled.input t) := by
  obtain ⟨u, rfl⟩ := Nat.exists_eq_add_of_le' hle
  exact ⟨⟨rfl, rfl, rfl⟩, rfl⟩

/-- DONE is reported in cycle 12; the read of that cycle is lost, and no read ever shows it. -/
theorem done_unseen :
    ControlSlave.done (polled.state 12).control = true ∧
      PresentsOnlyRead (polled.input 12) ∧ (polled.state 13).control.oReaddata = 2 ∧
      ¬ polled.CompletionObservable ∧ ¬ polled.AccessesKept := by
  have hdone : ControlSlave.done (polled.state 12).control = true := by decide +kernel
  have hreaddata : (polled.state 13).control.oReaddata = 2 := by decide +kernel
  have hstart : (polled.state 5).control.oStart = true := by decide +kernel
  have hunseen : ¬ polled.CompletionObservable := by
    intro hobservable
    obtain ⟨t, hseen⟩ := hobservable 5 hstart (fun t hle => polled_reads (by omega)) ⟨12, hdone⟩
    exact polled.readdata_ne_done t hseen
  exact ⟨hdone, polled_reads (by omega), hreaddata, hunseen, fun h => hunseen h.observable⟩

end Run

end CE213Lab.DMA
