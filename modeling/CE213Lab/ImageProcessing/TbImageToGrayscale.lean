import CE213Lab.Foundation.Machine
import CE213Lab.ImageProcessing.BitmapToHex
import CE213Lab.ImageProcessing.ImageToGrayscale

/-!
# The driver of the grayscale converter

`tb_image_to_grayscale.v`: the test bench scans the input file and gives the converter a pixel at
every rising edge, and every valid output is written to the output file. The pixel is assigned in
the time step in which the converter samples its inputs, and Verilog does not say which comes first.
So a simulator may keep one order at all edges, or change it from edge to edge. The main theorems
are `Run.one_order` and `Run.any_order`.
-/

namespace CE213Lab.ImageProcessing

open Foundation

/-- The colours of a pixel. -/
structure Pixel where
  r : Byte
  g : Byte
  b : Byte
  deriving DecidableEq

namespace TbImageToGrayscale

open ImageToGrayscale (grayFinal)

/-- The registers the test bench drives the converter with. -/
structure Drive where
  rIn : Byte
  gIn : Byte
  bIn : Byte
  inValid : Bool

/-- The main process waits for an edge with a pixel in its hand, or without one after the end of
the input file. `scans` are the results of the scans still to come, a pixel if `$fscanf` returns 3.
`file` are the lines written so far. -/
structure State where
  drive : Drive
  hand : Option Pixel
  scans : List (Option Pixel)
  dut : ImageToGrayscale.State
  file : List Byte

/-- The inputs that have already changed when the converter samples them. -/
structure Order where
  r : Bool
  g : Bool
  b : Bool
  inValid : Bool

/-- The loop up to the next wait for an edge. A scan that fails takes `in_valid` back. -/
def next (inValid : Bool) : List (Option Pixel) → Bool × Option Pixel × List (Option Pixel)
  | [] => (inValid, none, [])
  | some p :: scans => (inValid, some p, scans)
  | none :: scans => next false scans

/-- What the main process does from one edge to its next wait. After the file has ended, no pixel is
valid any more. -/
def mainProcess (s : State) : State :=
  match s.hand with
  | some p =>
      let (inValid, hand, scans) := next true s.scans
      { s with drive := ⟨p.r, p.g, p.b, inValid⟩, hand := hand, scans := scans }
  | none => { s with drive := { s.drive with inValid := false } }

/-- The inputs the converter samples. -/
def sampled (order : Order) (before after : Drive) : ImageToGrayscale.Inputs where
  rstN := true
  rIn := if order.r then after.rIn else before.rIn
  gIn := if order.g then after.gIn else before.gIn
  bIn := if order.b then after.bIn else before.bIn
  inValid := if order.inValid then after.inValid else before.inValid
  brightness := 80

/-- A rising edge. The writer reads the outputs before it. -/
def posedge (order : Order) (s : State) : State :=
  let s' := mainProcess s
  { s' with
    dut := ImageToGrayscale.step (sampled order s.drive s'.drive) s.dut
    file := if s.dut.outValid then s.file ++ [s.dut.grayOut] else s.file }

def machine : Machine Order State := ⟨posedge⟩

/-- Black, and not valid. -/
def idle : Drive := ⟨0, 0, 0, false⟩

/-- The test bench before the loop, after the reset and one more edge. -/
def start (scans : List (Option Pixel)) : State :=
  let (_, hand, scans) := next false scans
  { drive := idle, hand := hand, scans := scans
    dut := ImageToGrayscale.step (sampled ⟨true, true, true, true⟩ idle idle) ⟨0, false⟩
    file := [] }

/-- A simulation, in any order at every edge. -/
structure Run (scans : List (Option Pixel)) extends Execution machine where
  start : state 0 = start scans

/-- The simulation with the given orders. -/
def inOrder (scans : List (Option Pixel)) (order : ℕ → Order) : Run scans where
  toExecution := drive machine (fun t (_ : Unit) => order t) (fun _ _ _ => ()) (start scans) ()
  start := rfl

/-! ## What is driven -/

/-- What the loop drives from edge to edge. A scan that fails takes the pixel before it back. -/
def presented : List (Option Pixel) → List Drive
  | [] => []
  | none :: scans => presented scans
  | some p :: scans => ⟨p.r, p.g, p.b, scans.head? ≠ some none⟩ :: presented scans

/-- The drive in cycle `t`. After the loop the last pixel stays and is not valid. -/
def driven (scans : List (Option Pixel)) : ℕ → Drive
  | 0 => idle
  | t + 1 =>
      match (presented scans)[t]? with
      | some d => d
      | none => { driven scans t with inValid := false }

variable {scans : List (Option Pixel)}

/-- The file at the output path, closed 200 ns after the last assignment. `"%02h\n"` prints a byte
in two digits. -/
def outputFile (lineEnd : TextFile.LineEnd) (run : Run scans) : Text :=
  BitmapToHex.writePixels lineEnd (run.state ((presented scans).length + 20)).file

/-- The scans not made before the next edge, and the one in hand. -/
def State.waiting (s : State) : List (Option Pixel) :=
  s.hand.toList.map some ++ s.scans

theorem next_valid (v : Bool) :
    (next v scans).1 = if scans.head? = some none then false else v := by
  induction scans generalizing v with
  | nil => rfl
  | cons result scans ih =>
      cases result with
      | some p => rfl
      | none =>
          rw [next, ih]
          simp

/-- The scans that fail are made before the next wait. -/
theorem presented_next (v : Bool) :
    presented ((next v scans).2.1.toList.map some ++ (next v scans).2.2) = presented scans ∧
      ((next v scans).2.1 = none → (next v scans).2.2 = []) := by
  induction scans generalizing v with
  | nil => exact ⟨rfl, fun _ => rfl⟩
  | cons result scans ih =>
      cases result with
      | some p => exact ⟨rfl, fun h => nomatch h⟩
      | none => exact ih false

/-- After `t` edges the test bench drives what the loop drives at edge `t`, and the rest is still to
come. -/
structure At (scans : List (Option Pixel)) (t : ℕ) (s : State) : Prop where
  drives : s.drive = driven scans t
  remains : presented s.waiting = (presented scans).drop t
  ended : s.hand = none → s.scans = []

theorem At.succ {s : State} {t : ℕ} (h : At scans t s) (order : Order) :
    At scans (t + 1) (posedge order s) := by
  have hrest := h.remains
  cases hhand : s.hand with
  | none =>
      rw [State.waiting, hhand, h.ended hhand] at hrest
      have hlength : (presented scans).length ≤ t := List.drop_eq_nil_iff.mp hrest.symm
      refine ⟨?_, ?_, ?_⟩
      · simp [posedge, mainProcess, hhand, driven, h.drives, List.getElem?_eq_none hlength]
      · simp [posedge, mainProcess, hhand, State.waiting, h.ended hhand, presented,
          List.drop_eq_nil_of_le (Nat.le_succ_of_le hlength)]
      · simp [posedge, mainProcess, hhand, h.ended hhand]
  | some p =>
      have hnext := @presented_next s.scans true
      have hpresented : presented s.waiting =
          ⟨p.r, p.g, p.b, s.scans.head? ≠ some none⟩ :: presented s.scans := by
        rw [State.waiting, hhand]
        rfl
      rw [hpresented] at hrest
      refine ⟨?_, ?_, ?_⟩
      · have hget := congrArg List.head? hrest
        rw [List.head?_cons, List.head?_drop] at hget
        simp [posedge, mainProcess, hhand, driven, ← hget, next_valid]
      · simp only [posedge, mainProcess, hhand, State.waiting]
        rw [hnext.1, ← List.drop_drop, ← hrest, List.drop_one, List.tail_cons]
      · simpa [posedge, mainProcess, hhand] using hnext.2

theorem at_start : At scans 0 (start scans) :=
  ⟨rfl, (presented_next false).1, (presented_next false).2⟩

/-- The line for what is sampled, if it is valid. -/
def line (i : ImageToGrayscale.Inputs) : List Byte :=
  if i.inValid then [grayFinal i] else []

theorem line_invalid {i : ImageToGrayscale.Inputs} (h : i.inValid = false) : line i = [] := by
  rw [line, h]
  rfl

/-- The line for what is driven, when all of it is sampled. -/
def lineOf (d : Drive) : List Byte :=
  line ⟨true, d.rIn, d.gIn, d.bIn, d.inValid, 80⟩

/-- After the loop nothing is valid. -/
theorem driven_after {t : ℕ} (h : (presented scans).length < t) :
    (driven scans t).inValid = false := by
  obtain ⟨t, rfl⟩ : ∃ u, t = u + 1 := ⟨t - 1, by omega⟩
  rw [driven, List.getElem?_eq_none (by omega)]

theorem driven_succ {k : ℕ} {d : Drive} (hd : (presented scans)[k]? = some d) :
    driven scans (k + 1) = d := by
  rw [driven, hd]

/-! ## What is written -/

namespace Run

variable (run : Run scans) (t : ℕ)

theorem at_cycle : At scans t (run.state t) := by
  induction t with
  | zero =>
      rw [run.start]
      exact at_start
  | succ t ih =>
      rw [run.state_succ]
      exact ih.succ (run.input t)

/-- What the converter samples at edge `t`. -/
def samples : ImageToGrayscale.Inputs :=
  sampled (run.input t) (driven scans t) (driven scans (t + 1))

theorem dut_succ : (run.state (t + 1)).dut =
    ⟨grayFinal (run.samples t), (run.samples t).inValid⟩ := by
  have hafter := (run.at_cycle (t + 1)).drives
  rw [run.state_succ] at hafter ⊢
  change (mainProcess (run.state t)).drive = _ at hafter
  show ImageToGrayscale.step (sampled (run.input t) (run.state t).drive
    (mainProcess (run.state t)).drive) (run.state t).dut = _
  rw [hafter, (run.at_cycle t).drives]
  rfl

/-- A line follows the edge that has sampled it. -/
theorem file_succ : (run.state (t + 1)).file =
    (List.range t).flatMap fun k => line (run.samples k) := by
  have hfile : ∀ t, (run.state (t + 1)).file = if (run.state t).dut.outValid then
      (run.state t).file ++ [(run.state t).dut.grayOut] else (run.state t).file := fun t => by
    rw [run.state_succ]
    rfl
  induction t with
  | zero =>
      rw [hfile, run.start]
      rfl
  | succ t ih =>
      rw [hfile, run.dut_succ, ih, List.range_succ, List.flatMap_append, List.flatMap_singleton,
        line]
      cases (run.samples t).inValid <;> simp

/-- The file is complete two edges after the last pixel. -/
theorem file_complete {t : ℕ} (ht : (presented scans).length + 2 ≤ t) : (run.state t).file =
    (List.range ((presented scans).length + 1)).flatMap fun k => line (run.samples k) := by
  obtain ⟨m, rfl⟩ : ∃ m, t = (presented scans).length + 1 + m + 1 :=
    ⟨t - (presented scans).length - 2, by omega⟩
  rw [file_succ, List.range_add, List.flatMap_append, List.flatMap_map, List.append_right_eq_self,
    List.flatMap_eq_nil_iff]
  intro k _
  refine line_invalid ?_
  simp only [samples, sampled]
  rw [driven_after (by omega), driven_after (by omega), ite_self]

end Run

/-! ## One process after the other -/

/-- The test bench assigns everything before the converter samples, or nothing. -/
def Order.all (benchFirst : Bool) : Order :=
  ⟨benchFirst, benchFirst, benchFirst, benchFirst⟩

/-- How often a pixel assigned at edge `k` is sampled: at this edge if the test bench is first, and
at the next if the converter is first there. -/
def copies (benchFirst : ℕ → Bool) (k : ℕ) : ℕ :=
  (if benchFirst k then 1 else 0) + if benchFirst (k + 1) then 0 else 1

/-- What is the last part of one round and what is the first of the next come together. -/
theorem flatMap_range_shift {α : Type*} (first last : ℕ → List α) (n : ℕ) :
    ((List.range (n + 1)).flatMap fun k => first k ++ last k) =
      first 0 ++ ((List.range n).flatMap fun k => last k ++ first (k + 1)) ++ last n := by
  induction n with
  | zero => simp
  | succ n ih =>
      rw [List.range_succ, List.flatMap_append, ih, List.range_succ, List.flatMap_append]
      simp

theorem flatMap_range_zipIdx {α β : Type*} (l : List α) (f : ℕ → List β) (g : α × ℕ → List β)
    (h : ∀ k a, l[k]? = some a → f k = g (a, k)) :
    (List.range l.length).flatMap f = l.zipIdx.flatMap g := by
  induction l using List.reverseRecOn with
  | nil => rfl
  | append_singleton l a ih =>
      have hprefix : ∀ k b, l[k]? = some b → f k = g (b, k) := fun k b hb =>
        h k b (by rw [List.getElem?_append_left (List.getElem?_eq_some_iff.mp hb).1, hb])
      rw [List.length_append, List.length_singleton, List.range_succ, List.flatMap_append,
        ih hprefix, List.zipIdx_append, List.flatMap_append, List.flatMap_singleton,
        h l.length a (by simp)]
      simp

namespace Run

/-- What is driven from edge `k` on is sampled there or at the next edge. -/
theorem file_ordered (run : Run scans) {benchFirst : ℕ → Bool}
    (horder : ∀ k, run.input k = .all (benchFirst k)) {t : ℕ}
    (ht : (presented scans).length + 2 ≤ t) : (run.state t).file =
      (List.range (presented scans).length).flatMap fun k =>
        (List.replicate (copies benchFirst k) (driven scans (k + 1))).flatMap lineOf := by
  have hsamples : ∀ k, line (run.samples k) =
      (if benchFirst k then [] else lineOf (driven scans k)) ++
        if benchFirst k then lineOf (driven scans (k + 1)) else [] := by
    intro k
    rw [samples, horder k]
    cases benchFirst k
    · exact (List.append_nil _).symm
    · rfl
  have hfirst : lineOf (driven scans 0) = [] := rfl
  have hlast : lineOf (driven scans ((presented scans).length + 1)) = [] :=
    line_invalid (driven_after (Nat.lt_succ_self _))
  simp only [run.file_complete ht, hsamples]
  rw [flatMap_range_shift (fun k => if benchFirst k then [] else lineOf (driven scans k)), hfirst,
    hlast, ite_self, ite_self, List.nil_append, List.append_nil]
  refine List.flatMap_congr fun k _ => ?_
  rw [copies, List.replicate_add, List.flatMap_append]
  cases benchFirst k <;> cases benchFirst (k + 1) <;> simp

/-- Every simulator that runs one process after the other writes what is driven in order, each
pixel never, once or twice, as the order at its edge and the next says. -/
theorem any_order (run : Run scans) (benchFirst : ℕ → Bool)
    (horder : ∀ k, run.input k = .all (benchFirst k)) {t : ℕ}
    (ht : (presented scans).length + 2 ≤ t) : (run.state t).file =
      (presented scans).zipIdx.flatMap fun d =>
        (List.replicate (copies benchFirst d.2) d.1).flatMap lineOf := by
  rw [run.file_ordered horder ht]
  refine flatMap_range_zipIdx _ _ _ fun k d hd => ?_
  rw [driven_succ hd]

/-- Two pixels, and a third which a failed scan takes back. -/
def interrupted : List (Option Pixel) :=
  [some ⟨255, 255, 255⟩, some ⟨0, 0, 0⟩, some ⟨9, 9, 9⟩, none]

/-- The converter is first at the first edge only. -/
def lateOnce (k : ℕ) : Bool :=
  k ≠ 0

theorem any_order_interrupted :
    ((inOrder interrupted fun k => .all (lateOnce k)).state 5).file =
      (presented interrupted).zipIdx.flatMap fun d =>
        (List.replicate (copies lateOnce d.2) d.1).flatMap lineOf :=
  any_order _ lateOnce (fun _ => rfl) (by decide)

/-- The first pixel is lost. -/
example : ((inOrder interrupted fun k => .all (lateOnce k)).state 5).file = [80] := by decide

/-- A simulator that keeps its order writes every valid pixel once. -/
theorem one_order (run : Run scans) {benchFirst : Bool}
    (horder : ∀ k, run.input k = .all benchFirst) {t : ℕ}
    (ht : (presented scans).length + 2 ≤ t) :
    (run.state t).file = (presented scans).flatMap lineOf := by
  have hcopies : ∀ k, copies (fun _ => benchFirst) k = 1 := fun k => by
    cases benchFirst <;> rfl
  rw [run.file_ordered horder ht, flatMap_range_zipIdx (presented scans) _ fun d => lineOf d.1]
  · rw [← List.flatMap_map, List.zipIdx_map_fst]
  · intro k d hd
    rw [driven_succ hd, hcopies, List.replicate_one, List.flatMap_singleton]

end Run

/-! ## Several inputs in any order -/

/-- The pixels of a file in which every scan succeeds. -/
theorem presented_pixels (pixels : List Pixel) :
    presented (pixels.map some) = pixels.map fun p => ⟨p.r, p.g, p.b, true⟩ := by
  induction pixels with
  | nil => rfl
  | cons p pixels ih =>
      rw [List.map_cons, presented, ih, List.map_cons]
      cases pixels <;> rfl

theorem valid_pixel {pixels : List Pixel} {k : ℕ} (hk : k < pixels.length) :
    (driven (pixels.map some) (k + 1)).inValid = true := by
  have hd : (presented (pixels.map some))[k]? =
      some ⟨pixels[k].r, pixels[k].g, pixels[k].b, true⟩ := by
    rw [presented_pixels, List.getElem?_map, List.getElem?_eq_getElem hk, Option.map_some]
  rw [driven_succ hd]

namespace Run

variable {pixels : List Pixel} (run : Run (pixels.map some))

theorem samples_first (hne : pixels ≠ []) :
    (run.samples 0).inValid = (run.input 0).inValid := by
  have hvalid := valid_pixel (List.length_pos_of_ne_nil hne)
  rw [samples, sampled, hvalid]
  cases (run.input 0).inValid <;> rfl

/-- Between two valid pixels the order does not matter for `in_valid`. -/
theorem samples_between {k : ℕ} (hk : k + 1 < pixels.length) :
    (run.samples (k + 1)).inValid = true := by
  simp only [samples, sampled]
  rw [valid_pixel (Nat.lt_of_succ_lt hk), valid_pixel hk, ite_self]

theorem samples_last {m : ℕ} (hm : pixels.length = m + 1) :
    (run.samples (m + 1)).inValid = !(run.input (m + 1)).inValid := by
  have hafter : (driven (pixels.map some) (m + 1 + 1)).inValid = false :=
    driven_after (by rw [presented_pixels, List.length_map]; omega)
  simp only [samples, sampled]
  rw [valid_pixel (k := m) (by omega), hafter]
  cases (run.input (m + 1)).inValid <;> rfl

/-- Whatever each input's order is, one line at most is missing and one at most is too many. All
lines follow each other in the order of the edges, the first one late if the converter has sampled
the first valid pixel late. -/
theorem each_input (hne : pixels ≠ []) {t : ℕ} (ht : pixels.length + 2 ≤ t) :
    let late := if (run.input 0).inValid then 0 else 1
    let again := if (run.input pixels.length).inValid then 0 else 1
    (run.state t).file = (List.range (pixels.length + again - late)).map fun k =>
      grayFinal (run.samples (k + late)) := by
  intro late again
  have hlength : (presented (pixels.map some)).length = pixels.length := by
    rw [presented_pixels, List.length_map]
  obtain ⟨m, hm⟩ : ∃ m, pixels.length = m + 1 :=
    Nat.exists_eq_succ_of_ne_zero (List.length_pos_of_ne_nil hne).ne'
  let gray := fun k => grayFinal (run.samples k)
  have hmiddle : (List.range m).flatMap (fun k => line (run.samples (k + 1))) =
      (List.range m).map fun k => gray (k + 1) := by
    refine Eq.trans (List.flatMap_congr fun k hk => ?_) List.map_eq_flatMap.symm
    have hlt := List.mem_range.mp hk
    rw [line, run.samples_between (by omega)]
    rfl
  have hfirst : ∀ a, (List.range (a + 1)).map gray =
      gray 0 :: (List.range a).map fun k => gray (k + 1) := fun a => by
    rw [List.range_succ_eq_map, List.map_cons, List.map_map]
    rfl
  have hlast : (List.range (m + 1)).map (fun k => gray (k + 1)) =
      (List.range m).map (fun k => gray (k + 1)) ++ [gray (m + 1)] := by
    rw [List.range_succ, List.map_append, List.map_singleton]
  rw [run.file_complete (by omega), hlength, hm, List.range_succ_eq_map, List.flatMap_cons,
    List.flatMap_map, List.range_succ, List.flatMap_append, hmiddle, List.flatMap_singleton, line,
    run.samples_first hne, Nat.succ_eq_add_one, line, run.samples_last hm]
  simp only [late, again, hm]
  cases (run.input 0).inValid <;> cases (run.input (m + 1)).inValid
  · exact hlast.symm
  · exact List.append_nil _
  · exact ((hfirst (m + 1)).trans (congrArg _ hlast)).symm
  · exact ((hfirst m).trans (by simp [gray])).symm

/-- `in_valid` is sampled before it changes, and the colours behind. -/
def lateValid (_ : ℕ) : Order :=
  ⟨true, true, true, false⟩

/-- A white pixel and a black one. -/
def whiteBlack : List Pixel :=
  [⟨255, 255, 255⟩, ⟨0, 0, 0⟩]

theorem each_input_late :
    let run := inOrder (whiteBlack.map some) lateValid
    (run.state 4).file = (List.range (2 + 1 - 1)).map fun k => grayFinal (run.samples (k + 1)) :=
  each_input (inOrder _ lateValid) (by decide) (by decide)

/-- There are two lines, and both have the colours of the black pixel. -/
example : ((inOrder (whiteBlack.map some) lateValid).state 4).file = [80, 80] := by decide

end Run

end TbImageToGrayscale

end CE213Lab.ImageProcessing
