import CE213Lab.Foundation.Machine
import CE213Lab.Foundation.Queue

/-!
# The single-clock FIFO of the interconnect

The register-based `altera_avalon_sc_fifo` (`USE_MEMORY_BLOCKS` 0) of any depth, as the slave agents
of the system keep their outstanding responses in: a shift register whose slots carry an occupancy
bit. `EMPTY_LATENCY` is 1, or 0 with `lookahead`. Fill level, thresholds and store-and-forward are
off in every instance. `keeps_order` says that the slots are a queue.
-/

namespace CE213Lab.System.SCFIFO

open Foundation

structure State (α : Type*) where
  mem : ℕ → α
  memUsed : ℕ → Bool

structure Inputs (α : Type*) where
  inPayload : α
  inValid : Bool
  outReady : Bool

variable {α : Type*}

/-- What a reset leaves. -/
def reset (zero : α) : State α where
  mem _ := zero
  memUsed _ := false

section Wires

variable (depth : ℕ) (lookahead : Bool) (i : Inputs α) (s : State α)

def empty : Bool :=
  if lookahead then !s.memUsed 0 && !i.inValid else !s.memUsed 0

def outValid : Bool :=
  !empty lookahead i s

def outPayload : α :=
  if lookahead && (!s.memUsed 0 && i.inValid) then i.inPayload else s.mem 0

def internalOutReady : Bool :=
  i.outReady || !outValid lookahead i s

def read : Bool :=
  internalOutReady lookahead i s && outValid lookahead i s

def full : Bool :=
  -- for a single slot reading clears the full status at once
  if depth = 1 then s.memUsed 0 && !read lookahead i s else s.memUsed (depth - 1)

def inReady : Bool :=
  !full depth lookahead i s

def write : Bool :=
  inReady depth lookahead i s && i.inValid

end Wires

/-- The slots: each takes what is behind it on a read and while it is free; the last one takes the
input while it is free. -/
def nextMem (depth : ℕ) (lookahead : Bool) (i : Inputs α) (s : State α) (k : ℕ) : α :=
  if k + 1 < depth then
    if read lookahead i s || !s.memUsed k then
      if !s.memUsed (k + 1) then i.inPayload else s.mem (k + 1)
    else s.mem k
  else if !s.memUsed k || (depth = 1 && write depth lookahead i s) then i.inPayload
  else s.mem k

/-- The occupancy bits: shifted up by a write, down by a read, and left alone by both at once. -/
def nextUsed (depth : ℕ) (lookahead : Bool) (i : Inputs α) (s : State α) (k : ℕ) : Bool :=
  if write depth lookahead i s ^^ read lookahead i s then
    if k = 0 then
      if write depth lookahead i s then true else if 1 < depth then s.memUsed 1 else false
    else if k + 1 < depth then
      if write depth lookahead i s then s.memUsed (k - 1) else s.memUsed (k + 1)
    else if write depth lookahead i s then s.memUsed (depth - 2)
    else false
  else s.memUsed k

def step (depth : ℕ) (lookahead : Bool) (i : Inputs α) (s : State α) : State α where
  mem := nextMem depth lookahead i s
  memUsed := nextUsed depth lookahead i s

def machine (α : Type*) (depth : ℕ) (lookahead : Bool) : Machine (Inputs α) (State α) where
  step := step depth lookahead

/-! ## The queue -/

variable {depth : ℕ} {lookahead : Bool} {i : Inputs α} {s : State α}

/-- The slots from the first on hold the items of the queue. -/
structure Represents (s : State α) (q : BoundedQueue α depth) : Prop where
  used : ∀ k < depth, s.memUsed k = decide (k < q.items.length)
  item : ∀ k < q.items.length, q.items[k]? = some (s.mem k)

/-- What the FIFO takes in a cycle. -/
def taken (depth : ℕ) (lookahead : Bool) (i : Inputs α) (s : State α) : List α :=
  if write depth lookahead i s then [i.inPayload] else []

/-- What the FIFO gives away in a cycle. -/
def given (lookahead : Bool) (i : Inputs α) (s : State α) : List α :=
  if read lookahead i s then [outPayload lookahead i s] else []

/-- The items after a cycle: what was taken joins them and what was given away leaves. -/
def nextItems (depth : ℕ) (lookahead : Bool) (i : Inputs α) (s : State α) (items : List α) :
    List α :=
  (items ++ taken depth lookahead i s).drop (read lookahead i s).toNat

/-- What the receiver can see: the items, and with `lookahead` the item just offered. -/
def visible (lookahead : Bool) (i : Inputs α) (q : BoundedQueue α depth) : List α :=
  q.items ++ if lookahead && i.inValid then [i.inPayload] else []

/-- The handshakes show the queue. -/
structure Shows (lookahead : Bool) (i : Inputs α) (s : State α) (q : BoundedQueue α depth) :
    Prop where
  ready : inReady depth lookahead i s = true ↔
    q.items.length < depth ∨ depth = 1 ∧ i.outReady = true
  valid : outValid lookahead i s = true ↔ visible lookahead i q ≠ []
  payload : ∀ x rest, visible lookahead i q = x :: rest → outPayload lookahead i s = x

theorem read_eq : read lookahead i s = (i.outReady && outValid lookahead i s) := by
  rw [read, internalOutReady]
  cases i.outReady <;> cases outValid lookahead i s <;> rfl

/-- A slot in use keeps its item. -/
theorem next_mem_keep {k : ℕ} (hread : read lookahead i s = false) (hused : s.memUsed k = true)
    (hsingle : ¬ (depth = 1 ∧ write depth lookahead i s = true)) :
    nextMem depth lookahead i s k = s.mem k := by
  simp [nextMem, hread, hused, hsingle]

/-- On a read it takes the item behind it. -/
theorem next_mem_shift {k : ℕ} (hk : k + 1 < depth) (hread : read lookahead i s = true)
    (hused : s.memUsed (k + 1) = true) : nextMem depth lookahead i s k = s.mem (k + 1) := by
  simp [nextMem, hk, hread, hused]

/-- With nothing behind it a slot takes the input. -/
theorem next_mem_input {k : ℕ}
    (hlow : k + 1 < depth →
      (read lookahead i s = true ∨ s.memUsed k = false) ∧ s.memUsed (k + 1) = false)
    (hlast : ¬ k + 1 < depth →
      s.memUsed k = false ∨ depth = 1 ∧ write depth lookahead i s = true) :
    nextMem depth lookahead i s k = i.inPayload := by
  by_cases hk : k + 1 < depth
  · obtain ⟨hmove, hbehind⟩ := hlow hk
    rcases hmove with hmove | hmove <;> simp [nextMem, hk, hmove, hbehind]
  · rcases hlast hk with hfree | hsingle
    · simp [nextMem, hk, hfree]
    · rw [nextMem, if_neg hk, decide_eq_true hsingle.1, hsingle.2, Bool.true_and, Bool.or_true]
      rfl

theorem getElem?_taken {items : List α} (hwrite : write depth lookahead i s = true) :
    (items ++ taken depth lookahead i s)[items.length]? = some i.inPayload := by
  rw [taken, if_pos hwrite, List.getElem?_concat_length]

namespace Represents

variable {q : BoundedQueue α depth}

theorem used_zero (hdepth : 0 < depth) (h : Represents s q) :
    s.memUsed 0 = true ↔ q.items ≠ [] := by
  rw [h.used 0 hdepth, decide_eq_true_eq, List.length_pos_iff]

theorem shows (lookahead : Bool) (hdepth : 0 < depth) (h : Represents s q) (i : Inputs α) :
    Shows lookahead i s q := by
  have hzero := h.used_zero hdepth
  have hvalid : outValid lookahead i s = true ↔ visible lookahead i q ≠ [] := by
    rw [outValid, empty, visible]
    cases lookahead <;> cases hused : s.memUsed 0 <;> cases hin : i.inValid <;> simp_all
  refine ⟨?_, hvalid, fun x rest hvisible => ?_⟩
  · have hlast := h.used (depth - 1) (by omega)
    have hbound := q.bounded
    rw [inReady, full, Bool.not_eq_true']
    by_cases hone : depth = 1
    · subst hone
      rw [if_pos rfl, read_eq]
      by_cases hsome : s.memUsed 0 = true
      · have hout : outValid lookahead i s = true := by
          rw [outValid, empty, hsome]
          cases lookahead <;> rfl
        have hlength : ¬ q.items.length < 1 := by
          have := List.length_pos_iff.mpr (hzero.mp hsome)
          omega
        rw [hsome, hout, Bool.and_true, Bool.true_and, Bool.not_eq_false']
        exact ⟨fun hready => .inr ⟨rfl, hready⟩, fun hor => (hor.resolve_left hlength).2⟩
      · have hlength : q.items.length < 1 := by
          rwa [hzero, ← List.length_pos_iff, Nat.pos_iff_ne_zero, not_not,
            ← Nat.lt_one_iff] at hsome
        rw [Bool.eq_false_iff.mpr hsome, Bool.false_and]
        exact ⟨fun _ => .inl hlength, fun _ => rfl⟩
    · rw [if_neg hone, hlast, decide_eq_false_iff_not]
      omega
  · cases hitems : q.items with
    | nil =>
        have hused : s.memUsed 0 = false := by
          rw [Bool.eq_false_iff, Ne, hzero, hitems]
          simp
        rw [visible, hitems] at hvisible
        rw [outPayload, hused]
        cases lookahead <;> cases hin : i.inValid <;> simp_all
    | cons y items =>
        have hused : s.memUsed 0 = true := hzero.mpr (by rw [hitems]; simp)
        have hitem := h.item 0 (List.length_pos_iff.mpr (by rw [hitems]; simp))
        rw [hitems, List.getElem?_cons_zero, Option.some.injEq] at hitem
        rw [visible, hitems, List.cons_append, List.cons.injEq] at hvisible
        rw [outPayload, hused, Bool.not_true, Bool.false_and, Bool.and_false, if_neg (by simp)]
        exact hitem.symm.trans hvisible.1

/-- A full queue takes an item only while its single slot is read. -/
theorem read_of_full (hdepth : 0 < depth) (h : Represents s q)
    (hwrite : write depth lookahead i s = true) (hfull : q.items.length = depth) :
    depth = 1 ∧ read lookahead i s = true := by
  have hshows := h.shows lookahead hdepth i
  rw [write, Bool.and_eq_true, hshows.ready] at hwrite
  obtain ⟨hone, hout⟩ := hwrite.1.resolve_left (by omega)
  have hsome : visible lookahead i q ≠ [] := by
    rw [visible, Ne, List.append_eq_nil_iff]
    rintro ⟨hnil, _⟩
    rw [hnil, List.length_nil] at hfull
    omega
  rw [read_eq, hout, hshows.valid.mpr hsome]
  exact ⟨hone, rfl⟩

/-- What is read was stored or is just being written. -/
theorem read_le (lookahead : Bool) (hdepth : 0 < depth) (h : Represents s q) (i : Inputs α) :
    (read lookahead i s).toNat ≤ q.items.length + (write depth lookahead i s).toNat := by
  have hshows := h.shows lookahead hdepth i
  cases hread : read lookahead i s with
  | false => simp
  | true =>
      rw [read_eq, Bool.and_eq_true, hshows.valid] at hread
      cases hitems : q.items with
      | cons _ rest =>
          rw [List.length_cons, Bool.toNat_true]
          omega
      | nil =>
          have hready := hshows.ready.mpr (.inl (by rw [hitems]; exact hdepth))
          have hin : i.inValid = true := by
            by_contra hnone
            rw [Bool.not_eq_true] at hnone
            exact hread.2 (by rw [visible, hitems, hnone, Bool.and_false]; rfl)
          rw [write, hready, hin]
          simp

theorem length_next_items (items : List α) :
    (nextItems depth lookahead i s items).length =
      items.length + (write depth lookahead i s).toNat - (read lookahead i s).toNat := by
  rw [nextItems, List.length_drop, List.length_append, taken]
  cases write depth lookahead i s <;> rfl

theorem next_items_bounded (lookahead : Bool) (hdepth : 0 < depth) (h : Represents s q)
    (i : Inputs α) :
    (nextItems depth lookahead i s q.items).length ≤ depth := by
  have hbound := q.bounded
  rw [length_next_items]
  cases hwrite : write depth lookahead i s with
  | false => simp only [Bool.toNat_false]; omega
  | true =>
      rcases hbound.lt_or_eq with hroom | hfull
      · simp only [Bool.toNat_true]; omega
      · rw [(h.read_of_full hdepth hwrite hfull).2]
        simp only [Bool.toNat_true]; omega

/-- The occupancy bits count the items. -/
theorem used_step (lookahead : Bool) (hdepth : 0 < depth) (h : Represents s q)
    (i : Inputs α) {k : ℕ} (hk : k < depth) :
    nextUsed depth lookahead i s k =
      decide (k < (nextItems depth lookahead i s q.items).length) := by
  have hbound := q.bounded
  have hnext := h.next_items_bounded lookahead hdepth i
  have hread := h.read_le lookahead hdepth i
  rw [length_next_items] at hnext ⊢
  have hused : ∀ j, j < depth → (s.memUsed j = true ↔ j < q.items.length) := fun j hj => by
    rw [h.used j hj, decide_eq_true_eq]
  rw [Bool.eq_iff_iff, decide_eq_true_eq, nextUsed]
  cases hw : write depth lookahead i s <;> cases hr : read lookahead i s <;>
    simp only [hw, hr, Bool.toNat_true, Bool.toNat_false, Bool.xor_self, Bool.false_xor,
      Bool.true_xor, Bool.not_false, Bool.false_eq_true, if_false, if_true]
      at hnext hread ⊢
  · exact hused k hk
  · -- a read alone moves the bits down
    split_ifs with hzero hdeep hmiddle
    · rw [hused 1 hdeep]; omega
    · simp only [false_iff]; omega
    · rw [hused (k + 1) hmiddle]; omega
    · simp only [false_iff]; omega
  · -- a write alone moves them up
    split_ifs with hzero hmiddle
    · simp only [true_iff]; omega
    · rw [hused (k - 1) (by omega)]; omega
    · rw [hused (depth - 2) (by omega)]; omega
  · rw [hused k hk]; omega

/-- The slots hold the items. -/
theorem item_step (lookahead : Bool) (hdepth : 0 < depth) (h : Represents s q)
    (i : Inputs α) {k : ℕ} (hk : k < (nextItems depth lookahead i s q.items).length) :
    (nextItems depth lookahead i s q.items)[k]? = some (nextMem depth lookahead i s k) := by
  have hbound := q.bounded
  have hnext := h.next_items_bounded lookahead hdepth i
  rw [length_next_items] at hnext hk
  have hin : ∀ j < q.items.length, s.memUsed j = true := fun j hj => by
    rw [h.used j (by omega), decide_eq_true hj]
  have hfree : ∀ j < depth, ¬ j < q.items.length → s.memUsed j = false := fun j hj hnot => by
    rw [h.used j hj, decide_eq_false hnot]
  have hfull : write depth lookahead i s = true → q.items.length = depth →
      depth = 1 ∧ read lookahead i s = true := h.read_of_full hdepth
  -- a place past the items is that of the item just written
  have hwrite : ∀ {j : ℕ}, ¬ j < q.items.length →
      j < q.items.length + (write depth lookahead i s).toNat →
      write depth lookahead i s = true ∧ j = q.items.length := fun {j} hold hj => by
    cases hw : write depth lookahead i s with
    | false => simp only [hw, Bool.toNat_false] at hj; omega
    | true => exact ⟨rfl, by simp only [hw, Bool.toNat_true] at hj; omega⟩
  rw [nextItems, List.getElem?_drop]
  cases hr : read lookahead i s with
  | false =>
      simp only [hr, Bool.toNat_false, Nat.sub_zero, Nat.zero_add] at hnext hk hfull ⊢
      by_cases hold : k < q.items.length
      · rw [List.getElem?_append_left hold, h.item k hold, next_mem_keep hr (hin k hold)]
        exact fun ⟨hone, hw⟩ => Bool.false_ne_true (hfull hw (by omega)).2
      · obtain ⟨hw, rfl⟩ := hwrite hold hk
        rw [hw, Bool.toNat_true] at hnext
        rw [getElem?_taken hw, next_mem_input]
        · exact fun hlow => ⟨.inr (hfree _ (by omega) hold), hfree _ hlow (by omega)⟩
        · exact fun _ => .inl (hfree _ (by omega) hold)
  | true =>
      simp only [hr, Bool.toNat_true] at hnext hk ⊢
      by_cases hold : 1 + k < q.items.length
      · rw [List.getElem?_append_left hold, h.item _ hold, Nat.add_comm 1 k,
          next_mem_shift (by omega) hr (hin _ (by omega))]
      · obtain ⟨hw, hlast⟩ := hwrite hold (by omega)
        rw [hlast, getElem?_taken hw, next_mem_input]
        · exact fun hlow => ⟨.inl hr, hfree _ hlow (by omega)⟩
        · exact fun hlow => .inr ⟨(hfull hw (by omega)).1, hw⟩

/-- A cycle of the FIFO is a cycle of its queue. -/
theorem step (lookahead : Bool) (hdepth : 0 < depth) (h : Represents s q) (i : Inputs α) :
    Represents (SCFIFO.step depth lookahead i s)
      (⟨nextItems depth lookahead i s q.items, h.next_items_bounded lookahead hdepth i⟩ :
        BoundedQueue α depth) where
  used _ hk := h.used_step lookahead hdepth i hk
  item _ hk := h.item_step lookahead hdepth i hk

end Represents

/-! ## The order -/

section Order

variable {e : Execution (machine α depth lookahead)} {t : ℕ}

/-- What the FIFO has taken before cycle `t`. -/
def takenLog (e : Execution (machine α depth lookahead)) (t : ℕ) : List α :=
  e.history (fun i s log => log ++ taken depth lookahead i s) [] t

/-- What the FIFO has given away before cycle `t`. -/
def givenLog (e : Execution (machine α depth lookahead)) (t : ℕ) : List α :=
  e.history (fun i s log => log ++ given lookahead i s) [] t

/-- What was there and what came is what left and what stays. -/
theorem Represents.given_append {q : BoundedQueue α depth} (hdepth : 0 < depth)
    (h : Represents s q) (i : Inputs α) :
    given lookahead i s ++ nextItems depth lookahead i s q.items =
      q.items ++ taken depth lookahead i s := by
  rw [given, nextItems]
  cases hr : read lookahead i s with
  | false => rfl
  | true =>
      have hshows := h.shows lookahead hdepth i
      have hread := hr
      rw [read_eq, Bool.and_eq_true, hshows.valid] at hread
      cases hitems : q.items with
      | cons x rest =>
          rw [hshows.payload x _ (by rw [visible, hitems, List.cons_append])]
          rfl
      | nil =>
          -- the item just written is looked through
          have hle := h.read_le lookahead hdepth i
          have hw : write depth lookahead i s = true := by
            by_contra hnone
            rw [Bool.not_eq_true] at hnone
            rw [hr, hnone, hitems] at hle
            exact Nat.not_succ_le_zero 0 hle
          have hvisible : visible lookahead i q = [i.inPayload] := by
            have hsome := hread.2
            rw [visible, hitems] at hsome ⊢
            split_ifs at hsome ⊢ with hlook
            · rfl
            · exact absurd rfl hsome
          rw [hshows.payload _ _ hvisible, taken, if_pos hw]
          rfl

/-- In every cycle of a run from a reset the FIFO holds, in their order, the items it has taken and
not yet given away, and its handshakes show them. -/
theorem keeps_order (hdepth : 0 < depth) {zero : α} (hreset : e.state 0 = reset zero) (t : ℕ) :
    ∃ q : BoundedQueue α depth, takenLog e t = givenLog e t ++ q.items ∧
      Shows lookahead (e.input t) (e.state t) q := by
  have hstored : ∃ q : BoundedQueue α depth, takenLog e t = givenLog e t ++ q.items ∧
      Represents (e.state t) q := by
    induction t with
    | zero =>
        refine ⟨BoundedQueue.empty, rfl, hreset ▸ ⟨fun _ _ => ?_, fun _ hk => ?_⟩⟩
        · rfl
        · cases hk
    | succ t ih =>
        obtain ⟨q, hlog, h⟩ := ih
        have hstep := h.step lookahead hdepth (e.input t)
        refine ⟨_, ?_, by rwa [e.state_succ]⟩
        show takenLog e t ++ taken depth lookahead (e.input t) (e.state t) =
          givenLog e t ++ given lookahead (e.input t) (e.state t) ++
            nextItems depth lookahead (e.input t) (e.state t) q.items
        rw [hlog, List.append_assoc, List.append_assoc, h.given_append hdepth]
  obtain ⟨q, hlog, h⟩ := hstored
  exact ⟨q, hlog, h.shows lookahead hdepth (e.input t)⟩

end Order

/-- Two slots, with an item offered in every cycle and taken away in every third. -/
def pressed : Execution (machine ℕ 2 false) :=
  drive (machine ℕ 2 false) (fun t _ => ⟨t, true, t % 3 == 2⟩) (fun _ _ env => env) (reset 0) ()

theorem pressed_keeps_order :
    ∃ q : BoundedQueue ℕ 2, takenLog pressed 9 = givenLog pressed 9 ++ q.items ∧
      Shows false (pressed.input 9) (pressed.state 9) q :=
  keeps_order (by decide) rfl 9

end CE213Lab.System.SCFIFO
