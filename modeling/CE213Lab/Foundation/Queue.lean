import Mathlib.Algebra.Group.Nat.Defs
import Mathlib.Data.List.Infix
import Mathlib.Data.List.TakeDrop
import Mathlib.Logic.Function.Basic

/-!
# Bounded queues, ring buffers and conveyors

`BoundedQueue` is the first-in first-out queue of bounded length a hardware FIFO stands for,
with one read and one write port used in the same cycle. `ring` is its usual
representation, the entries of a memory between two wrapping pointers. `Conveyor` adds one
output place behind the queue: what has entered it is, at all times, what it has delivered,
what it presents and what still waits, in that order.
-/

namespace CE213Lab.Foundation

variable {α : Type*}

/-! ## Bounded queues -/

/-- A first-in first-out queue of at most `capacity` items, the oldest first. -/
structure BoundedQueue (α : Type*) (capacity : ℕ) where
  items : List α
  bounded : items.length ≤ capacity

namespace BoundedQueue

variable {capacity : ℕ}

/-- The queue without items. -/
def empty : BoundedQueue α capacity :=
  ⟨[], Nat.zero_le capacity⟩

/-- The items after a cycle: a read removes the oldest item, if there is one, and a write appends
`x` if the queue was not full when the cycle began. -/
def cycleItems (capacity : ℕ) (read write : Bool) (x : α) (items : List α) : List α :=
  (if read then items.tail else items) ++
    (if write && items.length != capacity then [x] else [])

theorem cycle_items_bounded (read write : Bool) (x : α) {items : List α}
    (h : items.length ≤ capacity) : (cycleItems capacity read write x items).length ≤ capacity := by
  by_cases hfull : items.length = capacity
  · cases read <;> simp [cycleItems, hfull]
  · have htail : (if read then items.tail else items).length ≤ items.length := by
      cases read <;> simp
    have hpush : (if write && items.length != capacity then [x] else []).length ≤ 1 := by
      split <;> simp
    simp only [cycleItems, List.length_append]
    omega

/-- One cycle of the queue. -/
def cycle (q : BoundedQueue α capacity) (read write : Bool) (x : α) : BoundedQueue α capacity where
  items := cycleItems capacity read write x q.items
  bounded := cycle_items_bounded read write x q.bounded

end BoundedQueue

/-! ## Ring buffers -/

/-- The entries of `memory` from `first` up to, but not including, `last`, both taken modulo
`2 ^ w`. -/
def ring {w : ℕ} (memory : BitVec w → α) (first last : BitVec w) : List α :=
  (List.range (last - first).toNat).map fun i => memory (first + BitVec.ofNat w i)

section Ring

variable {w : ℕ} (memory : BitVec w → α) {first last : BitVec w}

@[simp] theorem length_ring {memory : BitVec w → α} :
    (ring memory first last).length = (last - first).toNat := by
  simp [ring]

/-- Counting up by one is the increment of natural numbers unless it wraps around to zero. -/
theorem toNat_add_one {x : BitVec w} (h : x.toNat + 1 < 2 ^ w ∨ 0 < (x + 1).toNat) :
    (x + 1).toNat = x.toNat + 1 := by
  have hsum : (x + 1).toNat = (x.toNat + 1) % 2 ^ w := by
    show (x + BitVec.ofNat w 1).toNat = _
    rw [BitVec.toNat_add, BitVec.toNat_ofNat, Nat.add_mod_mod]
  have hlt := x.isLt
  rcases Nat.lt_or_ge (x.toNat + 1) (2 ^ w) with hsmall | hlarge
  · rw [hsum, Nat.mod_eq_of_lt hsmall]
  · have hturn : x.toNat + 1 = 2 ^ w := by omega
    rw [hturn, Nat.mod_self] at hsum
    omega

/-- The pointer distance grows by one with the write pointer, short of a full turn. -/
theorem toNat_succ_sub (h : (last - first).toNat + 1 < 2 ^ w) :
    (last + 1 - first).toNat = (last - first).toNat + 1 := by
  rw [← toNat_add_one (.inl h), BitVec.sub_eq_add_neg, BitVec.sub_eq_add_neg, BitVec.add_assoc,
    BitVec.add_comm 1, ← BitVec.add_assoc]

/-- The pointer distance shrinks by one with the read pointer. -/
theorem toNat_sub_succ (h : 0 < (last - first).toNat) :
    (last - (first + 1)).toNat + 1 = (last - first).toNat := by
  have hdistance : last - (first + 1) + 1 = last - first := by
    rw [BitVec.sub_eq_add_neg, BitVec.sub_eq_add_neg, BitVec.neg_add, BitVec.sub_eq_add_neg,
      BitVec.add_assoc, BitVec.add_assoc, BitVec.add_left_neg, BitVec.add_zero]
  rw [← hdistance] at h ⊢
  exact (toNat_add_one (.inr h)).symm

/-- Storing at the write pointer and advancing it appends the stored entry. -/
theorem ring_push (x : α) (h : (last - first).toNat + 1 < 2 ^ w) :
    ring (Function.update memory last x) first (last + 1) = ring memory first last ++ [x] := by
  have hlast : first + BitVec.ofNat w (last - first).toNat = last := by
    rw [BitVec.ofNat_toNat, BitVec.setWidth_eq, BitVec.add_comm, BitVec.sub_add_cancel]
  rw [ring, toNat_succ_sub h, List.range_succ, List.map_append, List.map_singleton, hlast,
    Function.update_self]
  congr 1
  refine List.map_congr_left fun i hi => Function.update_of_ne ?_ _ _
  -- an entry before the write pointer is not the one it points to
  intro heq
  have hi : i < (last - first).toNat := List.mem_range.mp hi
  have hoffset : BitVec.ofNat w i = last - first := by
    rw [← heq, BitVec.add_comm, BitVec.add_sub_cancel]
  have hval := congrArg BitVec.toNat hoffset
  rw [BitVec.toNat_ofNat, Nat.mod_eq_of_lt (by omega)] at hval
  omega

/-- A ring that is not empty starts with the entry at the read pointer, and advancing that pointer
removes it. -/
theorem ring_pop (h : 0 < (last - first).toNat) :
    ring memory first last = memory first :: ring memory (first + 1) last := by
  rw [ring, ← toNat_sub_succ h, List.range_succ_eq_map, List.map_cons, List.map_map, ring]
  congr 1
  · simp
  · refine List.map_congr_left fun i _ => ?_
    have hsucc : BitVec.ofNat w (i + 1) = BitVec.ofNat w 1 + BitVec.ofNat w i := by
      rw [Nat.add_comm, BitVec.ofNat_add]
    simp only [Function.comp_apply, Nat.succ_eq_add_one, hsucc]
    rw [← BitVec.add_assoc]
    rfl

end Ring

/-! ## Conveyors -/

/-- A queue with one output place: the items delivered so far, the item presented at the output,
and those still waiting behind it, each oldest first. -/
structure Conveyor (α : Type*) where
  delivered : List α
  held : Option α
  waiting : List α

namespace Conveyor

/-- Everything that has entered the conveyor. -/
def entered (c : Conveyor α) : List α :=
  c.delivered ++ c.held.toList ++ c.waiting

/-- The output side of a cycle: a presented item is delivered when the receiver is ready, and an
empty output place takes the oldest waiting item. -/
def advance (ready : Bool) (c : Conveyor α) : Conveyor α :=
  match c.held with
  | some x => if ready then ⟨c.delivered ++ [x], none, c.waiting⟩ else c
  | none => ⟨c.delivered, c.waiting.head?, c.waiting.tail⟩

/-- One cycle: the output side advances and an arriving item joins the queue. -/
def cycle (ready : Bool) (arriving : Option α) (c : Conveyor α) : Conveyor α :=
  { c.advance ready with waiting := (c.advance ready).waiting ++ arriving.toList }

/-- Advancing the output neither loses nor reorders an item. -/
theorem entered_advance (ready : Bool) (c : Conveyor α) :
    (c.advance ready).entered = c.entered := by
  rcases c with ⟨delivered, held, waiting⟩
  cases held with
  | some x => cases ready <;> simp [advance, entered]
  | none => cases waiting <;> simp [advance, entered]

/-- A cycle adds exactly the arriving item. -/
theorem entered_cycle (ready : Bool) (arriving : Option α) (c : Conveyor α) :
    (c.cycle ready arriving).entered = c.entered ++ arriving.toList := by
  rw [← entered_advance ready c]
  simp [cycle, entered]

theorem length_entered (c : Conveyor α) :
    c.entered.length = c.delivered.length + c.held.toList.length + c.waiting.length := by
  simp [entered, Nat.add_assoc]

/-- The delivered items are the first that entered. -/
theorem delivered_begins (c : Conveyor α) : c.delivered <+: c.entered := by
  simp [entered, List.append_assoc]

/-- The presented item is the one that entered after those delivered. -/
theorem getElem_held {c : Conveyor α} {x : α} (h : c.held = some x) :
    c.entered[c.delivered.length]? = some x := by
  simp [entered, h]

/-- The waiting items are the last that entered. -/
theorem waiting_eq_drop (c : Conveyor α) :
    c.waiting = c.entered.drop (c.delivered.length + c.held.toList.length) := by
  simp [entered]

end Conveyor

/-- A list of pairs whose second components begin a list is its first components zipped with that
list. -/
theorem eq_zip_of_begins {β : Type*} {pairs : List (α × β)} {firsts : List α} {seconds : List β}
    (hfirst : pairs.map Prod.fst = firsts) (hsecond : pairs.map Prod.snd <+: seconds) :
    pairs = firsts.zip seconds := by
  obtain ⟨rest, rfl⟩ := hsecond
  subst hfirst
  induction pairs with
  | nil => rfl
  | cons pair pairs ih => exact congrArg (pair :: ·) ih

/-- A list of pairs whose components begin two lists begins their zip. -/
theorem begins_zip {β : Type*} {pairs : List (α × β)} {firsts : List α} {seconds : List β}
    (hfirst : pairs.map Prod.fst <+: firsts) (hsecond : pairs.map Prod.snd <+: seconds) :
    pairs <+: firsts.zip seconds := by
  obtain ⟨firsts, rfl⟩ := hfirst
  obtain ⟨seconds, rfl⟩ := hsecond
  induction pairs with
  | nil => exact List.nil_prefix
  | cons pair pairs ih => exact List.cons_prefix_cons.mpr ⟨rfl, ih⟩

end CE213Lab.Foundation
