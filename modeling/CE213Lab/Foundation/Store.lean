import Mathlib.Data.List.Induction
import Mathlib.Data.List.Nodup
import Mathlib.Data.Nat.Notation
import Mathlib.Logic.Function.Basic

/-!
# Lists of writes and the memory they leave

`afterWrites memory writes` is what a memory holds after a list of writes, the later ones
overwriting the earlier. A location holds the value every write to it agrees on, however often and
in whatever order these writes come, so a list may repeat its last write without harm.
-/

namespace CE213Lab.Foundation

variable {α β γ : Type*} [DecidableEq α] {memory : α → β} {writes : List (α × β)} {a : α} {b : β}

/-- The memory after the writes. -/
def afterWrites (memory : α → β) (writes : List (α × β)) : α → β :=
  writes.foldl (fun m w => Function.update m w.1 w.2) memory

theorem after_writes_append {more : List (α × β)} :
    afterWrites memory (writes ++ more) = afterWrites (afterWrites memory writes) more :=
  List.foldl_append

/-- The last write is seen at its own location. -/
theorem after_writes_concat {w : α × β} :
    afterWrites memory (writes ++ [w]) =
      Function.update (afterWrites memory writes) w.1 w.2 := by
  rw [after_writes_append]
  rfl

/-- A location no write goes to keeps its value. -/
theorem after_writes_of_not_mem (h : a ∉ writes.map Prod.fst) :
    afterWrites memory writes a = memory a := by
  induction writes using List.reverseRecOn with
  | nil => rfl
  | append_singleton writes w ih =>
      rw [List.map_append, List.mem_append, not_or] at h
      have hne : a ≠ w.1 := by simpa using h.2
      rw [after_writes_concat, Function.update_of_ne hne]
      exact ih h.1

/-- A location some write goes to holds the value all writes to it agree on. -/
theorem after_writes_of_agree (hmem : (a, b) ∈ writes)
    (hagree : ∀ w ∈ writes, w.1 = a → w.2 = b) : afterWrites memory writes a = b := by
  induction writes using List.reverseRecOn with
  | nil => simp at hmem
  | append_singleton writes w ih =>
      rw [after_writes_concat]
      by_cases hlast : w.1 = a
      · rw [hlast, Function.update_self]
        exact hagree w (by simp) hlast
      · rw [Function.update_of_ne (Ne.symm hlast)]
        refine ih ?_ fun v hv => hagree v (List.mem_append_left _ hv)
        rcases List.mem_append.mp hmem with h | h
        · exact h
        · exact absurd (congrArg Prod.fst (List.mem_singleton.mp h)).symm hlast

/-- When no location is written twice every write is seen. -/
theorem after_writes_of_nodup (hnodup : (writes.map Prod.fst).Nodup) (hmem : (a, b) ∈ writes) :
    afterWrites memory writes a = b :=
  after_writes_of_agree hmem fun _ hw heq =>
    congrArg Prod.snd (List.inj_on_of_nodup_map hnodup hw hmem heq)

/-! ## Repeating the last write -/

/-- `writes` is a beginning of `course`, or the whole of it followed by repetitions of its last
entry. -/
def RepeatsLast (course writes : List γ) : Prop :=
  writes <+: course ∨
    ∃ last k, course.getLast? = some last ∧ writes = course ++ List.replicate k last

/-- Up to its last entry the course is followed, and from there on only that entry is repeated. -/
theorem RepeatsLast.of_dropLast {course : List γ} {last : γ} (hlast : course.getLast? = some last)
    (k : ℕ) : RepeatsLast course (course.dropLast ++ List.replicate k last) := by
  have hsplit : course.dropLast ++ [last] = course := List.dropLast_append_getLast? last hlast
  cases k with
  | zero => exact .inl (by simpa using List.dropLast_prefix course)
  | succ k =>
      refine .inr ⟨last, k, hlast, ?_⟩
      rw [List.replicate_succ, List.append_cons, hsplit]

/-- Every entry of such a list is one of the course. -/
theorem RepeatsLast.subset {course writes : List γ} (h : RepeatsLast course writes) :
    writes ⊆ course := by
  rcases h with hbegins | ⟨last, k, hlast, rfl⟩
  · exact hbegins.subset
  · intro w hw
    rcases List.mem_append.mp hw with h | h
    · exact h
    · rw [(List.mem_replicate.mp h).2]
      exact List.mem_of_getLast? hlast

/-- What is done to every entry keeps the list of that kind. -/
theorem RepeatsLast.map {δ : Type*} {course writes : List γ} (f : γ → δ)
    (h : RepeatsLast course writes) : RepeatsLast (course.map f) (writes.map f) := by
  rcases h with hbegins | ⟨last, k, hlast, rfl⟩
  · exact .inl (hbegins.map f)
  · exact .inr ⟨f last, k, by rw [List.getLast?_map, hlast]; rfl, by
      rw [List.map_append, List.map_replicate]⟩

/-- As soon as the list is as long as the course, it has every entry of the course. -/
theorem RepeatsLast.superset {course writes : List γ} (h : RepeatsLast course writes)
    (hlength : course.length ≤ writes.length) : course ⊆ writes := by
  rcases h with hbegins | ⟨last, k, _, rfl⟩
  · rw [hbegins.eq_of_length_le hlength]
    exact List.Subset.refl _
  · exact List.subset_append_left _ _

/-- A list of that kind leaves the memory the course leaves, if the course goes to each location
once. -/
theorem RepeatsLast.after_writes {course : List (α × β)} (h : RepeatsLast course writes)
    (hlength : course.length ≤ writes.length) (hnodup : (course.map Prod.fst).Nodup) :
    afterWrites memory writes = afterWrites memory course := by
  funext a
  by_cases hmem : a ∈ course.map Prod.fst
  · obtain ⟨v, hv, rfl⟩ := List.mem_map.mp hmem
    rw [after_writes_of_nodup hnodup hv]
    refine after_writes_of_agree (h.superset hlength hv) fun w hw heq => ?_
    exact congrArg Prod.snd (List.inj_on_of_nodup_map hnodup (h.subset hw) hv heq)
  · rw [after_writes_of_not_mem hmem, after_writes_of_not_mem]
    intro hw
    obtain ⟨v, hv, heq⟩ := List.mem_map.mp hw
    exact hmem (heq ▸ List.mem_map_of_mem (h.subset hv))

end CE213Lab.Foundation
