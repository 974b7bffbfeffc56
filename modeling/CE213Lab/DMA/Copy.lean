import CE213Lab.DMA.Completion
import CE213Lab.DMA.Conservation

/-!
# The copy, end to end

With a read slave of latency one and an unstalled destination slave, whatever the read stalls and
the CPU do, a transfer of `N` words reads `N` words, writes them in order to consecutive
addresses, reports DONE in exactly one cycle and touches nothing afterwards. The main theorem is
`copies`.
-/

namespace CE213Lab.DMA

open Foundation DMAFinal

namespace Transfer

variable {x : Transfer} {N t : ℕ}

/-- By cycle `t` the whole of `data` has been read and written, and nothing else. -/
structure Complete (x : Transfer) (data : List Word) (t : ℕ) : Prop where
  reads : (x.ledger t).reads = stride x.readStart 4 data.length
  returned : (x.ledger t).returned = data
  writes : (x.ledger t).writes = (stride x.writeStart 4 data.length).zip data

/-- The transfer copies `data`: reads, returned words and writes never leave their course, DONE is
set in exactly one cycle, and the copy is complete in that cycle and stays as it is. -/
structure Copies (x : Transfer) (data : List Word) : Prop where
  reads : ∀ t, (x.ledger t).reads <+: stride x.readStart 4 data.length
  returned : ∀ t, (x.ledger t).returned <+: data
  writes : ∀ t, (x.ledger t).writes <+: (stride x.writeStart 4 data.length).zip data
  done : ∃ T, ControlSlave.done (x.state T).control = true ∧
    (∀ t, ControlSlave.done (x.state t).control = true → t = T) ∧
    ∀ t, T ≤ t → x.Complete data t

/-- A finished transfer of `N` words is complete with the words returned. -/
theorem complete_of_finished (h : x.Conformant) (hlossless : x.Lossless)
    (hlength : x.length.toNat = 4 * N)
    (hf : Finished x.writeStart x.length (x.state t) (x.ledger t)) :
    (x.ledger t).returned.length = N ∧ x.Complete (x.ledger t).returned t := by
  have hpushed := hf.all_pushed
  have hwritten := hf.complete
  have hreturned : (x.ledger t).returned.length = N := by
    rw [← hlossless t]
    omega
  have hreads : (x.ledger t).reads.length = N := by
    have hle := h.returned_le t
    have hbound := reads_bound (x := x) (t := t) ⟨N, hlength⟩
    omega
  refine ⟨hreturned, ?_, rfl, ?_⟩
  · rw [hreturned, ← hreads]
    exact reads_eq
  · have hwrites := (words_conserved_of_conserved hf.toConserved).written
    rwa [hlossless t, show (x.ledger t).writes.length = N by omega, ← hreturned] at hwrites

/-- Completion once reached is never left, so what is complete in two cycles is the same. -/
theorem complete_later {data : List Word} {u : ℕ} (hle : t ≤ u) (ht : x.Complete data t)
    (hu : x.Complete (x.ledger u).returned u)
    (hlength : (x.ledger u).returned.length = data.length) : x.Complete data u := by
  have heq : data = (x.ledger u).returned := by
    rw [← ht.returned] at hlength ⊢
    exact (Run.returned_mono hle).eq_of_length hlength.symm
  rwa [heq]

/-- End to end, a transfer of `N` words copies the `N` words returned. -/
theorem copies (hlatency : x.FixedLatency) (hwait : x.WritesUnstalled) (hfair : x.ReadsFair)
    (hlength : x.length.toNat = 4 * N) (hpos : 1 ≤ N) :
    ∃ data, data.length = N ∧ x.Copies data := by
  have hconformant := hlatency.conformant
  have hlossless := lossless_of_unstalled hlatency hwait
  -- the cycle in which the DONE status is set
  obtain ⟨t, hlt, hf⟩ := exists_finished hlatency hwait hfair (by omega) ⟨N, hlength⟩
  obtain ⟨T, hT⟩ := exists_done hlt hf.done
  have hcomplete : ∀ u, T ≤ u → (x.ledger u).returned.length = N ∧
      x.Complete (x.ledger u).returned u := fun u hle =>
    complete_of_finished hconformant hlossless hlength
      (finished_from_done hconformant hwait hT hle)
  obtain ⟨hdata, hnow⟩ := hcomplete T le_rfl
  have hlater : ∀ u, T ≤ u → x.Complete (x.ledger T).returned u := by
    intro u hle
    obtain ⟨hreturned, hu⟩ := hcomplete u hle
    exact complete_later hle hnow hu (by rw [hreturned, hdata])
  refine ⟨(x.ledger T).returned, hdata, ?_⟩
  -- an earlier cycle's lists begin those of cycle `T`, a later one's equal them
  constructor
  · intro u
    rw [← (hlater (max T u) (le_max_left T u)).reads]
    exact Run.reads_mono (le_max_right T u)
  · intro u
    rw [← (hlater (max T u) (le_max_left T u)).returned]
    exact Run.returned_mono (le_max_right T u)
  · intro u
    rw [← (hlater (max T u) (le_max_left T u)).writes]
    exact Run.writes_mono (le_max_right T u)
  · refine ⟨T, Run.done_iff.mpr hT, ?_, hlater⟩
    intro u hu
    exact Run.done_unique hu (Run.done_iff.mpr hT)

/-- Two words, with every other cycle of the read slave stalled. -/
theorem copies_two_words :
    ∃ data, data.length = 2 ∧
      (Bench.transfer id 0x1000 0x2000 8 (fun t => t % 2 == 0) (fun _ => false)).Copies data := by
  refine copies Bench.transfer_fixed_latency (fun _ => rfl) ?_
    (by rw [Bench.transfer_length]; rfl) (by decide)
  intro t
  refine ⟨2 * t + 1, by omega, ?_⟩
  exact beq_eq_false_iff_ne.mpr (show (2 * t + 1) % 2 ≠ 0 by omega)

end Transfer

end CE213Lab.DMA
