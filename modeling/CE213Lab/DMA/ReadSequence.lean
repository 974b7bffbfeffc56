import CE213Lab.DMA.Bench
import CE213Lab.DMA.Reader

/-!
# The read sequence

What the walk of the reader amounts to at the read port when the length is a multiple of four.
Nothing is assumed of the read slave: it may stall, lose answers and send words nobody asked for.
The main theorem is `reads_exactly`.
-/

namespace CE213Lab.DMA

open Foundation DMAFinal

namespace Transfer

variable {x : Transfer} {N t : ℕ}

/-- The transfer reads `N` consecutive words from its start address, each once and in order, and
nothing before the start pulse or after the last of them. -/
structure ReadsExactly (x : Transfer) (N : ℕ) : Prop where
  quiet : ∀ t ≤ x.start, (x.state t).rm.oRMRead = false
  begins : ∀ t, (x.ledger t).reads <+: stride x.readStart 4 N
  distinct : (stride x.readStart 4 N).Nodup
  finished : ∀ t u, (x.ledger t).reads.length = N → t ≤ u → (x.state u).rm.oRMRead = false

/-- A reader that has read the whole length issues nothing. -/
theorem read_eq_false_of_all_read (hlt : x.start < t)
    (hall : 4 * (x.ledger t).reads.length = x.length.toNat) : (x.state t).rm.oRMRead = false := by
  have hwalking := walking hlt
  rw [hwalking.read, Bool.eq_false_iff, Ne, beq_iff_eq]
  intro hstate
  exact hwalking.pending hstate (hwalking.at_end_iff.mpr hall)

/-- Of a length of `N` words, `N` words are read. -/
theorem reads_exactly (hlength : x.length.toNat = 4 * N) : x.ReadsExactly N := by
  have hbound : ∀ t, (x.ledger t).reads.length ≤ N := fun t => by
    have hle := reads_bound (x := x) (t := t) ⟨N, hlength⟩
    omega
  have hlt := x.length.isLt
  constructor
  · intro t hle
    exact (reader_idle hle).read
  · intro t
    rw [reads_eq]
    exact stride_begins (hbound t)
  · exact nodup_stride (by omega) (by omega)
  · intro t u hall hle
    have hmore := (Run.reads_mono (r := x.toRun) hle).length_le
    have hmost := hbound u
    have hread : (x.ledger u).reads.length = N := by omega
    rcases Nat.lt_or_ge x.start u with hlt | hge
    · exact read_eq_false_of_all_read hlt (by omega)
    · exact (reader_idle hge).read

/-- Two words, the first of them stalled for two cycles. -/
theorem reads_exactly_copy :
    (Bench.transfer id 0x1000 0x2000 8 (fun t => t == 8 || t == 9)
      (fun _ => true)).ReadsExactly 2 :=
  reads_exactly (by rw [Bench.transfer_length]; rfl)

end Transfer

end CE213Lab.DMA
