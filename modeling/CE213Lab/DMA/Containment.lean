import CE213Lab.DMA.LastWord
import CE213Lab.DMA.Pace

/-!
# Containment in the programmed regions

Both masters stop on meeting their end address exactly, four bytes at a time. Lengths that are
multiples of four are met, so every access stays inside; other lengths are stepped over, and the
walk leaves the region unless the region holds every word address there is.
-/

namespace CE213Lab.DMA

open Foundation DMAFinal

namespace Transfer

variable {x : Transfer} {t : ℕ}

/-- Every accepted read and write of the run is inside the region programmed for it. -/
def Contained (x : Transfer) : Prop :=
  ∀ t, (∀ a ∈ (x.ledger t).reads, InRegion x.readStart x.length a) ∧
    ∀ w ∈ (x.ledger t).writes, InRegion x.writeStart x.length w.1

/-- Every accepted write goes to an address of the walk, not further than words have entered the
FIFO. -/
theorem address_of_mem_writes (h : x.Conformant) {w : Word × Word}
    (hw : w ∈ (x.ledger t).writes) :
    ∃ n < (x.ledger t).pushed.length, w.1 = strideAt x.writeStart 4 n := by
  have hlt : x.start < t := by
    by_contra hge
    simp [(writer_idle h (Nat.le_of_not_lt hge)).writes] at hw
  have hconserved : Conserved x.writeStart (x.state t) (x.ledger t) →
      ∃ n < (x.ledger t).pushed.length, w.1 = strideAt x.writeStart 4 n := by
    intro hc
    obtain ⟨n, hn, heq⟩ := hc.address_of_mem hw
    have hlength := hc.length_pushed
    exact ⟨n, by omega, heq⟩
  cases stage h hlt with
  | moving hm => exact hconserved hm.toConserved
  | finished hf => exact hconserved hf.toConserved
  | stalled hs => exact hconserved hs.toConserved
  | stuck hs => exact hs.region w hw

theorem address_of_mem_reads {a : Word} (ha : a ∈ (x.ledger t).reads) :
    ∃ n < (x.ledger t).reads.length, a = strideAt x.readStart 4 n := by
  rw [reads_eq] at ha
  obtain ⟨n, hn, heq⟩ := List.mem_map.mp ha
  exact ⟨n, List.mem_range.mp hn, heq.symm⟩

/-- A multiple of four is never stepped over. -/
theorem contained_of_dvd (h : x.Conformant) (hdvd : 4 ∣ x.length.toNat) : x.Contained := by
  intro t
  have hreads := reads_bound (x := x) (t := t) hdvd
  have hpushed := h.pushed_le t
  refine ⟨?_, ?_⟩
  · intro a ha
    obtain ⟨n, hn, rfl⟩ := address_of_mem_reads ha
    exact in_region_of_lt (by omega)
  · intro w hw
    obtain ⟨n, hn, heq⟩ := address_of_mem_writes h hw
    rw [heq]
    exact in_region_of_lt (by omega)

/-- A length beyond the last word offset leaves no word address outside. -/
theorem contained_of_large (h : x.Conformant) (hlarge : 2 ^ 32 - 4 < x.length.toNat) :
    x.Contained := by
  have hall : ∀ (base : Word) (n : ℕ), InRegion base x.length (strideAt base 4 n) := by
    intro base n
    rw [InRegion, toNat_strideAt_sub]
    omega
  intro t
  refine ⟨?_, ?_⟩
  · intro a ha
    obtain ⟨n, _, rfl⟩ := address_of_mem_reads ha
    exact hall _ n
  · intro w hw
    obtain ⟨n, _, heq⟩ := address_of_mem_writes h hw
    rw [heq]
    exact hall _ n

/-- Unstalled and with latency one, a reader whose length is not a multiple of four reads on past
the end of its region. -/
theorem reads_past_end (hlatency : x.FixedLatency) (hunstalled : x.WritesUnstalled)
    (hfair : x.ReadsFair) (hdvd : ¬ 4 ∣ x.length.toNat) (hsmall : x.length.toNat ≤ 2 ^ 32 - 4) :
    ¬ x.Contained := by
  intro hcontained
  have hroom : ∀ t, x.start < t → FIFO.ffAlmostfull (x.state t).fi = false :=
    fun t hlt => (paced hlatency.conformant hunstalled hlt).not_full
  obtain ⟨t, _, hreads⟩ := reads_reach (n := x.length.toNat / 4 + 2) hfair hroom
    (fun m _ heq => hdvd ⟨m, heq.symm⟩)
  -- the word after the one that straddles the end
  have hmem : strideAt x.readStart 4 (x.length.toNat / 4 + 1) ∈ (x.ledger t).reads := by
    rw [reads_eq, hreads]
    exact List.mem_map.mpr ⟨_, List.mem_range.mpr (by omega), rfl⟩
  have hinside := (hcontained t).1 _ hmem
  rw [InRegion, toNat_strideAt_sub] at hinside
  omega

/-- For a programmed length, whatever the start addresses, every run with a conformant read slave
stays inside the two regions exactly when the length is a multiple of four or larger than the
last word offset. -/
theorem contained_iff (readStart writeStart length : Word) :
    (∀ x : Transfer, x.Conformant → x.readStart = readStart → x.writeStart = writeStart →
      x.length = length → x.Contained) ↔
      4 ∣ length.toNat ∨ 2 ^ 32 - 4 < length.toNat := by
  refine ⟨?_, ?_⟩
  · intro hall
    by_contra hnot
    obtain ⟨hdvd, hsmall⟩ := not_or.mp hnot
    let x := Bench.transfer id readStart writeStart length (fun _ => false) (fun _ => false)
    have hlatency : x.FixedLatency := Bench.transfer_fixed_latency
    have hlength : x.length = length := Bench.transfer_length
    have hpast : ¬ x.Contained := reads_past_end hlatency (fun _ => rfl)
      (fun t => ⟨t, le_rfl, rfl⟩) (by rwa [hlength]) (by rw [hlength]; omega)
    exact hpast (hall x hlatency.conformant Bench.transfer_readStart Bench.transfer_writeStart
      hlength)
  · rintro (hdvd | hlarge) x hconformant _ _ rfl
    · exact contained_of_dvd hconformant hdvd
    · exact contained_of_large hconformant hlarge

/-- A transfer of six bytes reads a third word, past its region. -/
theorem six_bytes_not_contained :
    (Bench.transfer id 0x1000 0x2000 6 (fun _ => false) (fun _ => false)).Conformant ∧
      (Bench.transfer id 0x1000 0x2000 6 (fun _ => false) (fun _ => false)).length = 6 ∧
      ¬ (Bench.transfer id 0x1000 0x2000 6 (fun _ => false) (fun _ => false)).Contained := by
  refine ⟨Bench.transfer_fixed_latency.conformant, Bench.transfer_length, ?_⟩
  intro hcontained
  have hreads : ((Bench.transfer id 0x1000 0x2000 6 (fun _ => false)
      (fun _ => false)).ledger 15).reads = [0x1000, 0x1004, 0x1008] := by
    decide +kernel
  have hinside := (hcontained 15).1 0x1008 (by rw [hreads]; decide)
  rw [Bench.transfer_readStart, Bench.transfer_length] at hinside
  exact absurd hinside (by decide)

end Transfer

end CE213Lab.DMA
