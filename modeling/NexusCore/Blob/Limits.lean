import NexusCore.Blob.Neighbourhood

/-!
# Limits cut an answer short and do nothing else

Two queries from one root, with different limits or depth bounds, are two searches of the
same graph.  The search to the smaller depth is the beginning of the other one, although the
deeper one marks and queues nodes that the shallower one passes over; a limit on the number
of results takes the first documents of the search without a limit.
-/

namespace NexusCore.Blob

open Foundation.Machine Foundation.BreadthFirst

variable {g : GraphEngine}

/-- The answer without a limit is all of a finished search. -/
theorem bfsPosts_unlimited (hg : Layered g) (p : Profile) (root : UInt32) (maxDepth : UInt8) :
    ∃ out popped, Frontier (successors g) root maxDepth.toNat out popped [] ∧
      bfsPosts p g root maxDepth 0 = .ok (collected g out) := by
  obtain ⟨out, popped, hfr, hdone, -⟩ := bfsPosts_spec hg.rowsInBounds hg.docs p root maxDepth 0
  have hfits : (collected g out).length ≤ (limitOf 0).toNat :=
    Nat.le_trans (hg.collected_length_le hfr.nodup) (Nat.le_sub_one_of_lt hg.columns)
  rw [List.take_of_length_le hfits] at hdone
  exact ⟨out, popped, hfr, hdone⟩

/-- A deeper search collects the documents of the shallower one first. -/
theorem collected_isPrefix {root : UInt32} {d d' : ℕ} {out popped out' popped' : List (UInt32 × ℕ)}
    (hd : d ≤ d') (h : Frontier (successors g) root d out popped [])
    (h' : Frontier (successors g) root d' out' popped' []) :
    collected g out <+: collected g out' := by
  obtain ⟨rest, rfl⟩ := h.isPrefix_of_le hd h'
  exact ⟨collected g rest, List.flatMap_append.symm⟩

/-- **Limits only truncate an answer.**  `docs` and `docs'` are the answers to depths `d` and
`d'` without a limit: nothing is left out of a finished search.  The one is a first part of
the other, and with a limit `k` the query answers with the first `k` of `docs`. -/
theorem bfsPosts_truncates (hg : Layered g) (p : Profile) (root : UInt32) {d d' : UInt8}
    (hd : d ≤ d') :
    ∃ docs docs',
      bfsPosts p g root d 0 = .ok docs ∧ bfsPosts p g root d' 0 = .ok docs' ∧
      docs <+: docs' ∧
      (∀ k : UInt32, 1 ≤ k → bfsPosts p g root d k = .ok (docs.take k.toNat)) ∧
      ∃ out popped, Frontier (successors g) root d.toNat out popped [] ∧
        docs = collected g out := by
  obtain ⟨out, popped, hfr, hdone⟩ := bfsPosts_unlimited hg p root d
  obtain ⟨out', popped', hfr', hdone'⟩ := bfsPosts_unlimited hg p root d'
  refine ⟨_, _, hdone, hdone', ?_, ?_, out, popped, hfr, rfl⟩
  · exact collected_isPrefix (UInt8.le_iff_toNat_le.mp hd) hfr hfr'
  · intro k hk
    obtain ⟨outk, poppedk, hfrk, hdonek, -⟩ := bfsPosts_spec hg.rowsInBounds hg.docs p root d k
    have hlimit : limitOf k = k := by
      rw [limitOf, if_neg]
      rintro rfl
      exact absurd hk (by decide)
    rw [hdonek, hlimit, hfrk.out_unique hfr]

theorem bfsPosts_truncates_cycle :
    ∃ docs docs',
      bfsPosts .dev ⟨[0, 2, 3], [1, 7, 0], [2, 2, 1], [123, 125]⟩ 0 1 0 = .ok docs ∧
      bfsPosts .dev ⟨[0, 2, 3], [1, 7, 0], [2, 2, 1], [123, 125]⟩ 0 3 0 = .ok docs' ∧
      docs <+: docs' := by
  obtain ⟨docs, docs', hdone, hdone', hdocs, -⟩ :=
    bfsPosts_truncates layered_cycle .dev 0 (show (1 : UInt8) ≤ 3 by decide)
  exact ⟨docs, docs', hdone, hdone', hdocs⟩

end NexusCore.Blob
