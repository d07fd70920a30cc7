import NexusCore.Blob.Neighbourhood
import NexusCore.Blob.Waste

/-!
# Queries on generated graphs

The script that generates a graph, the reader and the query engine agree.  In the engine that
comes out of the script's blob, the row of a node has the slots that the script filled with its
edges (`slots_genEngine`), so its successors are the targets of its edges
(`successors_genEngine`) and its documents are their bodies (`documents_genEngine`).
`generated_queries` says what a query answers in terms of the script's edge map alone.
-/

namespace NexusCore.Blob

open Foundation.Machine Foundation.BreadthFirst

variable {nNodes : ℕ} {edges : ℕ → List ℕ} {body : ℕ → List UInt8}

/-! ### What the script means -/

/-- The number of edge slots before those of a node. -/
def firstSlot (edges : ℕ → List ℕ) (u : ℕ) : ℕ := ∑ i ∈ Finset.range u, (edges i).length

/-- The slots of a node's edges. -/
def edgeSlots (nNodes : ℕ) (edges : ℕ → List ℕ) (u : UInt32) : List ℕ :=
  if u.toNat < nNodes then List.range' (firstSlot edges u.toNat) (edges u.toNat).length else []

/-- The targets of a node's edges. -/
def targetsOf (nNodes : ℕ) (edges : ℕ → List ℕ) (u : UInt32) : List UInt32 :=
  if u.toNat < nNodes then (edges u.toNat).map UInt32.ofNat else []

/-- The bodies of a node's edges. -/
def bodiesOf (nNodes : ℕ) (edges : ℕ → List ℕ) (body : ℕ → List UInt8) (u : UInt32) :
    List (List UInt8) := (edgeSlots nNodes edges u).map body

theorem firstSlot_mono {u v : ℕ} (h : u ≤ v) : firstSlot edges u ≤ firstSlot edges v :=
  Finset.sum_le_sum_of_subset (Finset.range_mono h)

theorem firstSlot_succ (u : ℕ) : firstSlot edges (u + 1) = firstSlot edges u + (edges u).length :=
  Finset.sum_range_succ _ _

/-! ### The rows of the engine -/

theorem genEngine_rowPtr_length :
    (genEngine nNodes edges body).rowPtr.length = nNodes + 1 := by
  rw [genEngine, List.length_map, genRows_spec, List.length_map, List.length_range]

theorem genEngine_colIdx :
    (genEngine nNodes edges body).colIdx
      = ((List.range nNodes).flatMap edges).map UInt32.ofNat := by
  rw [genEngine, genRows_spec]

theorem genEngine_colIdx_length :
    (genEngine nNodes edges body).colIdx.length = slotCount nNodes edges := by
  rw [genEngine_colIdx, List.length_map, flatMap_range_length, slotCount]

theorem Packable.rowStart_genEngine (h : Packable nNodes edges body) {u : ℕ} (hu : u ≤ nNodes) :
    rowStart (genEngine nNodes edges body) u = firstSlot edges u := by
  have hlen : u < ((List.range (nNodes + 1)).map fun k =>
      ∑ i ∈ Finset.range k, (edges i).length).length := by
    rw [List.length_map, List.length_range]
    exact Nat.lt_succ_of_le hu
  rw [rowStart, genEngine, genRows_spec, List.getD_eq_getElem _ _ (by rwa [List.length_map]),
    List.getElem_map, List.getElem_map, List.getElem_range]
  exact UInt32.toNat_ofNat_of_lt' (h.degreeSum_lt hu)

/-- **A generated engine is layered**: its rows follow one another and end with the columns. -/
theorem Packable.layered (h : Packable nNodes edges body) :
    Layered (genEngine nNodes edges body) where
  mono := by
    intro u hu
    rw [genEngine_rowPtr_length] at hu
    rw [h.rowStart_genEngine (by omega), h.rowStart_genEngine (by omega)]
    exact firstSlot_mono (Nat.le_succ u)
  last := by
    intro w hw
    have hget : w = (genEngine nNodes edges body).rowPtr.getD nNodes 0 := by
      rw [List.getLast?_eq_getElem?, genEngine_rowPtr_length, Nat.add_sub_cancel] at hw
      rw [List.getD_eq_getElem?_getD, hw, Option.getD_some]
    have hrow := h.rowStart_genEngine (Nat.le_refl nNodes)
    rw [rowStart, ← hget] at hrow
    rw [hrow, genEngine_colIdx_length]
    exact Nat.le_refl _
  docs := h.shape.docs_eq
  columns := by
    rw [genEngine_colIdx_length]
    exact h.slots

theorem hasRow_genEngine {u : UInt32} :
    HasRow (genEngine nNodes edges body) u ↔ u.toNat < nNodes := by
  rw [HasRow, genEngine_rowPtr_length, Nat.add_lt_add_iff_right]

theorem slots_genEngine (h : Packable nNodes edges body) (u : UInt32) :
    slots (genEngine nNodes edges body) u = edgeSlots nNodes edges u := by
  unfold edgeSlots
  by_cases hu : u.toNat < nNodes
  · rw [slots_of_hasRow (hasRow_genEngine.mpr hu), if_pos hu, h.rowStart_genEngine (by omega),
      h.rowStart_genEngine (by omega), firstSlot_succ, Nat.add_sub_cancel_left]
  · rw [slots_of_not_hasRow fun hrow => hu (hasRow_genEngine.mp hrow), if_neg hu]

theorem edgeSlots_lt {u : UInt32} {i : ℕ}
    (hi : i ∈ edgeSlots nNodes edges u) : i < slotCount nNodes edges := by
  unfold edgeSlots at hi
  by_cases hu : u.toNat < nNodes
  · rw [if_pos hu, List.mem_range'_1, ← firstSlot_succ] at hi
    exact Nat.lt_of_lt_of_le hi.2 (firstSlot_mono hu)
  · rw [if_neg hu] at hi
    cases hi

/-! ### Successors and documents -/

theorem map_getD_range' {α : Type} (l : List α) (d : α) (s n : ℕ) (h : s + n ≤ l.length) :
    (List.range' s n).map (fun i => l.getD i d) = (l.drop s).take n := by
  induction n generalizing s with
  | zero => rfl
  | succ n ih =>
      have hs : s < l.length := by omega
      rw [List.range'_succ, List.map_cons, ih (s + 1) (by omega), List.getD_eq_getElem _ _ hs,
        List.drop_eq_getElem_cons hs, List.take_succ_cons]

/-- The entries of one list among those of all of them, one list after the other. -/
theorem drop_take_flatMap_range {α : Type} (f : ℕ → List α) {u k : ℕ} (hu : u < k) :
    (((List.range k).flatMap f).drop (∑ i ∈ Finset.range u, (f i).length)).take (f u).length
      = f u := by
  have hsplit : List.range k = List.range u ++ u :: List.range' (u + 1) (k - (u + 1)) := by
    have hk : k = u + (k - u) := by omega
    have hrest : k - u = k - (u + 1) + 1 := by omega
    conv_lhs => rw [List.range_eq_range', hk, ← List.range'_append_1, hrest, List.range'_succ]
    rw [List.range_eq_range', Nat.zero_add]
  rw [hsplit, List.flatMap_append, List.flatMap_cons, ← flatMap_range_length f u, List.drop_left,
    List.take_left]

theorem successors_genEngine (h : Packable nNodes edges body) (u : UInt32) :
    successors (genEngine nNodes edges body) u = targetsOf nNodes edges u := by
  rw [successors, slots_genEngine h, edgeSlots, targetsOf]
  by_cases hu : u.toNat < nNodes
  · have hfits : firstSlot edges u.toNat + (edges u.toNat).length
        ≤ (genEngine nNodes edges body).colIdx.length := by
      rw [← firstSlot_succ, genEngine_colIdx_length]
      exact firstSlot_mono hu
    rw [if_pos hu, if_pos hu, map_getD_range' _ _ _ _ hfits, genEngine_colIdx, ← List.map_drop,
      ← List.map_take]
    congr 1
    exact drop_take_flatMap_range edges hu
  · rw [if_neg hu, if_neg hu, List.map_nil]

/-- The document of a slot is the body that the script wrote for it. -/
theorem document_genEngine (h : Packable nNodes edges body) {i : ℕ}
    (hi : i < slotCount nNodes edges) : document (genEngine nNodes edges body) i
      = some (body i) := by
  obtain ⟨hoff, hend⟩ := h.docRange_eq (List.mem_range.mpr hi)
  have hpacked : (genEngine nNodes edges body).docOffsets.getD i 0 = genPacked body i := by
    rw [genEngine_docOffsets, List.getD_eq_getElem _ _ (by simpa using hi), List.getElem_map,
      List.getElem_range]
  have hlen : docLen (genPacked body i) = (body i).length := by
    rw [hoff, bodyStart, bodyStart, Finset.sum_range_succ] at hend
    exact Nat.add_left_cancel hend
  unfold document
  rw [hpacked, if_pos (by rw [hend, genEngine_arena_length]; exact bodyStart_mono hi), hoff, hlen,
    genEngine, genDocs_spec]
  exact congrArg some (drop_take_flatMap_range body hi)

theorem documents_genEngine (h : Packable nNodes edges body) (u : UInt32) :
    documents (genEngine nNodes edges body) u = bodiesOf nNodes edges body u := by
  rw [documents, slots_genEngine h, bodiesOf, ← List.filterMap_eq_map]
  exact List.filterMap_congr fun i hi => document_genEngine h (edgeSlots_lt hi)

/-! ### Queries -/

/-- **The script, the reader and the query engine agree.**  The blob of a graph within the limits
of the format is accepted, and every query on it returns.  Its answer has the bodies of the edges
of the nodes nearer than the depth bound, node by node, cut at the limit: each node once, in the
order of their distances from the root along the edges that the script was given. -/
theorem generated_queries (h : Packable nNodes edges body) :
    ∃ blob g, gen nNodes edges body = some blob ∧ fromBlob blob = .ok (.ok g) ∧
      ∀ (p : Profile) (root : UInt32) (maxDepth : UInt8) (maxResults : UInt32),
        ∃ order : List (UInt32 × ℕ),
          bfsPosts p g root maxDepth maxResults
            = .ok ((order.flatMap fun e => bodiesOf nNodes edges body e.1).take
                (limitOf maxResults).toNat) ∧
          (order.map Prod.fst).Nodup ∧ (order.Pairwise fun a b => a.2 ≤ b.2) ∧
          ∀ u d, (u, d) ∈ order ↔
            d < maxDepth.toNat ∧ IsDist (targetsOf nNodes edges) root u d := by
  refine ⟨_, _, h.gen_eq_toBlob, h.shape.fromBlob_toBlob, ?_⟩
  intro p root maxDepth maxResults
  have hsucc : successors (genEngine nNodes edges body) = targetsOf nNodes edges :=
    funext (successors_genEngine h)
  have hdocs : documents (genEngine nNodes edges body) = bodiesOf nNodes edges body :=
    funext (documents_genEngine h)
  obtain ⟨out, popped, hfr, hdone, -⟩ :=
    bfsPosts_spec h.layered.rowsInBounds h.layered.docs p root maxDepth maxResults
  rw [hsucc] at hfr
  refine ⟨out, ?_, hfr.nodup, hfr.discovery.imp fun hab => hab.1, ?_⟩
  · rw [hdone, collected, hdocs]
  · intro u d
    exact hfr.mem_iff

/-- Three nodes in a cycle, with an edge of their own each. -/
theorem generated_queries_cycle :
    ∃ blob g, gen 3 (fun i => [(i + 1) % 3]) (fun i => [UInt8.ofNat i]) = some blob ∧
      fromBlob blob = .ok (.ok g) ∧ ∃ docs, bfsPosts .dev g 0 2 0 = .ok docs := by
  have hpack : Packable 3 (fun i => [(i + 1) % 3]) (fun i => [UInt8.ofNat i]) :=
    ⟨by decide, by decide, by decide, by decide, by decide⟩
  obtain ⟨blob, g, hgen, hg, hquery⟩ := generated_queries hpack
  obtain ⟨order, hdone, -⟩ := hquery .dev 0 2 0
  exact ⟨blob, g, hgen, hg, _, hdone⟩

end NexusCore.Blob
