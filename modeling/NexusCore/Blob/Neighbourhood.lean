import NexusCore.Blob.Safety
import NexusCore.Foundation.BreadthFirst

/-!
# A query computes a bounded neighbourhood

On an engine whose rows follow one another (`Layered`, what the generator writes) a query
without a limit returns the documents of the nodes at distance below the depth bound, node
after node in breadth-first order (`bfsPosts_neighbourhood`).

* `Tracks` relates the local variables of the query to a breadth-first frontier: the visited
  set is the set of expanded nodes, the results are their documents;
* `bfsPosts_spec`: with any limit the result is a prefix of the documents of a finished
  search, and the nodes that the query expanded are a prefix of that search;
* `slots_nodup`: rows of different nodes share no edge slot, so without a limit nothing is
  cut off.
-/

namespace NexusCore.Blob

open Foundation.Machine Foundation.Loop Foundation.BreadthFirst

variable {p : Profile} {g : GraphEngine} {root : UInt32} {maxDepth : UInt8} {limit : UInt32}

/-! ### The query as a breadth-first search -/

/-- A queue entry with its depth as a number. -/
def entry (e : UInt32 × UInt8) : UInt32 × ℕ := (e.1, e.2.toNat)

/-- `node + 1 < row_ptr.len()`. -/
def HasRow (g : GraphEngine) (u : UInt32) : Prop := u.toNat + 1 < g.rowPtr.length

instance (g : GraphEngine) : DecidablePred (HasRow g) := fun u =>
  inferInstanceAs (Decidable (u.toNat + 1 < g.rowPtr.length))

theorem slots_of_hasRow {u : UInt32} (h : HasRow g u) : slots g u
    = List.range' (rowStart g u.toNat) (rowStart g (u.toNat + 1) - rowStart g u.toNat) := if_pos h

theorem slots_of_not_hasRow {u : UInt32} (h : ¬ HasRow g u) : slots g u = [] := if_neg h

/-- The documents of expanded entries. -/
def collected (g : GraphEngine) (out : List (UInt32 × ℕ)) : List (List UInt8) :=
  out.flatMap fun e => documents g e.1

/-- The expanded entries that have a row. -/
def withRow (g : GraphEngine) (out : List (UInt32 × ℕ)) : List (UInt32 × ℕ) :=
  out.filter fun e => decide (HasRow g e.1)

theorem withRow_cons (g : GraphEngine) (e : UInt32 × ℕ) (out : List (UInt32 × ℕ)) :
    withRow g (e :: out) = if HasRow g e.1 then e :: withRow g out else withRow g out := by
  simp only [withRow, List.filter_cons, decide_eq_true_eq]

/-- What nodes without a row contribute nothing to is not changed by leaving them out. -/
theorem flatMap_withRow {β : Type} {f : UInt32 → List β} (hf : ∀ u, slots g u = [] → f u = [])
    (out : List (UInt32 × ℕ)) :
    (withRow g out).flatMap (fun e => f e.1) = out.flatMap fun e => f e.1 := by
  induction out with
  | nil => rfl
  | cons e out ih =>
      rw [withRow_cons]
      by_cases hrow : HasRow g e.1
      · rw [if_pos hrow, List.flatMap_cons, List.flatMap_cons, ih]
      · rw [if_neg hrow, List.flatMap_cons, ih, hf e.1 (slots_of_not_hasRow hrow), List.nil_append]

theorem collected_withRow (g : GraphEngine) (out : List (UInt32 × ℕ)) :
    collected g (withRow g out) = collected g out :=
  flatMap_withRow (fun u hu => by rw [documents, hu, List.filterMap_nil]) out

theorem successors_withRow (g : GraphEngine) (out : List (UInt32 × ℕ)) :
    (withRow g out).flatMap (fun e => successors g e.1) = out.flatMap fun e => successors g e.1 :=
  flatMap_withRow (fun u hu => by rw [successors, hu, List.map_nil]) out

/-- The local variables of a query, seen as a search: `out` was expanded, `popped` popped. -/
structure Tracks (g : GraphEngine) (root : UInt32) (maxDepth : UInt8) (limit : UInt32)
    (hist : List BfsState) (s : BfsState) (out popped : List (UInt32 × ℕ)) : Prop where
  frontier : Frontier (successors g) root maxDepth.toNat out popped (s.queue.map entry)
  visited : ∀ u, u ∈ s.visited ↔ u ∈ out.map Prod.fst
  results : s.results = collected g out
  below : s.results.length < limit.toNat
  expansions : (hist.filterMap (expanding g maxDepth)).map entry = withRow g out

namespace Tracks

variable {hist : List BfsState} {s : BfsState} {out popped : List (UInt32 × ℕ)}
  {node : UInt32} {depth : UInt8} {queue : List (UInt32 × UInt8)}

theorem start (hlim : 0 < limit.toNat) :
    Tracks g root maxDepth limit [] (bfsStart root) [] [] where
  frontier := Frontier.init
  visited := by simp [bfsStart]
  results := rfl
  below := hlim
  expansions := rfl

/-- The history after a turn that expands nothing. -/
theorem expansions_skip (h : Tracks g root maxDepth limit hist s out popped)
    (hq : s.queue = (node, depth) :: queue) (hskip : maxDepth ≤ depth ∨ node ∈ s.visited) :
    ((hist ++ [s]).filterMap (expanding g maxDepth)).map entry = withRow g out := by
  have hnone : expanding g maxDepth s = none := by
    simp only [expanding, hq]
    rw [if_pos (hskip.imp_right Or.inl)]
  rw [List.filterMap_append, List.filterMap_cons_none hnone, List.filterMap_nil, List.append_nil,
    h.expansions]

/-- The history after an expansion. -/
theorem expansions_expand (h : Tracks g root maxDepth limit hist s out popped)
    (hq : s.queue = (node, depth) :: queue) (hdepth : ¬ maxDepth ≤ depth)
    (hnew : node ∉ s.visited) :
    ((hist ++ [s]).filterMap (expanding g maxDepth)).map entry
      = withRow g (out ++ [entry (node, depth)]) := by
  rw [List.filterMap_append, List.map_append, h.expansions, withRow, withRow, List.filter_append]
  congr 1
  by_cases hrow : HasRow g node
  · have hsome : expanding g maxDepth s = some (node, depth) := by
      simp only [expanding, hq]
      rw [if_neg]
      rintro (hle | hmem | hlen)
      · exact hdepth hle
      · exact hnew hmem
      · exact Nat.not_lt.mpr hlen hrow
    rw [List.filterMap_cons_some hsome]
    exact ((withRow_cons g (entry (node, depth)) []).trans (if_pos hrow)).symm
  · have hnone : expanding g maxDepth s = none := by
      simp only [expanding, hq]
      rw [if_pos (Or.inr (Or.inr (Nat.not_lt.mp hrow)))]
    rw [List.filterMap_cons_none hnone]
    exact ((withRow_cons g (entry (node, depth)) []).trans (if_neg hrow)).symm

theorem skip (h : Tracks g root maxDepth limit hist s out popped)
    (hq : s.queue = (node, depth) :: queue) (hskip : maxDepth ≤ depth ∨ node ∈ s.visited) :
    Tracks g root maxDepth limit (hist ++ [s]) { s with queue := queue } out
      (popped ++ [entry (node, depth)]) where
  frontier := by
    have hfr := h.frontier
    rw [hq, List.map_cons] at hfr
    apply hfr.skip
    rcases hskip with hle | hmem
    · exact Or.inl (UInt8.le_iff_toNat_le.mp hle)
    · exact Or.inr ((h.visited node).mp hmem)
  visited := h.visited
  results := h.results
  below := h.below
  expansions := h.expansions_skip hq hskip

/-- The frontier after an expansion. -/
theorem frontier_expand (h : Tracks g root maxDepth limit hist s out popped)
    (hq : s.queue = (node, depth) :: queue) (hdepth : ¬ maxDepth ≤ depth)
    (hnew : node ∉ s.visited) :
    Frontier (successors g) root maxDepth.toNat (out ++ [entry (node, depth)])
      (popped ++ [entry (node, depth)])
      ((queue ++ (successors g node).map fun v => (v, depth + 1)).map entry) := by
  have hfr := h.frontier
  rw [hq, List.map_cons] at hfr
  have hchildren : ((successors g node).map fun v => (v, depth + 1)).map entry
      = children (successors g) (entry (node, depth)) := by
    rw [List.map_map, children]
    apply List.map_congr_left
    intro v _
    rw [Function.comp_apply, entry, toNat_depth_succ hdepth, entry]
  rw [List.map_append, hchildren]
  apply hfr.expand
  · exact Nat.not_le.mp fun hle => hdepth (UInt8.le_iff_toNat_le.mpr hle)
  · exact fun hmem => hnew ((h.visited node).mpr hmem)

theorem results_expand (h : Tracks g root maxDepth limit hist s out popped) (node : UInt32)
    (depth : UInt8) :
    s.results ++ documents g node = collected g (out ++ [entry (node, depth)]) := by
  rw [h.results, collected, collected, List.flatMap_append, List.flatMap_singleton]
  rfl

theorem expand (h : Tracks g root maxDepth limit hist s out popped)
    (hq : s.queue = (node, depth) :: queue) (hdepth : ¬ maxDepth ≤ depth)
    (hnew : node ∉ s.visited) (hlim : (s.results ++ documents g node).length < limit.toNat) :
    Tracks g root maxDepth limit (hist ++ [s])
      { visited := insert node s.visited
        queue := queue ++ (successors g node).map fun v => (v, depth + 1)
        results := s.results ++ documents g node }
      (out ++ [entry (node, depth)]) (popped ++ [entry (node, depth)]) where
  frontier := h.frontier_expand hq hdepth hnew
  visited := by
    intro u
    rw [Finset.mem_insert, List.map_append, List.mem_append, h.visited u, or_comm]
    simp [entry]
  results := h.results_expand node depth
  below := hlim
  expansions := h.expansions_expand hq hdepth hnew

end Tracks

/-- What a query leaves: a finished search whose documents it returns up to the limit, and of
which it expanded a first part. -/
def Answers (g : GraphEngine) (root : UInt32) (maxDepth : UInt8) (limit : UInt32)
    (hist : List BfsState) (docs : List (List UInt8)) : Prop :=
  ∃ out popped, Frontier (successors g) root maxDepth.toNat out popped [] ∧
    docs = (collected g out).take limit.toNat ∧
    (hist.filterMap (expanding g maxDepth)).map entry <+: withRow g out

/-- The limit is reached while a node is expanded. -/
theorem Tracks.answers_limit {hist : List BfsState} {s : BfsState} {out popped : List (UInt32 × ℕ)}
    {node : UInt32} {depth : UInt8} {queue : List (UInt32 × UInt8)}
    (h : Tracks g root maxDepth limit hist s out popped) (hq : s.queue = (node, depth) :: queue)
    (hdepth : ¬ maxDepth ≤ depth) (hnew : node ∉ s.visited)
    (hlim : ¬ (s.results ++ documents g node).length < limit.toNat) :
    Answers g root maxDepth limit (hist ++ [s])
      ((s.results ++ documents g node).take limit.toNat) := by
  obtain ⟨out', popped', hdone⟩ := (h.frontier_expand hq hdepth hnew).exists_complete
  refine ⟨_, _, hdone, ?_, ?_⟩
  · rw [h.results_expand node depth] at hlim ⊢
    have hsplit : collected g (out ++ [entry (node, depth)] ++ out')
        = collected g (out ++ [entry (node, depth)]) ++ collected g out' := List.flatMap_append
    rw [hsplit, List.take_append_of_le_length (Nat.not_lt.mp hlim)]
  · rw [h.expansions_expand hq hdepth hnew, withRow, withRow, List.filter_append _ out']
    exact List.prefix_append _ _

/-- The queue is empty. -/
theorem Tracks.answers_done {hist : List BfsState} {s : BfsState} {out popped : List (UInt32 × ℕ)}
    (h : Tracks g root maxDepth limit hist s out popped) (hq : s.queue = []) :
    Answers g root maxDepth limit (hist ++ [s]) s.results := by
  have hfr := h.frontier
  rw [hq, List.map_nil] at hfr
  refine ⟨out, popped, hfr, ?_, ?_⟩
  · rw [← h.results, List.take_of_length_le (Nat.le_of_lt h.below)]
  · have hnone : expanding g maxDepth s = none := by simp only [expanding, hq]
    rw [List.filterMap_append, List.filterMap_cons_none hnone, List.filterMap_nil,
      List.append_nil, h.expansions]

/-- **A query answers with a first part of a finished search.** -/
theorem bfsPosts_spec (hrows : RowsInBounds g) (hdocs : g.docOffsets.length = g.colIdx.length)
    (p : Profile) (root : UInt32) (maxDepth : UInt8) (maxResults : UInt32) :
    ∃ out popped, Frontier (successors g) root maxDepth.toNat out popped [] ∧
      bfsPosts p g root maxDepth maxResults
        = .ok ((collected g out).take (limitOf maxResults).toNat) ∧
      (bfsExpansions p g root maxDepth maxResults).map entry <+: withRow g out := by
  let limit := limitOf maxResults
  let I : List BfsState → BfsState → Prop := fun hist s =>
    ∃ out popped, Tracks g root maxDepth limit hist s out popped
  have hstart : I [] (bfsStart root) := ⟨[], [], Tracks.start (limitOf_pos maxResults)⟩
  have hturn : ∀ hist s, I hist s →
      (∃ s', bfsStep p g maxDepth limit s = .ok (.inl s') ∧ I (hist ++ [s]) s') ∨
        ∃ docs, bfsStep p g maxDepth limit s = .ok (.inr docs) ∧
          Answers g root maxDepth limit (hist ++ [s]) docs := by
    rintro hist s ⟨out, popped, h⟩
    cases hq : s.queue with
    | nil => exact Or.inr ⟨_, bfsStep_done hq, h.answers_done hq⟩
    | cons e queue =>
        obtain ⟨node, depth⟩ := e
        by_cases hskip : maxDepth ≤ depth ∨ node ∈ s.visited
        · exact Or.inl ⟨_, bfsStep_skip hq hskip, _, _, h.skip hq hskip⟩
        · obtain ⟨hdepth, hnew⟩ := not_or.mp hskip
          rw [bfsStep_expand hrows hdocs hq hdepth hnew h.below]
          split
          · next hlim => exact Or.inl ⟨_, rfl, _, _, h.expand hq hdepth hnew hlim⟩
          · next hlim => exact Or.inr ⟨_, rfl, h.answers_limit hq hdepth hnew hlim⟩
  obtain ⟨docs, hdone, out, popped, hfr, rfl, hexp⟩ :=
    trace_rule (Q := Answers g root maxDepth limit) hturn [] hstart
      (run_bfsPosts p g root maxDepth maxResults)
  exact ⟨out, popped, hfr, hdone, hexp⟩

/-! ### Engines as the generator writes them -/

/-- The row pointers never fall and end inside the columns; every column has a reference. -/
structure Layered (g : GraphEngine) : Prop where
  mono : ∀ u, u + 1 < g.rowPtr.length → rowStart g u ≤ rowStart g (u + 1)
  last : ∀ w, g.rowPtr.getLast? = some w → w.toNat ≤ g.colIdx.length
  docs : g.docOffsets.length = g.colIdx.length
  columns : g.colIdx.length < 2 ^ 32

namespace Layered

theorem rowStart_mono (h : Layered g) {u v : ℕ} (huv : u ≤ v) (hv : v < g.rowPtr.length) :
    rowStart g u ≤ rowStart g v := by
  induction v, huv using Nat.le_induction with
  | base => exact Nat.le_refl _
  | succ v _ ih => exact Nat.le_trans (ih (by omega)) (h.mono v hv)

theorem rowStart_le (h : Layered g) {u : ℕ} (hu : u < g.rowPtr.length) :
    rowStart g u ≤ g.colIdx.length := by
  have hlast : g.rowPtr.getLast? = some (g.rowPtr.getD (g.rowPtr.length - 1) 0) := by
    rw [List.getLast?_eq_getElem?, List.getElem?_eq_getElem (by omega),
      List.getD_eq_getElem _ _ (by omega)]
  exact Nat.le_trans (h.rowStart_mono (Nat.le_sub_one_of_lt hu) (by omega)) (h.last _ hlast)

theorem rowsInBounds (h : Layered g) : RowsInBounds g := fun _ hu => Or.inr (h.rowStart_le hu)

/-- A slot belongs to the row between whose pointers it lies. -/
theorem mem_slots {u : UInt32} {i : ℕ} (hi : i ∈ slots g u) :
    HasRow g u ∧ rowStart g u.toNat ≤ i ∧ i < rowStart g (u.toNat + 1) := by
  by_cases hrow : HasRow g u
  · rw [slots_of_hasRow hrow, List.mem_range'_1] at hi
    exact ⟨hrow, hi.1, by omega⟩
  · rw [slots_of_not_hasRow hrow] at hi
    cases hi

/-- The slot of a later node lies behind the rows of the earlier ones. -/
theorem slots_lt (h : Layered g) {u v : UInt32} (huv : u.toNat < v.toNat) {i j : ℕ}
    (hi : i ∈ slots g u) (hj : j ∈ slots g v) : i < j := by
  obtain ⟨-, -, hi'⟩ := mem_slots hi
  obtain ⟨hrow, hj', -⟩ := mem_slots hj
  have hrow' : v.toNat + 1 < g.rowPtr.length := hrow
  have hle := h.rowStart_mono (Nat.succ_le_of_lt huv) (by omega)
  exact Nat.lt_of_lt_of_le hi' (Nat.le_trans hle hj')

/-- **Rows of different nodes share no edge slot.** -/
theorem slots_nodup (h : Layered g) {out : List (UInt32 × ℕ)} (hout : (out.map Prod.fst).Nodup) :
    (out.flatMap fun e => slots g e.1).Nodup := by
  rw [List.nodup_flatMap]
  constructor
  · intro e _
    unfold slots
    split
    · exact List.nodup_range'
    · exact List.nodup_nil
  · apply (List.pairwise_map.mp hout).imp
    intro a b hab i hi hj
    rcases Nat.lt_or_gt_of_ne (fun heq => hab (UInt32.toNat_inj.mp heq)) with hlt | hlt
    · exact Nat.lt_irrefl i (h.slots_lt hlt hi hj)
    · exact Nat.lt_irrefl i (h.slots_lt hlt hj hi)

/-- No search collects more documents than there are columns. -/
theorem collected_length_le (h : Layered g) {out : List (UInt32 × ℕ)}
    (hout : (out.map Prod.fst).Nodup) : (collected g out).length ≤ g.colIdx.length := by
  have hdocs : (collected g out).length ≤ (out.flatMap fun e => slots g e.1).length := by
    rw [collected, List.length_flatMap, List.length_flatMap]
    apply List.sum_le_sum
    intro e _
    exact List.length_filterMap_le _ _
  have hsub : (out.flatMap fun e => slots g e.1) ⊆ List.range g.colIdx.length := by
    intro i hi
    obtain ⟨e, -, hi⟩ := List.mem_flatMap.mp hi
    obtain ⟨hrow, -, hlt⟩ := mem_slots hi
    exact List.mem_range.mpr (Nat.lt_of_lt_of_le hlt (h.rowStart_le hrow))
  have hle := ((h.slots_nodup hout).subperm hsub).length_le
  rw [List.length_range] at hle
  exact Nat.le_trans hdocs hle

end Layered

/-- Two nodes on a cycle and an edge out of the graph. -/
theorem layered_cycle : Layered ⟨[0, 2, 3], [1, 7, 0], [2, 2, 1], [123, 125]⟩ := by
  refine ⟨?_, ?_, rfl, by decide⟩
  · intro u hu
    have hu' : u < 2 := Nat.lt_of_succ_lt_succ hu
    interval_cases u <;> decide
  · intro w hw
    cases hw
    exact Nat.le_refl 3

/-- **A query computes the bounded neighbourhood of its root.**  `order` lists the nodes with
a row whose distance from the root is below the depth bound, each once and with its
distance; distances do not fall along it, and nodes appear in the order in which they were
first discovered.  The query without a limit returns their documents in that order, no edge
slot is read twice, and the nodes it expanded, at the depths it expanded them, are a first
part of `order`. -/
theorem bfsPosts_neighbourhood (hg : Layered g) (p : Profile) (root : UInt32) (maxDepth : UInt8) :
    ∃ order : List (UInt32 × ℕ),
      bfsPosts p g root maxDepth 0 = .ok (order.flatMap fun e => documents g e.1) ∧
      (order.map Prod.fst).Nodup ∧
      (∀ u d, (u, d) ∈ order ↔
        HasRow g u ∧ d < maxDepth.toNat ∧ IsDist (successors g) root u d) ∧
      (order.Pairwise fun a b => a.2 ≤ b.2 ∧
        (root :: order.flatMap fun e => successors g e.1).idxOf a.1
          < (root :: order.flatMap fun e => successors g e.1).idxOf b.1) ∧
      (order.flatMap fun e => slots g e.1).Nodup ∧
      (bfsExpansions p g root maxDepth 0).map entry <+: order := by
  obtain ⟨out, popped, hfr, hdone, hexp⟩ := bfsPosts_spec hg.rowsInBounds hg.docs p root maxDepth 0
  have hsub : (withRow g out).Sublist out := List.filter_sublist
  have hnodup : ((withRow g out).map Prod.fst).Nodup := hfr.nodup.sublist (hsub.map Prod.fst)
  refine ⟨withRow g out, ?_, hnodup, ?_, ?_, hg.slots_nodup hnodup, hexp⟩
  · have hfits : (collected g out).length ≤ (limitOf 0).toNat :=
      Nat.le_trans (hg.collected_length_le hfr.nodup) (Nat.le_sub_one_of_lt hg.columns)
    rw [hdone, List.take_of_length_le hfits, ← collected_withRow]
    rfl
  · intro u d
    rw [withRow, List.mem_filter, decide_eq_true_eq, hfr.mem_iff]
    exact and_comm
  · rw [successors_withRow]
    exact hfr.discovery.sublist hsub

theorem bfsPosts_neighbourhood_cycle :
    ∃ order : List (UInt32 × ℕ),
      bfsPosts .dev ⟨[0, 2, 3], [1, 7, 0], [2, 2, 1], [123, 125]⟩ 0 3 0
        = .ok (order.flatMap fun e =>
            documents ⟨[0, 2, 3], [1, 7, 0], [2, 2, 1], [123, 125]⟩ e.1) ∧
      (order.map Prod.fst).Nodup := by
  obtain ⟨order, hdone, hnodup, -⟩ := bfsPosts_neighbourhood layered_cycle .dev 0 3
  exact ⟨order, hdone, hnodup⟩

end NexusCore.Blob
