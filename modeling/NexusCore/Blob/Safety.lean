import NexusCore.Blob.Traversal

/-!
# When a query is safe

`slots`, `successors` and `documents` say what a node's row holds.  While every row ends
inside the columns (`RowsInBounds`), a turn of the query loop is one of three things
(`bfsStep_done`, `bfsStep_skip`, `bfsStep_expand`), and none of them faults.

`from_blob` checks lengths only, so an accepted blob may have a row that runs past the
columns; the query that starts there reads outside its bounds.  `accepted_blob_safe_iff`
says that this is the only way in which an accepted blob is unsafe to query.
-/

namespace NexusCore.Blob

open Foundation.Machine Foundation.Loop

variable {p : Profile} {g : GraphEngine} {maxDepth : UInt8} {limit : UInt32}

/-! ### Rows -/

/-- `row_ptr[u]`. -/
def rowStart (g : GraphEngine) (u : ℕ) : ℕ := (g.rowPtr.getD u 0).toNat

/-- The edge slots of a node, in order; a node without a row has none. -/
def slots (g : GraphEngine) (u : UInt32) : List ℕ :=
  if u.toNat + 1 < g.rowPtr.length then
    List.range' (rowStart g u.toNat) (rowStart g (u.toNat + 1) - rowStart g u.toNat)
  else []

/-- The document of an edge slot, when it lies in the arena. -/
def document (g : GraphEngine) (i : ℕ) : Option (List UInt8) :=
  let packed := g.docOffsets.getD i 0
  if docOffset packed + docLen packed ≤ g.arena.length then
    some ((g.arena.drop (docOffset packed)).take (docLen packed))
  else none

/-- The targets of a node's edges. -/
def successors (g : GraphEngine) (u : UInt32) : List UInt32 :=
  (slots g u).map fun i => g.colIdx.getD i 0

/-- The in-arena documents of a node's edge slots. -/
def documents (g : GraphEngine) (u : UInt32) : List (List UInt8) :=
  (slots g u).filterMap (document g)

/-- Every row is empty or ends inside the columns. -/
def RowsInBounds (g : GraphEngine) : Prop :=
  ∀ u, u + 1 < g.rowPtr.length →
    rowStart g (u + 1) ≤ rowStart g u ∨ rowStart g (u + 1) ≤ g.colIdx.length

theorem index_rowPtr {u : ℕ} (hu : u < g.rowPtr.length) :
    ∃ w, index g.rowPtr u = .ok w ∧ w.toNat = rowStart g u :=
  ⟨_, index_of_lt hu, by rw [rowStart, List.getD_eq_getElem _ _ hu]⟩

theorem pushDoc_eq (g : GraphEngine) {i : ℕ} (results : List (List UInt8)) :
    pushDoc g (g.docOffsets.getD i 0) results = .ok (results ++ (document g i).toList) := by
  by_cases hin : docOffset (g.docOffsets.getD i 0) + docLen (g.docOffsets.getD i 0)
      ≤ g.arena.length
  · simp only [pushDoc, document, if_pos hin, slice_of_le (Nat.le_add_right _ _) hin, ok_bind,
      Nat.add_sub_cancel_left, Option.toList_some]
  · simp only [pushDoc, document, if_neg hin, Option.toList_none, List.append_nil]

/-! ### One row -/

/-- One slot inside the columns. -/
theorem scanRow_succ {depth : UInt8} {k i : ℕ} {s : BfsState} (hi : i < g.colIdx.length)
    (hdocs : g.docOffsets.length = g.colIdx.length) (hdepth : depth.toNat + 1 < 2 ^ 8) :
    scanRow p g limit depth (k + 1) i s
      = if limit ≤ UInt32.ofNat (s.results ++ (document g i).toList).length then
          .ok (.inr (s.results ++ (document g i).toList))
        else scanRow p g limit depth k (i + 1)
          { s with
            queue := s.queue ++ [(g.colIdx.getD i 0, depth + 1)]
            results := s.results ++ (document g i).toList } := by
  have hcol : index g.colIdx i = .ok (g.colIdx.getD i 0) := by
    rw [index_of_lt hi, List.getD_eq_getElem _ _ hi]
  have hi' : i < g.docOffsets.length := by rwa [hdocs]
  have hdoc : index g.docOffsets i = .ok (g.docOffsets.getD i 0) := by
    rw [index_of_lt hi', List.getD_eq_getElem _ _ hi']
  have hadd : p.add8 depth 1 = .ok (depth + 1) := p.add8_of_lt hdepth
  rw [scanRow, hcol, ok_bind, hdoc, ok_bind, pushDoc_eq, ok_bind]
  simp only [hadd, ok_bind]

/-- A slot gives at most one document. -/
theorem document_length_le (g : GraphEngine) (i : ℕ) : (document g i).toList.length ≤ 1 := by
  cases document g i with
  | none => exact Nat.zero_le 1
  | some d => exact Nat.le_refl 1

/-- The limit test, on a result list that has not reached the limit before the slot. -/
theorem limit_le_iff {results : List (List UInt8)} {i : ℕ} (h : results.length < limit.toNat) :
    limit ≤ UInt32.ofNat (results ++ (document g i).toList).length
      ↔ (results ++ (document g i).toList).length = limit.toNat := by
  have hlim := limit.toNat_lt
  have hdoc := document_length_le g i
  rw [List.length_append, UInt32.le_iff_toNat_le, UInt32.toNat_ofNat',
    Nat.mod_eq_of_lt (by omega)]
  omega

/-- **A row inside the columns**: its documents are collected and its targets queued, unless
the limit is reached on the way. -/
theorem scanRow_spec {depth : UInt8} (hdocs : g.docOffsets.length = g.colIdx.length)
    (hdepth : depth.toNat + 1 < 2 ^ 8) {k i : ℕ} {s : BfsState}
    (hin : k = 0 ∨ i + k ≤ g.colIdx.length) (hlim : s.results.length < limit.toNat) :
    scanRow p g limit depth k i s
      = if (s.results ++ (List.range' i k).filterMap (document g)).length < limit.toNat then
          .ok (.inl { s with
            queue := s.queue ++ (List.range' i k).map fun j => (g.colIdx.getD j 0, depth + 1)
            results := s.results ++ (List.range' i k).filterMap (document g) })
        else .ok (.inr
          ((s.results ++ (List.range' i k).filterMap (document g)).take limit.toNat)) := by
  induction k generalizing i s with
  | zero =>
      simp only [List.range'_zero, List.filterMap_nil, List.map_nil, List.append_nil, if_pos hlim]
      rfl
  | succ k ih =>
      have hi : i < g.colIdx.length := by omega
      have hdocsCons : (List.range' i (k + 1)).filterMap (document g)
          = (document g i).toList ++ (List.range' (i + 1) k).filterMap (document g) := by
        rw [List.range'_succ]
        cases hdoc : document g i with
        | none => rw [List.filterMap_cons_none hdoc, Option.toList_none, List.nil_append]
        | some d => rw [List.filterMap_cons_some hdoc, Option.toList_some, List.singleton_append]
      rw [scanRow_succ hi hdocs hdepth, hdocsCons, ← List.append_assoc]
      by_cases hreach : limit ≤ UInt32.ofNat (s.results ++ (document g i).toList).length
      · have hlen := (limit_le_iff hlim).mp hreach
        rw [if_pos hreach, if_neg, List.take_append_of_le_length (Nat.le_of_eq hlen.symm),
          List.take_of_length_le (Nat.le_of_eq hlen)]
        rw [List.length_append, hlen]
        omega
      · have hne := mt (limit_le_iff hlim).mpr hreach
        have hdoc := document_length_le g i
        have hlt : (s.results ++ (document g i).toList).length < limit.toNat := by
          rw [List.length_append] at hne ⊢
          omega
        rw [if_neg hreach, ih (by omega) hlt]
        simp only [List.range'_succ, List.map_cons, List.append_assoc, List.singleton_append]

/-- **A row that runs past the columns** faults, when no limit stops it before. -/
theorem scanRow_overrun {depth : UInt8} (hdocs : g.docOffsets.length = g.colIdx.length)
    (hdepth : depth.toNat + 1 < 2 ^ 8) {k i : ℕ} {s : BfsState} (hk : 0 < k)
    (hout : g.colIdx.length < i + k)
    (hlim : s.results.length + (g.colIdx.length - i) < limit.toNat) :
    scanRow p g limit depth k i s = .error .bounds := by
  induction k generalizing i s with
  | zero => omega
  | succ k ih =>
      rcases Nat.lt_or_ge i g.colIdx.length with hi | hi
      · have hdoc := document_length_le g i
        have hlen : (s.results ++ (document g i).toList).length + (g.colIdx.length - (i + 1))
            < limit.toNat := by
          rw [List.length_append]
          omega
        rw [scanRow_succ hi hdocs hdepth, if_neg]
        · exact ih (by omega) (by omega) hlen
        · rw [limit_le_iff (by omega)]
          omega
      · rw [scanRow, index_of_ge hi]
        rfl

/-! ### One turn -/

theorem bfsStep_done {s : BfsState} (hq : s.queue = []) :
    bfsStep p g maxDepth limit s = .ok (.inr s.results) := by
  simp only [bfsStep, hq]

theorem bfsStep_skip {s : BfsState} {node : UInt32} {depth : UInt8} {queue : List (UInt32 × UInt8)}
    (hq : s.queue = (node, depth) :: queue) (hskip : maxDepth ≤ depth ∨ node ∈ s.visited) :
    bfsStep p g maxDepth limit s = .ok (.inl { s with queue := queue }) := by
  simp only [bfsStep, hq, if_pos hskip]

/-- A depth below the bound can be counted up. -/
theorem depth_succ_lt {depth : UInt8} (h : ¬ maxDepth ≤ depth) : depth.toNat + 1 < 2 ^ 8 := by
  have hlt := UInt8.lt_iff_toNat_lt.mp (UInt8.not_le.mp h)
  have hmax := maxDepth.toNat_lt
  omega

theorem toNat_depth_succ {depth : UInt8} (h : ¬ maxDepth ≤ depth) :
    (depth + 1).toNat = depth.toNat + 1 := by
  rw [UInt8.toNat_add]
  exact Nat.mod_eq_of_lt (depth_succ_lt h)

/-- **An expansion**, of a node with or without a row. -/
theorem bfsStep_expand (hrows : RowsInBounds g) (hdocs : g.docOffsets.length = g.colIdx.length)
    {s : BfsState} {node : UInt32} {depth : UInt8} {queue : List (UInt32 × UInt8)}
    (hq : s.queue = (node, depth) :: queue) (hdepth : ¬ maxDepth ≤ depth)
    (hnew : node ∉ s.visited) (hlim : s.results.length < limit.toNat) :
    bfsStep p g maxDepth limit s
      = if (s.results ++ documents g node).length < limit.toNat then
          .ok (.inl
            { visited := insert node s.visited
              queue := queue ++ (successors g node).map fun v => (v, depth + 1)
              results := s.results ++ documents g node })
        else .ok (.inr ((s.results ++ documents g node).take limit.toNat)) := by
  have hexp : ¬ (maxDepth ≤ depth ∨ node ∈ s.visited) := not_or.mpr ⟨hdepth, hnew⟩
  simp only [bfsStep, hq, if_neg hexp]
  by_cases hrow : g.rowPtr.length ≤ node.toNat + 1
  · have hslots : slots g node = [] := if_neg (Nat.not_lt.mpr hrow)
    simp only [if_pos hrow, documents, successors, hslots, List.filterMap_nil, List.map_nil,
      List.append_nil, if_pos hlim]
  · have hlt := Nat.not_le.mp hrow
    obtain ⟨start, hstart, hstart'⟩ := index_rowPtr (show node.toNat < g.rowPtr.length by omega)
    obtain ⟨stop, hstop, hstop'⟩ := index_rowPtr hlt
    have hslots : slots g node = List.range' start.toNat (stop.toNat - start.toNat) := by
      rw [hstart', hstop']
      exact if_pos hlt
    have hin : stop.toNat - start.toNat = 0 ∨
        start.toNat + (stop.toNat - start.toNat) ≤ g.colIdx.length := by
      rw [hstart', hstop']
      rcases hrows node.toNat hlt with h | h
      · exact Or.inl (Nat.sub_eq_zero_of_le h)
      · omega
    have hscan := scanRow_spec (p := p) (s := ⟨insert node s.visited, queue, s.results⟩) hdocs
      (depth_succ_lt hdepth) hin hlim
    rw [if_neg hrow, hstart, ok_bind, hstop, ok_bind, hscan]
    simp only [documents, successors, hslots, List.map_map]
    rfl

theorem limitOf_pos (maxResults : UInt32) : 0 < (limitOf maxResults).toNat := by
  unfold limitOf
  split
  · decide
  · next hne =>
      apply Nat.pos_of_ne_zero
      intro h0
      exact hne (UInt32.toNat_inj.mp h0)

/-- A query whose rows stay inside the columns returns. -/
theorem returns_bfsPosts (hrows : RowsInBounds g) (hdocs : g.docOffsets.length = g.colIdx.length)
    (p : Profile) (root : UInt32) (maxDepth : UInt8) (maxResults : UInt32) :
    Returns (bfsPosts p g root maxDepth maxResults) := by
  -- the only fact a turn needs of the turns before it is that the limit was not reached
  let I : List BfsState → BfsState → Prop := fun _ s =>
    s.results.length < (limitOf maxResults).toNat
  have hstart : I [] (bfsStart root) := limitOf_pos maxResults
  have hturn : ∀ hist s, I hist s →
      (∃ s', bfsStep p g maxDepth (limitOf maxResults) s = .ok (.inl s') ∧ I (hist ++ [s]) s') ∨
        ∃ docs, bfsStep p g maxDepth (limitOf maxResults) s = .ok (.inr docs) ∧ True := by
    intro hist s hlim
    cases hq : s.queue with
    | nil => exact Or.inr ⟨_, bfsStep_done hq, trivial⟩
    | cons entry queue =>
        obtain ⟨node, depth⟩ := entry
        by_cases hskip : maxDepth ≤ depth ∨ node ∈ s.visited
        · exact Or.inl ⟨_, bfsStep_skip hq hskip, hlim⟩
        · obtain ⟨hdepth, hnew⟩ := not_or.mp hskip
          rw [bfsStep_expand hrows hdocs hq hdepth hnew hlim]
          split
          · next hlt => exact Or.inl ⟨_, rfl, hlt⟩
          · exact Or.inr ⟨_, rfl, trivial⟩
  obtain ⟨docs, hdone, -⟩ :=
    trace_rule (Q := fun _ _ => True) hturn [] hstart (run_bfsPosts p g root maxDepth maxResults)
  exact ⟨docs, hdone⟩

/-- A query from a row that runs past the columns faults. -/
theorem bfsPosts_overrun (p : Profile) (hdocs : g.docOffsets.length = g.colIdx.length) {u : UInt32}
    (hu : u.toNat + 1 < g.rowPtr.length) (hne : rowStart g u.toNat < rowStart g (u.toNat + 1))
    (hout : g.colIdx.length < rowStart g (u.toNat + 1)) :
    bfsPosts p g u 1 0 = .error .bounds := by
  obtain ⟨start, hstart, hstart'⟩ := index_rowPtr (show u.toNat < g.rowPtr.length by omega)
  obtain ⟨stop, hstop, hstop'⟩ := index_rowPtr hu
  have hstop32 := stop.toNat_lt
  rw [← hstart', ← hstop'] at hne
  rw [← hstop'] at hout
  have hlimit : (limitOf 0).toNat = 2 ^ 32 - 1 := rfl
  have hstep : bfsStep p g 1 (limitOf 0) (bfsStart u) = .error .bounds := by
    have hexp : ¬ ((1 : UInt8) ≤ 0 ∨ u ∈ (∅ : Finset UInt32)) := by simp
    simp only [bfsStep, bfsStart, if_neg hexp, if_neg (Nat.not_le.mpr hu), hstart, hstop, ok_bind]
    exact scanRow_overrun hdocs (by decide) (by omega) (by omega) (by
      rw [hlimit]
      show 0 + (g.colIdx.length - start.toNat) < 2 ^ 32 - 1
      omega)
  have hturn : run (bfsStep p g 1 (limitOf 0)) 1 (bfsStart u) = some (.error .bounds) := by
    rw [run, hstep]
  exact bfsPosts_eq_of_run hturn

/-! ### Accepted blobs -/

theorem Shape.docs_eq {n z : UInt32} (h : Shape g n z) : g.docOffsets.length = g.colIdx.length := by
  rw [h.docOffsets_length, h.colIdx_length]

/-- **An accepted blob is safe to query exactly when each of its rows is empty or ends inside
the columns.** -/
theorem accepted_blob_safe_iff {blob : List UInt8} (hg : fromBlob blob = .ok (.ok g)) :
    (∀ p root maxDepth maxResults, Returns (bfsPosts p g root maxDepth maxResults)) ↔
      RowsInBounds g := by
  have hshape := (fromBlob_shape hg).1
  constructor
  · intro hsafe u hu
    by_contra hout
    obtain ⟨hne, hout⟩ := not_or.mp hout
    have hu32 : u < 2 ^ 32 := by
      have hn := (headerNodes blob).toNat_lt
      rw [hshape.rowPtr_length] at hu
      omega
    have hword : (UInt32.ofNat u).toNat = u := by rw [UInt32.toNat_ofNat_of_lt' hu32]
    have hfault := bfsPosts_overrun .dev hshape.docs_eq (u := UInt32.ofNat u)
      (by rwa [hword]) (by rw [hword]; omega) (by rw [hword]; omega)
    have hret := hsafe .dev (UInt32.ofNat u) 1 0
    rw [hfault] at hret
    exact not_returns_error _ hret
  · intro hrows p root maxDepth maxResults
    exact returns_bfsPosts hrows hshape.docs_eq p root maxDepth maxResults

/-- One node, no edge slot, and a row pointer that claims one: accepted, and a fault. -/
theorem accepted_blob_unsafe :
    ¬ ∀ blob g, fromBlob blob = .ok (.ok g) →
      ∀ p root maxDepth maxResults, Returns (bfsPosts p g root maxDepth maxResults) := by
  intro hsafe
  let g : GraphEngine := ⟨[0, 1], [], [], []⟩
  have hg : fromBlob [1, 0, 0, 0, 0, 0, 0, 0, 0, 0, 0, 0, 1, 0, 0, 0] = .ok (.ok g) := by
    decide +kernel
  have hfault : bfsPosts .release g 0 1 1 = .error .bounds := by decide +kernel
  have hret := hsafe _ g hg .release 0 1 1
  rw [hfault] at hret
  exact not_returns_error _ hret

theorem accepted_blob_safe_tiny :
    ∃ g, fromBlob ([2, 0, 0, 0, 1, 0, 0, 0, 0, 0, 0, 0, 1, 0, 0, 0, 1, 0, 0, 0, 1, 0, 0, 0]
        ++ [2, 0, 0, 0, 0, 0, 0, 0, 123, 125]) = .ok (.ok g) ∧
      ((∀ p root maxDepth maxResults, Returns (bfsPosts p g root maxDepth maxResults)) ↔
        RowsInBounds g) := by
  have hg : fromBlob ([2, 0, 0, 0, 1, 0, 0, 0, 0, 0, 0, 0, 1, 0, 0, 0, 1, 0, 0, 0, 1, 0, 0, 0]
      ++ [2, 0, 0, 0, 0, 0, 0, 0, 123, 125]) = .ok (.ok ⟨[0, 1, 1], [1], [2], [123, 125]⟩) := by
    decide +kernel
  exact ⟨_, hg, accepted_blob_safe_iff hg⟩

end NexusCore.Blob
