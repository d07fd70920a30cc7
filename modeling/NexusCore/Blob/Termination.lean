import NexusCore.Blob.Safety

/-!
# Every query ends, on any arrays

Nothing is assumed of the engine here: rows may overlap, fall, run past the columns or lead
back, and targets may be no nodes at all.  A turn that goes on is described by
`bfsStep_inl`, a turn that faults by `bfsStep_error`; along a query the depths in the queue
stay at or below the bound, what was expanded stays marked, and so no node is expanded twice
and no depth leaves its byte.
-/

namespace NexusCore.Blob

open Foundation.Machine Foundation.Loop

variable {p : Profile} {g : GraphEngine} {maxDepth depth : UInt8} {limit : UInt32}
  {s s' : BfsState}

/-! ### One row -/

/-- What a scan adds to the queue is one level deeper. -/
theorem mem_queue_of_scanRow (hdepth : depth.toNat + 1 < 2 ^ 8) {k i : ℕ}
    (h : scanRow p g limit depth k i s = .ok (.inl s')) :
    ∀ e ∈ s'.queue, e ∈ s.queue ∨ e.2 = depth + 1 := by
  induction k generalizing i s with
  | zero =>
      cases h
      exact fun e he => Or.inl he
  | succ k ih =>
      obtain ⟨neighbor, -, h⟩ := bind_eq_ok.mp h
      obtain ⟨packed, -, h⟩ := bind_eq_ok.mp h
      obtain ⟨results, -, h⟩ := bind_eq_ok.mp h
      split at h
      · cases h
      · have hadd : p.add8 depth 1 = .ok (depth + 1) := p.add8_of_lt hdepth
        rw [hadd, ok_bind] at h
        intro e he
        rcases ih h e he with hold | hnew
        · rcases List.mem_append.mp hold with hold | hlast
          · exact Or.inl hold
          · rw [List.mem_singleton.mp hlast]
            exact Or.inr rfl
        · exact Or.inr hnew

theorem index_error {α : Type} {l : List α} {i : ℕ} {e : Fault} (h : index l i = .error e) :
    e = .bounds := by
  rcases Nat.lt_or_ge i l.length with hi | hi
  · rw [index_of_lt hi] at h
    cases h
  · rw [index_of_ge hi] at h
    cases h
    rfl

/-- The arena is read behind a test. -/
theorem returns_pushDoc (g : GraphEngine) (packed : UInt64) (results : List (List UInt8)) :
    Returns (pushDoc g packed results) := by
  by_cases hin : docOffset packed + docLen packed ≤ g.arena.length
  · simp only [pushDoc, if_pos hin, slice_of_le (Nat.le_add_right _ _) hin, ok_bind, returns_ok]
  · simp only [pushDoc, if_neg hin, returns_ok]

/-- A scan faults at an index only. -/
theorem scanRow_error (hdepth : depth.toNat + 1 < 2 ^ 8) {k i : ℕ} {e : Fault}
    (h : scanRow p g limit depth k i s = .error e) : e = .bounds := by
  induction k generalizing i s with
  | zero => cases h
  | succ k ih =>
      rw [scanRow] at h
      cases hcol : index g.colIdx i with
      | error e' =>
          rw [hcol, error_bind] at h
          cases h
          exact index_error hcol
      | ok neighbor =>
          rw [hcol, ok_bind] at h
          cases hdoc : index g.docOffsets i with
          | error e' =>
              rw [hdoc, error_bind] at h
              cases h
              exact index_error hdoc
          | ok packed =>
              rw [hdoc, ok_bind] at h
              obtain ⟨results, hpush⟩ := returns_pushDoc g packed s.results
              rw [hpush, ok_bind] at h
              split at h
              · cases h
              · have hadd : p.add8 depth 1 = .ok (depth + 1) := p.add8_of_lt hdepth
                rw [hadd, ok_bind] at h
                exact ih h

/-! ### One turn -/

/-- **A turn that goes on** has popped an entry.  It passed it over, or its vertex was new and
is marked, and what it added to the queue is one level deeper. -/
theorem bfsStep_inl (h : bfsStep p g maxDepth limit s = .ok (.inl s')) :
    ∃ node depth queue, s.queue = (node, depth) :: queue ∧
      ((maxDepth ≤ depth ∨ node ∈ s.visited) ∧ s' = { s with queue := queue } ∨
        ¬ maxDepth ≤ depth ∧ node ∉ s.visited ∧ s'.visited = insert node s.visited ∧
          ∀ e ∈ s'.queue, e ∈ queue ∨ e.2 = depth + 1) := by
  cases hq : s.queue with
  | nil =>
      rw [bfsStep_done hq] at h
      cases h
  | cons entry queue =>
      obtain ⟨node, depth⟩ := entry
      refine ⟨node, depth, queue, rfl, ?_⟩
      by_cases hskip : maxDepth ≤ depth ∨ node ∈ s.visited
      · rw [bfsStep_skip hq hskip] at h
        cases h
        exact Or.inl ⟨hskip, rfl⟩
      · right
        obtain ⟨hdepth, hnew⟩ := not_or.mp hskip
        simp only [bfsStep, hq, if_neg hskip] at h
        refine ⟨hdepth, hnew, ?_⟩
        by_cases hrow : g.rowPtr.length ≤ node.toNat + 1
        · rw [if_pos hrow] at h
          cases h
          exact ⟨rfl, fun e he => Or.inl he⟩
        · rw [if_neg hrow] at h
          obtain ⟨start, -, h⟩ := bind_eq_ok.mp h
          obtain ⟨stop, -, h⟩ := bind_eq_ok.mp h
          exact ⟨(scanRow_inl h).1, mem_queue_of_scanRow (depth_succ_lt hdepth) h⟩

/-- **A turn faults at an index only.** -/
theorem bfsStep_error {e : Fault} (h : bfsStep p g maxDepth limit s = .error e) :
    e = .bounds := by
  cases hq : s.queue with
  | nil =>
      rw [bfsStep_done hq] at h
      cases h
  | cons entry queue =>
      obtain ⟨node, depth⟩ := entry
      by_cases hskip : maxDepth ≤ depth ∨ node ∈ s.visited
      · rw [bfsStep_skip hq hskip] at h
        cases h
      · simp only [bfsStep, hq, if_neg hskip] at h
        by_cases hrow : g.rowPtr.length ≤ node.toNat + 1
        · rw [if_pos hrow] at h
          cases h
        · have hlt := Nat.not_le.mp hrow
          obtain ⟨start, hstart, -⟩ := index_rowPtr (show node.toNat < g.rowPtr.length by omega)
          obtain ⟨stop, hstop, -⟩ := index_rowPtr hlt
          rw [if_neg hrow, hstart, ok_bind, hstop, ok_bind] at h
          exact scanRow_error (depth_succ_lt (not_or.mp hskip).1) h

/-! ### The whole query -/

/-- The nodes expanded from some states. -/
def expanded (g : GraphEngine) (maxDepth : UInt8) (hist : List BfsState) : List UInt32 :=
  (hist.filterMap (expanding g maxDepth)).map Prod.fst

theorem expanded_append (g : GraphEngine) (maxDepth : UInt8) (hist : List BfsState)
    (s : BfsState) :
    expanded g maxDepth (hist ++ [s])
      = expanded g maxDepth hist ++ ((expanding g maxDepth s).map Prod.fst).toList := by
  rw [expanded, expanded, List.filterMap_append, List.map_append]
  cases hexp : expanding g maxDepth s with
  | none => rw [List.filterMap_cons_none hexp]; rfl
  | some e => rw [List.filterMap_cons_some hexp]; rfl

/-- The node that a turn expands is its head, and new. -/
theorem expanding_some {e : UInt32 × UInt8} (h : expanding g maxDepth s = some e) :
    e.1 ∉ s.visited ∧ e.2 < maxDepth ∧ ∃ queue, s.queue = e :: queue := by
  cases hq : s.queue with
  | nil =>
      simp only [expanding, hq] at h
      cases h
  | cons entry queue =>
      simp only [expanding, hq] at h
      split at h
      · cases h
      · next hexp =>
          cases h
          obtain ⟨hdepth, hexp⟩ := not_or.mp hexp
          exact ⟨(not_or.mp hexp).1, UInt8.not_le.mp hdepth, queue, rfl⟩

/-- What a query keeps from turn to turn, whatever the arrays hold. -/
structure Marks (g : GraphEngine) (maxDepth : UInt8) (hist : List BfsState) (s : BfsState) :
    Prop where
  nodup : (expanded g maxDepth hist).Nodup
  visited : ∀ u ∈ expanded g maxDepth hist, u ∈ s.visited
  depths : ∀ e ∈ s.queue, e.2 ≤ maxDepth

namespace Marks

variable {hist : List BfsState}

theorem start (g : GraphEngine) (maxDepth : UInt8) (root : UInt32) :
    Marks g maxDepth [] (bfsStart root) where
  nodup := List.nodup_nil
  visited := nofun
  depths := by
    intro e he
    rw [List.mem_singleton.mp he]
    exact UInt8.le_iff_toNat_le.mpr (Nat.zero_le _)

/-- No turn expands a node a second time. -/
theorem nodup_append (h : Marks g maxDepth hist s) : (expanded g maxDepth (hist ++ [s])).Nodup := by
  rw [expanded_append]
  cases hexp : expanding g maxDepth s with
  | none => rw [Option.map_none, Option.toList_none, List.append_nil]; exact h.nodup
  | some e =>
      rw [Option.map_some, Option.toList_some, List.nodup_append]
      refine ⟨h.nodup, List.nodup_singleton _, ?_⟩
      intro a ha b hb hab
      rw [List.mem_singleton.mp hb] at hab
      exact (expanding_some hexp).1 (hab ▸ h.visited a ha)

theorem step (h : Marks g maxDepth hist s) (hs : bfsStep p g maxDepth limit s = .ok (.inl s')) :
    Marks g maxDepth (hist ++ [s]) s' where
  nodup := h.nodup_append
  visited := by
    obtain ⟨node, depth, queue, hq, ⟨hskip, rfl⟩ | ⟨-, -, hvisited, -⟩⟩ := bfsStep_inl hs
    · have hnone : expanding g maxDepth s = none := by
        simp only [expanding, hq]
        rw [if_pos (hskip.imp_right Or.inl)]
      rw [expanded_append, hnone, Option.map_none, Option.toList_none, List.append_nil]
      exact h.visited
    · intro u hu
      rw [hvisited]
      rw [expanded_append] at hu
      rcases List.mem_append.mp hu with hold | hlast
      · exact Finset.mem_insert_of_mem (h.visited u hold)
      · obtain ⟨e, hexp, rfl⟩ := Option.map_eq_some_iff.mp (Option.mem_toList.mp hlast)
        obtain ⟨-, -, queue', hq'⟩ := expanding_some hexp
        rw [← (List.cons.inj (hq.symm.trans hq')).1]
        exact Finset.mem_insert_self _ _
  depths := by
    obtain ⟨node, depth, queue, hq, ⟨-, rfl⟩ | ⟨hdepth, -, -, hqueue⟩⟩ := bfsStep_inl hs
    · intro e he
      exact h.depths e (hq ▸ List.mem_cons_of_mem _ he)
    · intro e he
      rcases hqueue e he with hold | hnew
      · exact h.depths e (hq ▸ List.mem_cons_of_mem _ hold)
      · have hlt := UInt8.lt_iff_toNat_lt.mp (UInt8.not_le.mp hdepth)
        rw [hnew, UInt8.le_iff_toNat_le, toNat_depth_succ hdepth]
        exact hlt

end Marks

/-- **A query always ends.**  A fixed number of turns is enough and more change nothing; it
expands every node at most once; wherever it comes, no depth in the queue is above the bound,
and every expansion is at a depth below it; and a fault, if there is one, is an index outside
its array, never an overflow. -/
theorem bfsPosts_ends (p : Profile) (g : GraphEngine) (root : UInt32) (maxDepth : UInt8)
    (maxResults : UInt32) :
    (∀ fuel, bfsFuel g ≤ fuel →
      run (bfsStep p g maxDepth (limitOf maxResults)) fuel (bfsStart root)
        = some (bfsPosts p g root maxDepth maxResults)) ∧
    ((bfsExpansions p g root maxDepth maxResults).map Prod.fst).Nodup ∧
    (∀ s ∈ trace (bfsStep p g maxDepth (limitOf maxResults)) (bfsFuel g) (bfsStart root),
      (∀ e ∈ s.queue, e.2 ≤ maxDepth) ∧ ∀ e, expanding g maxDepth s = some e → e.2 < maxDepth) ∧
    (∀ e, bfsPosts p g root maxDepth maxResults = .error e → e = .bounds) := by
  have hmarks : ∀ past s rest,
      trace (bfsStep p g maxDepth (limitOf maxResults)) (bfsFuel g) (bfsStart root)
        = past ++ s :: rest → Marks g maxDepth past s := by
    intro past s rest h
    exact trace_invariant (I := Marks g maxDepth) (fun _ _ _ h hs => h.step hs)
      (Marks.start g maxDepth root) h
  refine ⟨?_, ?_, ?_, ?_⟩
  · intro fuel hfuel
    exact run_mono (run_bfsPosts p g root maxDepth maxResults) hfuel
  · show (expanded g maxDepth
      (trace (bfsStep p g maxDepth (limitOf maxResults)) (bfsFuel g) (bfsStart root))).Nodup
    rcases List.eq_nil_or_concat
      (trace (bfsStep p g maxDepth (limitOf maxResults)) (bfsFuel g) (bfsStart root))
      with hnil | ⟨past, s, hlast⟩
    · rw [hnil]
      exact List.nodup_nil
    · rw [List.concat_eq_append] at hlast
      rw [hlast]
      exact (hmarks past s [] hlast).nodup_append
  · intro s hs
    obtain ⟨past, rest, hsplit⟩ := List.append_of_mem hs
    exact ⟨(hmarks past s rest hsplit).depths, fun e he => (expanding_some he).2.1⟩
  · intro e he
    have hrun := run_bfsPosts p g root maxDepth maxResults
    rw [he] at hrun
    obtain ⟨s, -, hfault⟩ := error_of_run hrun
    exact bfsStep_error hfault

end NexusCore.Blob
