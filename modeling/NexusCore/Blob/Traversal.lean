import NexusCore.Blob.Codec
import NexusCore.Foundation.Loop

/-!
# Queries on a parsed graph

`bfsPosts` is the query of the engine: it pops a node and its depth, skips it when it is too
deep or was visited, and otherwise scans the node's edge slots, collecting documents and
queueing the targets.  It stops early once enough documents are collected.

The loop always ends (`bfs_isSome`), whatever the arrays hold: every iteration pops an entry,
and only the first visit of a node that has a row appends any.
-/

namespace NexusCore.Blob

open Foundation.Machine Foundation.Loop

/-! ### The query -/

/-- The local variables of `bfs_posts`. -/
structure BfsState where
  visited : Finset UInt32
  queue : List (UInt32 × UInt8)
  results : List (List UInt8)

/-- Collect the document of a slot, when it lies in the arena. -/
def pushDoc (g : GraphEngine) (packed : UInt64) (results : List (List UInt8)) :
    Checked (List (List UInt8)) :=
  let offset := docOffset packed
  let len := docLen packed
  if offset + len ≤ g.arena.length then do
    let doc ← slice g.arena offset (offset + len)
    .ok (results ++ [doc])
  else .ok results

/-- What is left of `for i in start..end`: `k` slots from `i` on.  A right value is the
early `return results`. -/
def scanRow (p : Profile) (g : GraphEngine) (limit : UInt32) (depth : UInt8) :
    ℕ → ℕ → BfsState → Checked (BfsState ⊕ List (List UInt8))
  | 0, _, s => .ok (.inl s)
  | k + 1, i, s => do
      let neighbor ← index g.colIdx i
      let packed ← index g.docOffsets i
      let results ← pushDoc g packed s.results
      if limit ≤ UInt32.ofNat results.length then .ok (.inr results)
      else do
        let next ← p.add8 depth 1
        scanRow p g limit depth k (i + 1)
          { s with queue := s.queue ++ [(neighbor, next)], results := results }

/-- One turn of the `while let` loop. -/
def bfsStep (p : Profile) (g : GraphEngine) (maxDepth : UInt8) (limit : UInt32) :
    Body Fault BfsState (List (List UInt8)) := fun s =>
  match s.queue with
  | [] => .ok (.inr s.results)
  | (node, depth) :: queue =>
      if maxDepth ≤ depth ∨ node ∈ s.visited then .ok (.inl { s with queue := queue })
      else
        let s := { s with visited := insert node s.visited, queue := queue }
        if g.rowPtr.length ≤ node.toNat + 1 then .ok (.inl s)
        else do
          let start ← index g.rowPtr node.toNat
          let stop ← index g.rowPtr (node.toNat + 1)
          scanRow p g limit depth (stop.toNat - start.toNat) start.toNat s

/-- `max_results`, with `0` standing for no limit. -/
def limitOf (maxResults : UInt32) : UInt32 :=
  if maxResults = 0 then UInt32.ofNat (2 ^ 32 - 1) else maxResults

def bfsStart (root : UInt32) : BfsState := ⟨∅, [(root, 0)], []⟩

/-- Enough turns for every query of an engine. -/
def bfsFuel (g : GraphEngine) : ℕ := (g.rowPtr.length - 1) * g.colIdx.length + 2

/-! ### The loop ends -/

/-- A scan that ends its row has appended one entry for each slot, all of them columns. -/
theorem scanRow_inl {p : Profile} {g : GraphEngine} {limit : UInt32} {depth : UInt8} {k i : ℕ}
    {s s' : BfsState} (h : scanRow p g limit depth k i s = .ok (.inl s')) :
    s'.visited = s.visited ∧ s'.queue.length = s.queue.length + k ∧
      (0 < k → i + k ≤ g.colIdx.length) := by
  induction k generalizing i s with
  | zero =>
      cases h
      exact ⟨rfl, rfl, fun hk => absurd hk (Nat.lt_irrefl 0)⟩
  | succ k ih =>
      obtain ⟨neighbor, hcol, h⟩ := bind_eq_ok.mp h
      obtain ⟨packed, -, h⟩ := bind_eq_ok.mp h
      obtain ⟨results, -, h⟩ := bind_eq_ok.mp h
      have hi : i < g.colIdx.length := returns_index.mp ⟨neighbor, hcol⟩
      split at h
      · cases h
      · obtain ⟨next, -, h⟩ := bind_eq_ok.mp h
        obtain ⟨hvis, hlen, hend⟩ := ih h
        refine ⟨hvis, ?_, fun _ => ?_⟩
        · rw [hlen]
          simp only [List.length_append, List.length_singleton]
          omega
        · rcases Nat.eq_zero_or_pos k with rfl | hk
          · omega
          · have := hend hk
            omega

/-- The nodes that have a row and were not visited. -/
def freshRows (g : GraphEngine) (visited : Finset UInt32) : Finset ℕ :=
  (Finset.range (g.rowPtr.length - 1)).filter fun u => UInt32.ofNat u ∉ visited

/-- What is left to do: the queue, and a full set of columns for each fresh row. -/
def workLeft (g : GraphEngine) (s : BfsState) : ℕ :=
  (freshRows g s.visited).card * g.colIdx.length + s.queue.length

theorem freshRows_insert_subset (g : GraphEngine) (visited : Finset UInt32) (node : UInt32) :
    freshRows g (insert node visited) ⊆ freshRows g visited := by
  intro u hu
  rw [freshRows, Finset.mem_filter] at hu ⊢
  exact ⟨hu.1, fun h => hu.2 (Finset.mem_insert_of_mem h)⟩

/-- The first visit of a node that has a row takes that row. -/
theorem freshRows_insert_card_lt {g : GraphEngine} {visited : Finset UInt32} {node : UInt32}
    (hnew : node ∉ visited) (hrow : node.toNat + 1 < g.rowPtr.length) :
    (freshRows g (insert node visited)).card < (freshRows g visited).card := by
  apply Finset.card_lt_card
  refine ⟨freshRows_insert_subset g visited node, fun hsub => ?_⟩
  have hmem : node.toNat ∈ freshRows g visited := by
    rw [freshRows, Finset.mem_filter, Finset.mem_range, UInt32.ofNat_toNat]
    exact ⟨by omega, hnew⟩
  have hout := (Finset.mem_filter.mp (hsub hmem)).2
  rw [UInt32.ofNat_toNat] at hout
  exact hout (Finset.mem_insert_self _ _)

/-- **Every turn that goes on leaves less to do.** -/
theorem bfsStep_workLeft {p : Profile} {g : GraphEngine} {maxDepth : UInt8} {limit : UInt32}
    {s s' : BfsState} (h : bfsStep p g maxDepth limit s = .ok (.inl s')) :
    workLeft g s' < workLeft g s := by
  obtain ⟨visited, queue, results⟩ := s
  cases queue with
  | nil => cases h
  | cons entry queue =>
      obtain ⟨node, depth⟩ := entry
      simp only [bfsStep] at h
      unfold workLeft
      by_cases hskip : maxDepth ≤ depth ∨ node ∈ visited
      · rw [if_pos hskip] at h
        cases h
        exact Nat.add_lt_add_left (Nat.lt_succ_self _) _
      · rw [if_neg hskip] at h
        by_cases hrow : g.rowPtr.length ≤ node.toNat + 1
        · rw [if_pos hrow] at h
          cases h
          have hle := Nat.mul_le_mul_right g.colIdx.length
            (Finset.card_le_card (freshRows_insert_subset g visited node))
          simp only [List.length_cons]
          omega
        · rw [if_neg hrow] at h
          obtain ⟨start, -, h⟩ := bind_eq_ok.mp h
          obtain ⟨stop, -, h⟩ := bind_eq_ok.mp h
          obtain ⟨hvis, hlen, hend⟩ := scanRow_inl h
          have hlt := freshRows_insert_card_lt (not_or.mp hskip).2 (Nat.not_le.mp hrow)
          have hmul := Nat.mul_le_mul_right g.colIdx.length hlt
          rw [Nat.succ_mul] at hmul
          rw [hvis, hlen]
          show (freshRows g (insert node visited)).card * g.colIdx.length
              + (queue.length + (stop.toNat - start.toNat))
            < (freshRows g visited).card * g.colIdx.length + (queue.length + 1)
          omega

/-- **The loop of a query ends**, whatever the arrays hold. -/
theorem bfs_isSome (p : Profile) (g : GraphEngine) (maxDepth : UInt8) (limit root : UInt32) :
    (run (bfsStep p g maxDepth limit) (bfsFuel g) (bfsStart root)).isSome := by
  apply isSome_run (I := fun _ => True) (μ := workLeft g) _ trivial
  · have hcard : (freshRows g ∅).card ≤ g.rowPtr.length - 1 := by
      have hle := Finset.card_filter_le (Finset.range (g.rowPtr.length - 1))
        fun u => UInt32.ofNat u ∉ (∅ : Finset UInt32)
      rwa [Finset.card_range] at hle
    have hmul := Nat.mul_le_mul_right g.colIdx.length hcard
    show (freshRows g ∅).card * g.colIdx.length + 1 < bfsFuel g
    rw [bfsFuel]
    omega
  · intro s s' _ h
    exact ⟨trivial, bfsStep_workLeft h⟩

/-- `GraphEngine::bfs_posts`. -/
def bfsPosts (p : Profile) (g : GraphEngine) (root : UInt32) (maxDepth : UInt8)
    (maxResults : UInt32) : Checked (List (List UInt8)) :=
  (run (bfsStep p g maxDepth (limitOf maxResults)) (bfsFuel g) (bfsStart root)).get
    (bfs_isSome p g maxDepth (limitOf maxResults) root)

/-- The loop under the fuel of the definition. -/
theorem run_bfsPosts (p : Profile) (g : GraphEngine) (root : UInt32) (maxDepth : UInt8)
    (maxResults : UInt32) :
    run (bfsStep p g maxDepth (limitOf maxResults)) (bfsFuel g) (bfsStart root)
      = some (bfsPosts p g root maxDepth maxResults) := (Option.some_get _).symm

/-- **The fuel does not show**: whatever the loop gives after any number of turns is the answer
of the query. -/
theorem bfsPosts_eq_of_run {p : Profile} {g : GraphEngine} {root : UInt32} {maxDepth : UInt8}
    {maxResults : UInt32} {fuel : ℕ} {r : Checked (List (List UInt8))}
    (h : run (bfsStep p g maxDepth (limitOf maxResults)) fuel (bfsStart root) = some r) :
    bfsPosts p g root maxDepth maxResults = r := by
  have hfull := run_bfsPosts p g root maxDepth maxResults
  rcases Nat.le_total fuel (bfsFuel g) with hle | hle
  · exact Option.some.inj (hfull.symm.trans (run_mono h hle))
  · exact Option.some.inj ((run_mono hfull hle).symm.trans h)

/-- The node that a turn expands, with the depth it is expanded at. -/
def expanding (g : GraphEngine) (maxDepth : UInt8) (s : BfsState) : Option (UInt32 × UInt8) :=
  match s.queue with
  | [] => none
  | (node, depth) :: _ =>
      if maxDepth ≤ depth ∨ node ∈ s.visited ∨ g.rowPtr.length ≤ node.toNat + 1 then none
      else some (node, depth)

/-- The nodes that a query expands, in order. -/
def bfsExpansions (p : Profile) (g : GraphEngine) (root : UInt32) (maxDepth : UInt8)
    (maxResults : UInt32) : List (UInt32 × UInt8) :=
  (trace (bfsStep p g maxDepth (limitOf maxResults)) (bfsFuel g) (bfsStart root)).filterMap
    (expanding g maxDepth)

end NexusCore.Blob
