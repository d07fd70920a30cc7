import NexusCore.Csr.Queries

/-!
# The benchmark over the graph store

`main` lays out a graph for a million nodes and fifty million edges, inserts five million
random draws in batches of ten thousand, and lists the nodes with a thousand out-edges or
more.  The generator of the `rand` crate and the unstable sort are parameters: of the first
only that a draw lies below its bound is used, of the second that it permutes and orders by
falling degree.

* `drawBatches_flatten`: the batches, one behind the other, are the draws without the
  self-loops;
* `insertBatches_of_run`: the insertion loop is a run of batches that adds up the answers;
* `hotNodes_spec`: the scan of the rows below the node count finds every hot node;
* `benchmark_counts_draws`: what the report says of the draws.
-/

namespace NexusCore.Csr.Benchmark

open Foundation.Machine Foundation.LinearMemory

/-! ### The program -/

def nodeCapacity : UInt32 := 1000000
def edgeCapacity : UInt32 := 50000000
def benchEdges : UInt32 := 5000000
def batchSize : UInt32 := 10000
def hotThreshold : ℕ := 1000

/-- What the benchmark asks of its generator: `gen_bool(0.20)` and `gen_range(0..hi)`. -/
structure Rng (σ : Type) where
  genBool : σ → Bool × σ
  genRange : UInt32 → σ → UInt32 × σ

variable {σ : Type} (rng : Rng σ)

/-- One draw: most sources are among the first hundredth of the nodes. -/
def drawEdge (s : σ) : Edge × σ :=
  let (wide, s) := rng.genBool s
  let (src, s) := rng.genRange (if wide then nodeCapacity else nodeCapacity / 100) s
  let (dst, s) := rng.genRange nodeCapacity s
  ((src, dst), s)

/-- Push `k` draws onto a batch, self-loops left out. -/
def drawBatch : ℕ → σ → List Edge → List Edge × σ
  | 0, s, batch => (batch, s)
  | k + 1, s, batch =>
      let (e, s) := drawEdge rng s
      drawBatch k s (if e.1 ≠ e.2 then batch ++ [e] else batch)

/-- The insertion loop over `k` batches; `total` is `total_inserted`. -/
def insertBatches (p : Profile) (g : CsrGraph) :
    ℕ → σ → Mem → UInt32 → Checked (Mem × Result UInt32)
  | 0, _, m, total => .ok (m, .ok total)
  | k + 1, s, m, total => do
      let (batch, s) := drawBatch rng batchSize.toNat s []
      match ← addEdgeBatch p g m batch with
      | (m, .error e) => .ok (m, .error e)
      | (m, .ok inserted) => do
          let total ← p.add32 total inserted
          insertBatches p g k s m total

/-- Push the hot ones of the `k` nodes from `node` on, each with its degree. -/
def hotNodes (g : CsrGraph) (m : Mem) :
    ℕ → ℕ → List (UInt32 × ℕ) → Checked (List (UInt32 × ℕ))
  | 0, _, hot => .ok hot
  | k + 1, node, hot => do
      let following := (← getFollowing g m (UInt32.ofNat node)).toOption.getD []
      hotNodes g m k (node + 1)
        (if hotThreshold ≤ following.length then hot ++ [(UInt32.ofNat node, following.length)]
          else hot)

/-- What the benchmark prints, rates and times aside; of the hot nodes the first five. -/
structure Report where
  totalInserted : UInt32
  generation : UInt64
  watermark : ℕ
  hotNodes : List (UInt32 × ℕ)

def Report.top (r : Report) : List (UInt32 × ℕ) := r.hotNodes.take 5

def runBenchmark (p : Profile) (sortByDegree : List (UInt32 × ℕ) → List (UInt32 × ℕ))
    (g : CsrGraph) (m : Mem) (seed : σ) : Checked (Result Report) := do
  match ← insertBatches rng p g (benchEdges / batchSize).toNat seed m 0 with
  | (_, .error e) => .ok (.error e)
  | (m, .ok total) => do
      let hot ← hotNodes g m (nodeCount m).toNat 0 []
      .ok (.ok ⟨total, generation m, (bumpWatermark m).toNat, sortByDegree hot⟩)

def main (p : Profile) (sortByDegree : List (UInt32 × ℕ) → List (UInt32 × ℕ)) (seed : σ) :
    Checked (Result Report) := do
  let memSize := requiredBytes nodeCapacity edgeCapacity
  match ← init p (fun _ => 0) memSize nodeCapacity edgeCapacity with
  | (_, .error e) => .ok (.error e)
  | (m, .ok g) => runBenchmark rng p sortByDegree g m seed

/-! ### What is drawn -/

/-- `k` draws in a row, self-loops included. -/
def draws : ℕ → σ → List Edge × σ
  | 0, s => ([], s)
  | k + 1, s => ((drawEdge rng s).1 :: (draws k (drawEdge rng s).2).1,
      (draws k (drawEdge rng s).2).2)

/-- The edges among a list of draws. -/
def properEdges (es : List Edge) : List Edge := es.filter fun e => decide (e.1 ≠ e.2)

/-- `k` batches in a row. -/
def drawBatches : ℕ → σ → List (List Edge)
  | 0, _ => []
  | k + 1, s => (drawBatch rng batchSize.toNat s []).1 ::
      drawBatches k (drawBatch rng batchSize.toNat s []).2

/-- A draw of `gen_range` lies below its bound. -/
def Rng.InRange : Prop := ∀ hi s, 0 < hi → (rng.genRange hi s).1 < hi

theorem draws_add (a b : ℕ) (s : σ) : draws rng (a + b) s =
    ((draws rng a s).1 ++ (draws rng b (draws rng a s).2).1,
      (draws rng b (draws rng a s).2).2) := by
  induction a generalizing s with
  | zero => rw [Nat.zero_add]; rfl
  | succ a ih =>
      rw [Nat.succ_add]
      simp only [draws, ih, List.cons_append]

@[simp] theorem draws_length (k : ℕ) (s : σ) : (draws rng k s).1.length = k := by
  induction k generalizing s with
  | zero => rfl
  | succ k ih => rw [draws, List.length_cons, ih]

@[simp] theorem properEdges_append (es₁ es₂ : List Edge) :
    properEdges (es₁ ++ es₂) = properEdges es₁ ++ properEdges es₂ := List.filter_append ..

/-- A batch keeps the proper edges of its draws, in the order they were drawn. -/
theorem drawBatch_eq (k : ℕ) (s : σ) (batch : List Edge) :
    drawBatch rng k s batch = (batch ++ properEdges (draws rng k s).1, (draws rng k s).2) := by
  induction k generalizing s batch with
  | zero => simp [drawBatch, draws, properEdges]
  | succ k ih =>
      rw [show drawBatch rng (k + 1) s batch = drawBatch rng k (drawEdge rng s).2
        (if (drawEdge rng s).1.1 ≠ (drawEdge rng s).1.2 then batch ++ [(drawEdge rng s).1]
          else batch) from rfl, ih, draws, properEdges, properEdges, List.filter_cons]
      by_cases hloop : (drawEdge rng s).1.1 ≠ (drawEdge rng s).1.2
      · rw [if_pos hloop, if_pos (decide_eq_true hloop), List.append_assoc, List.singleton_append]
      · rw [if_neg hloop, if_neg (by rw [decide_eq_false hloop]; exact Bool.false_ne_true)]

/-- **Cutting into batches loses no draw.** -/
theorem drawBatches_flatten (k : ℕ) (s : σ) :
    (drawBatches rng k s).flatten = properEdges (draws rng (k * batchSize.toNat) s).1 := by
  induction k generalizing s with
  | zero => rw [Nat.zero_mul]; rfl
  | succ k ih =>
      rw [drawBatches, List.flatten_cons, ih, drawBatch_eq, List.nil_append, Nat.succ_mul,
        Nat.add_comm, draws_add, properEdges_append]

variable {rng}

theorem drawEdge_lt (hrng : rng.InRange) (s : σ) :
    (drawEdge rng s).1.1 < nodeCapacity ∧ (drawEdge rng s).1.2 < nodeCapacity := by
  refine ⟨?_, hrng _ _ (by decide)⟩
  show (rng.genRange (if (rng.genBool s).1 then nodeCapacity else nodeCapacity / 100)
    (rng.genBool s).2).1 < nodeCapacity
  split
  · exact hrng _ _ (by decide)
  · exact UInt32.lt_trans (hrng _ _ (by decide)) (by decide)

theorem draws_lt (hrng : rng.InRange) (k : ℕ) (s : σ) :
    ∀ e ∈ (draws rng k s).1, e.1 < nodeCapacity ∧ e.2 < nodeCapacity := by
  induction k generalizing s with
  | zero => simp [draws]
  | succ k ih =>
      intro e he
      rcases List.mem_cons.mp he with rfl | he
      · exact drawEdge_lt hrng s
      · exact ih _ e he

/-! ### The insertion loop -/

/-- Every batch was answered with its length. -/
def AllTaken (bs : List (List Edge)) (rs : List (Result UInt32)) : Prop :=
  List.Forall₂ (fun b r => ∃ n, r = .ok n ∧ n.toNat = b.length) bs rs

/-- When all batches are taken in, the rounds are the batches with an edge. -/
theorem AllTaken.rounds {bs : List (List Edge)} {rs : List (Result UInt32)}
    (h : AllTaken bs rs) : acceptedRounds bs rs = bs.countP fun b => decide (b ≠ []) := by
  induction h with
  | nil => rfl
  | @cons b r bs rs hbr _ ih =>
      obtain ⟨n, rfl, -⟩ := hbr
      rw [acceptedRounds, ih, List.countP_cons, Nat.add_comm]
      by_cases hb : b = []
      · simp [hb]
      · simp [hb]

variable {p : Profile} {g : CsrGraph}

/-- **The insertion loop is a run of its batches**, and `total_inserted` adds up what they
were answered with. -/
theorem insertBatches_of_run (k : ℕ) (s : σ) (m : Mem) (total : UInt32) {m' : Mem}
    {rs : List (Result UInt32)} (hrun : runBatches p g m (drawBatches rng k s) = .ok (m', rs))
    (htaken : AllTaken (drawBatches rng k s) rs)
    (hsum : total.toNat + (drawBatches rng k s).flatten.length < 2 ^ 32) :
    ∃ total', insertBatches rng p g k s m total = .ok (m', .ok total') ∧
      total'.toNat = total.toNat + (drawBatches rng k s).flatten.length := by
  induction k generalizing s m total rs with
  | zero =>
      cases hrun
      exact ⟨total, rfl, rfl⟩
  | succ k ih =>
      rw [drawBatches] at hrun htaken hsum
      rw [drawBatches]
      set batch := (drawBatch rng batchSize.toNat s []).1 with hbatch
      set s' := (drawBatch rng batchSize.toNat s []).2 with hs'
      obtain ⟨⟨m₁, r⟩, hadd, hrest⟩ := bind_eq_ok.mp hrun
      obtain ⟨⟨m₂, rs'⟩, hrun', hend⟩ := bind_eq_ok.mp hrest
      cases hend
      obtain ⟨⟨n, rfl, hn⟩, htaken'⟩ := List.forall₂_cons.mp htaken
      rw [List.flatten_cons, List.length_append] at hsum ⊢
      have hroom : total.toNat + n.toNat < 2 ^ 32 := by omega
      have htotal := toNat_add32_of_lt hroom
      obtain ⟨total', hloop, hcount⟩ := ih s' m₁ (total + n) hrun' htaken' (by omega)
      refine ⟨total', ?_, by omega⟩
      rw [insertBatches]
      show (addEdgeBatch p g m batch >>= _) = _
      rw [hadd, ok_bind]
      show (p.add32 total n >>= _) = _
      rw [Profile.add32_of_lt hroom, ok_bind, hloop]

/-! ### The scan for hot nodes -/

/-- How many edges leave a node. -/
def outDegree (edges : List Edge) (u : UInt32) : ℕ := edges.countP fun e => decide (e.1 = u)

/-- The hot nodes among the `k` from `node` on, each with its degree. -/
def hotAmong (edges : List Edge) (node k : ℕ) : List (UInt32 × ℕ) :=
  (((List.range' node k).map UInt32.ofNat).filter fun u =>
    decide (hotThreshold ≤ outDegree edges u)).map fun u => (u, outDegree edges u)

variable {nodeCap edgeCap : UInt32} {m : Mem} {L : List Edge}

/-- A row is as long as its node's degree. -/
theorem getFollowing_length (h : Represents g nodeCap edgeCap m L) {u : UInt32}
    (hu : u < nodeCap) : ∃ row, getFollowing g m u = .ok (.ok row) ∧
      row.length = outDegree L u := by
  refine ⟨_, getFollowing_spec h hu, ?_⟩
  rw [List.length_map, ← List.countP_eq_length_filter]
  apply List.countP_congr
  intro e _
  simp only [srcKey, decide_eq_true_eq, UInt32.toNat_inj]

theorem hotNodes_spec (h : Represents g nodeCap edgeCap m L) (k node : ℕ)
    (hot : List (UInt32 × ℕ)) (hk : node + k ≤ nodeCap.toNat) :
    hotNodes g m k node hot = .ok (hot ++ hotAmong L node k) := by
  induction k generalizing node hot with
  | zero => simp [hotNodes, hotAmong]
  | succ k ih =>
      have hcap := nodeCap.toNat_lt
      have hu : UInt32.ofNat node < nodeCap := by
        rw [UInt32.lt_iff_toNat_lt, UInt32.toNat_ofNat', Nat.mod_eq_of_lt (by omega)]
        omega
      obtain ⟨row, hrow, hlen⟩ := getFollowing_length h hu
      rw [hotNodes, hrow, ok_bind]
      show hotNodes g m k (node + 1) (if hotThreshold ≤ row.length then
        hot ++ [(UInt32.ofNat node, row.length)] else hot) = _
      rw [ih (node + 1) _ (by omega), hlen]
      simp only [hotAmong, List.range'_succ, List.map_cons, List.filter_cons]
      by_cases hhot : hotThreshold ≤ outDegree L (UInt32.ofNat node)
      · rw [if_pos hhot, if_pos (decide_eq_true hhot), List.map_cons, List.append_assoc,
          List.singleton_append]
      · rw [if_neg hhot, if_neg (by rw [decide_eq_false hhot]; exact Bool.false_ne_true)]

theorem mem_hotAmong {edges : List Edge} {n : ℕ} (hn : n ≤ 2 ^ 32) {u : UInt32} {d : ℕ} :
    (u, d) ∈ hotAmong edges 0 n ↔
      u.toNat < n ∧ hotThreshold ≤ d ∧ d = outDegree edges u := by
  simp only [hotAmong, List.mem_map, List.mem_filter, decide_eq_true_eq, Prod.mk.injEq]
  constructor
  · rintro ⟨_, ⟨⟨i, hi, rfl⟩, hhot⟩, rfl, rfl⟩
    have hlt := (List.mem_range'_1.mp hi).2
    refine ⟨?_, hhot, rfl⟩
    rw [UInt32.toNat_ofNat', Nat.mod_eq_of_lt (by omega)]
    omega
  · rintro ⟨hu, hhot, rfl⟩
    exact ⟨u, ⟨⟨u.toNat, List.mem_range'_1.mpr ⟨Nat.zero_le _, by omega⟩, UInt32.ofNat_toNat⟩,
      hhot⟩, rfl, rfl⟩

/-- No node is listed twice. -/
theorem hotAmong_nodup (edges : List Edge) {n : ℕ} (hn : n ≤ 2 ^ 32) :
    ((hotAmong edges 0 n).map Prod.fst).Nodup := by
  rw [hotAmong, List.map_map, show Prod.fst ∘ (fun u => (u, outDegree edges u)) = id from rfl,
    List.map_id]
  apply List.Nodup.filter
  apply List.Nodup.map_on _ List.nodup_range'
  intro i hi j hj hij
  have hlt := (List.mem_range'_1.mp hi).2
  have hlt' := (List.mem_range'_1.mp hj).2
  have htoNat := congrArg UInt32.toNat hij
  rw [UInt32.toNat_ofNat', UInt32.toNat_ofNat', Nat.mod_eq_of_lt (by omega),
    Nat.mod_eq_of_lt (by omega)] at htoNat
  exact htoNat

/-- A node with an edge lies below the node count. -/
theorem lt_nodeCount (h : Represents g nodeCap edgeCap m L) {u : UInt32}
    (hu : 0 < outDegree L u) : u.toNat < (nodeCount m).toNat := by
  obtain ⟨e, he, hsrc⟩ := List.countP_pos_iff.mp hu
  have hle := UInt32.le_iff_toNat_le.mp (le_maxSrc he)
  rw [of_decide_eq_true hsrc] at hle
  rw [h.nodeCount_eq (List.ne_nil_of_mem he)]
  omega

/-! ### The report -/

/-- The edges of the whole benchmark: five million draws without the self-loops. -/
def benchmarkEdges (rng : Rng σ) (seed : σ) : List Edge :=
  properEdges (draws rng benchEdges.toNat seed).1

/-- The batches of the whole benchmark. -/
def benchmarkBatches (rng : Rng σ) (seed : σ) : List (List Edge) :=
  drawBatches rng (benchEdges / batchSize).toNat seed

theorem benchmarkBatches_flatten (rng : Rng σ) (seed : σ) :
    (benchmarkBatches rng seed).flatten = benchmarkEdges rng seed := by
  have hcut : (benchEdges / batchSize).toNat * batchSize.toNat = benchEdges.toNat := by decide
  rw [benchmarkBatches, drawBatches_flatten, hcut, benchmarkEdges]

theorem benchmarkEdges_lt (hrng : rng.InRange) (seed : σ) :
    ∀ e ∈ benchmarkEdges rng seed, e.1 < nodeCapacity ∧ e.2 < nodeCapacity :=
  fun e he => draws_lt hrng _ seed e (List.mem_of_mem_filter he)

theorem benchmarkEdges_length_le (rng : Rng σ) (seed : σ) :
    (benchmarkEdges rng seed).length ≤ benchEdges.toNat := by
  have hle := List.length_filter_le (fun e : Edge => decide (e.1 ≠ e.2))
    (draws rng benchEdges.toNat seed).1
  rwa [draws_length] at hle

/-- The insertion loop takes every batch in. -/
theorem insertBatches_spec (hrng : rng.InRange) {m₀ : Mem}
    (h : Holds g m₀ m (EdgeBag.empty : EdgeBag nodeCapacity edgeCapacity) 0) (p : Profile)
    (seed : σ) :
    ∃ m' total, ∃ s : EdgeBag nodeCapacity edgeCapacity,
      insertBatches rng p g (benchEdges / batchSize).toNat seed m 0 = .ok (m', .ok total) ∧
      Holds g m₀ m' s ((benchmarkBatches rng seed).countP fun b => decide (b ≠ [])) ∧
      s.edges = benchmarkEdges rng seed ∧
      total.toNat = (benchmarkEdges rng seed).length := by
  have hflat := benchmarkBatches_flatten rng seed
  have hlen := benchmarkEdges_length_le rng seed
  have hfits : benchEdges.toNat ≤ edgeCapacity.toNat := by decide
  have hsmall : edgeCapacity.toNat < 2 ^ 32 := edgeCapacity.toNat_lt
  obtain ⟨htaken, hedges⟩ := (EdgeBag.empty : EdgeBag nodeCapacity edgeCapacity).addAll_of_fits
    (benchmarkBatches rng seed) (by rw [hflat]; exact benchmarkEdges_lt hrng seed)
    (by
      show 0 + (benchmarkBatches rng seed).flatten.length ≤ edgeCapacity.toNat
      rw [hflat]
      omega)
  obtain ⟨m', hrun, h'⟩ := runBatches_refines (p := p) h (benchmarkBatches rng seed)
  rw [AllTaken.rounds htaken, Nat.zero_add] at h'
  rw [hflat] at hedges
  obtain ⟨total, hloop, htotal⟩ := insertBatches_of_run _ seed m 0 hrun htaken (by
    show 0 + (benchmarkBatches rng seed).flatten.length < 2 ^ 32
    rw [hflat]
    omega)
  refine ⟨m', total, _, hloop, h', hedges.trans (zero_add _), ?_⟩
  rw [htotal, ← hflat]
  exact Nat.zero_add _

/-- `sort_unstable_by_key(|&(_, deg)| Reverse(deg))`: a permutation by falling degree. -/
def SortsByDegree (sort : List (UInt32 × ℕ) → List (UInt32 × ℕ)) : Prop :=
  ∀ l, (sort l).Perm l ∧ (sort l).Pairwise fun a b => b.2 ≤ a.2

/-- What the report says of the edges that were drawn. -/
structure ReportsOn (edges : List Edge) (r : Report) : Prop where
  inserted : r.totalInserted.toNat = edges.length
  watermark : r.watermark = requiredBytes nodeCapacity edgeCapacity
  hot_iff : ∀ u d, (u, d) ∈ r.hotNodes ↔ hotThreshold ≤ d ∧ d = outDegree edges u
  hot_nodup : (r.hotNodes.map Prod.fst).Nodup
  falling : r.hotNodes.Pairwise fun a b => b.2 ≤ a.2

/-- No node beside the printed ones has more edges than a printed one. -/
theorem ReportsOn.top_greatest {edges : List Edge} {r : Report} (h : ReportsOn edges r)
    {u w : UInt32} {d : ℕ} (hu : (u, d) ∈ r.top) (hw : w ∉ r.top.map Prod.fst) :
    outDegree edges w ≤ d := by
  have hud := (h.hot_iff u d).mp (List.mem_of_mem_take hu)
  by_cases hhot : hotThreshold ≤ outDegree edges w
  · -- a hot node that is not printed stands behind the printed ones
    have hmem := (h.hot_iff w _).mpr ⟨hhot, rfl⟩
    have hfalling := h.falling
    rw [← List.take_append_drop 5 r.hotNodes] at hmem hfalling
    rcases List.mem_append.mp hmem with hmem | hmem
    · exact absurd (List.mem_map.mpr ⟨_, hmem, rfl⟩) hw
    · exact (List.pairwise_append.mp hfalling).2.2 _ hu _ hmem
  · omega

/-- The scan and the sort report on the edges that a memory holds. -/
theorem Holds.reportsOn {m₀ : Mem} {s : EdgeBag nodeCapacity edgeCapacity} {rounds : ℕ}
    (h : Holds g m₀ m s rounds) {edges : List Edge} (hedges : s.edges = edges)
    {sort : List (UInt32 × ℕ) → List (UInt32 × ℕ)} (hsort : SortsByDegree sort) {total : UInt32}
    (htotal : total.toNat = edges.length) :
    ∃ hot, hotNodes g m (nodeCount m).toNat 0 [] = .ok hot ∧
      ReportsOn edges ⟨total, generation m, (bumpWatermark m).toNat, sort hot⟩ := by
  obtain ⟨L, hrep, hL⟩ := h.represents
  have hperm : L.Perm edges := Multiset.coe_eq_coe.mp (hL.trans hedges)
  have hdeg : ∀ u, outDegree L u = outDegree edges u := fun u => hperm.countP_eq _
  have hcount : (nodeCount m).toNat ≤ 2 ^ 32 := Nat.le_of_lt (nodeCount m).toNat_lt
  have hscan := hotNodes_spec hrep (nodeCount m).toNat 0 []
    (by rw [Nat.zero_add]; exact hrep.nodeCount_le)
  rw [List.nil_append] at hscan
  refine ⟨_, hscan, ?_⟩
  obtain ⟨hmem, hfalling⟩ := hsort (hotAmong L 0 (nodeCount m).toNat)
  constructor
  · exact htotal
  · exact hrep.watermark
  · intro u d
    rw [hmem.mem_iff, mem_hotAmong hcount, hdeg]
    constructor
    · exact fun hud => hud.2
    · rintro ⟨hhot, rfl⟩
      refine ⟨lt_nodeCount hrep ?_, hhot, rfl⟩
      rw [hdeg]
      exact Nat.lt_of_lt_of_le (by decide) hhot
  · exact (hmem.map Prod.fst).nodup_iff.mpr (hotAmong_nodup L hcount)
  · exact hfalling

/-- **The benchmark reports on its draws.**  Whatever is drawn, the program ends without an
error: it inserts exactly the draws that are no self-loops, the generation counts the batches
with an edge, the watermark is the size of the layout, and the listed nodes are exactly those
with a thousand edges or more, each once, by falling degree; no node beside the five printed
ones has more edges than one of them. -/
theorem benchmark_counts_draws (hrng : rng.InRange)
    {sort : List (UInt32 × ℕ) → List (UInt32 × ℕ)} (hsort : SortsByDegree sort) (p : Profile)
    (seed : σ) :
    ∃ r, main rng p sort seed = .ok (.ok r) ∧ ReportsOn (benchmarkEdges rng seed) r ∧
      r.generation.toNat = (benchmarkBatches rng seed).countP (fun b => decide (b ≠ [])) ∧
      ∀ u d, (u, d) ∈ r.top → ∀ w, w ∉ r.top.map Prod.fst →
        outDegree (benchmarkEdges rng seed) w ≤ d := by
  have hlay : Layout nodeCapacity edgeCapacity := by decide
  obtain ⟨m, g, hinit, -, -⟩ := init_ok (fun _ => 0) hlay (Nat.le_refl _) p
  obtain ⟨m', total, s, hloop, h', hedges, htotal⟩ :=
    insertBatches_spec hrng (holds_of_init hlay hinit) p seed
  obtain ⟨hot, hscan, hreport⟩ := Holds.reportsOn h' hedges hsort htotal
  refine ⟨_, ?_, hreport, h'.generation_eq, fun u d hu w hw => hreport.top_greatest hu hw⟩
  rw [main, hinit, ok_bind]
  show runBenchmark rng p sort g m seed = _
  rw [runBenchmark, hloop, ok_bind]
  show (hotNodes g m' (nodeCount m').toNat 0 [] >>= _) = _
  rw [hscan, ok_bind]

/-- The stable sort is one such sort. -/
def sortByDegree (l : List (UInt32 × ℕ)) : List (UInt32 × ℕ) :=
  l.mergeSort fun a b => decide (b.2 ≤ a.2)

theorem sortByDegree_sorts : SortsByDegree sortByDegree := by
  intro l
  refine ⟨List.mergeSort_perm l _, ?_⟩
  apply (List.pairwise_mergeSort _ _ l).imp
  · exact fun hab => of_decide_eq_true hab
  · intro a b c hab hbc
    exact decide_eq_true (Nat.le_trans (of_decide_eq_true hbc) (of_decide_eq_true hab))
  · intro a b
    rw [Bool.or_eq_true, decide_eq_true_eq, decide_eq_true_eq]
    exact Nat.le_total b.2 a.2

/-- A generator that walks through the nodes. -/
def walkRng : Rng ℕ where
  genBool s := (s % 5 = 0, s)
  genRange hi s := (if UInt32.ofNat s < hi then UInt32.ofNat s else 0, s + 1)

theorem walkRng_inRange : walkRng.InRange := by
  intro hi s hpos
  show (if UInt32.ofNat s < hi then UInt32.ofNat s else 0) < hi
  split
  · assumption
  · exact hpos

theorem benchmark_counts_draws_walk :
    ∃ r, main walkRng .dev sortByDegree 3 = .ok (.ok r) ∧ ReportsOn (benchmarkEdges walkRng 3) r :=
  (benchmark_counts_draws walkRng_inRange sortByDegree_sorts .dev 3).imp fun _ h => ⟨h.1, h.2.1⟩

end NexusCore.Csr.Benchmark
