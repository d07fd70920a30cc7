import NexusCore.Csr.Runs
import NexusCore.Foundation.Search

/-!
# Point and reverse queries

`edgeExists` searches the row of its source; `getFollowers` asks it once for every source
below the node count.  Both answer from what the memory holds:

* `edgeExists_spec`: the search finds exactly the edges of the bag;
* `getFollowers_spec`: the sources below the node count are enough, since the rows from
  there on are empty;
* `csr_queries_agree`: point, forward and reverse queries speak of one edge set after
  every run.
-/

namespace NexusCore.Csr

open Foundation.Machine Foundation.LinearMemory Foundation.Search

/-! ### The queries -/

/-- `neighbors.binary_search(&dst)`. -/
def binarySearch (neighbors : List UInt32) (dst : UInt32) : Except ℕ ℕ :=
  binarySearchBy (fun v => compare v dst) neighbors

def edgeExists (g : CsrGraph) (m : Mem) (src dst : UInt32) : Checked Bool := do
  match ← getFollowing g m src with
  | .ok neighbors => .ok (binarySearch neighbors dst).isOk
  | .error _ => .ok false

/-- The sources `src, …, src + k - 1` that have an edge to `nodeId`, behind `acc`. -/
def collectFollowers (g : CsrGraph) (m : Mem) (nodeId : UInt32) :
    ℕ → ℕ → List UInt32 → Checked (List UInt32)
  | 0, _, acc => .ok acc
  | k + 1, src, acc => do
      let hit ← edgeExists g m (UInt32.ofNat src) nodeId
      collectFollowers g m nodeId k (src + 1) (if hit then acc ++ [UInt32.ofNat src] else acc)

def getFollowers (g : CsrGraph) (m : Mem) (nodeId : UInt32) : Checked (Result (List UInt32)) :=
  if nodeCapacity m ≤ nodeId then .ok (.error "invalid node ID")
  else do
    let followers ← collectFollowers g m nodeId (nodeCount m).toNat 0 []
    .ok (.ok followers)

/-! ### Searching a row -/

variable {p : Profile} {g : CsrGraph} {nodeCap edgeCap : UInt32} {m₀ m : Mem}
  {s : EdgeBag nodeCap edgeCap} {rounds : ℕ}

/-- An ascending row is laid out for the search of any target. -/
theorem arranged_of_ascending {row : List UInt32} (h : row.Pairwise (· ≤ ·)) (dst : UInt32) :
    Arranged (fun v => compare v dst) row := by
  apply h.imp
  intro a b hab
  simp only [UInt32.le_iff_toNat_le] at hab
  simp only [compare, compareOfLessAndEq, UInt32.lt_iff_toNat_lt, ← UInt32.toNat_inj]
  refine ⟨fun hb => ?_, fun ha => ?_⟩
  · have hlt : b.toNat < dst.toNat := by
      by_contra hge
      rw [if_neg hge] at hb
      split at hb <;> cases hb
    rw [if_pos (by omega)]
  · have hgt : ¬ a.toNat < dst.toNat ∧ ¬ a.toNat = dst.toNat := by
      constructor
      · intro hlt
        rw [if_pos hlt] at ha
        cases ha
      · intro heq
        rw [if_neg (by omega), if_pos heq] at ha
        cases ha
    rw [if_neg (by omega), if_neg (by omega)]

theorem compare_eq_iff {a b : UInt32} : compare a b = .eq ↔ a = b := by
  simp only [compare, compareOfLessAndEq]
  constructor
  · intro h
    by_contra hne
    rw [if_neg hne] at h
    split at h <;> cases h
  · rintro rfl
    rw [if_neg (by simp), if_pos rfl]

/-- Searching an ascending row decides membership. -/
theorem binarySearch_isOk {row : List UInt32} (h : row.Pairwise (· ≤ ·)) (dst : UInt32) :
    (binarySearch row dst).isOk = true ↔ dst ∈ row := by
  have hsearch := binarySearchBy_isOk_iff (arranged_of_ascending h dst)
  have hok : (binarySearch row dst).isOk = true ↔ ∃ i, binarySearch row dst = .ok i := by
    cases binarySearch row dst with
    | ok i => simp [Except.isOk, Except.toBool]
    | error i => simp [Except.isOk, Except.toBool]
  rw [hok, binarySearch, hsearch]
  constructor
  · rintro ⟨a, ha, heq⟩
    rw [← compare_eq_iff.mp heq]
    exact ha
  · intro hmem
    exact ⟨dst, hmem, compare_eq_iff.mpr rfl⟩

/-- A forward query of an unknown node is refused. -/
theorem Holds.getFollowing_of_ge (h : Holds g m₀ m s rounds) {u : UInt32} (hu : nodeCap ≤ u) :
    Csr.getFollowing g m u = .ok (.error "invalid node ID") := by
  obtain ⟨L, hrep, -⟩ := h.represents
  exact Csr.getFollowing_of_ge hrep hu

/-- **A point query finds exactly the held edges.** -/
theorem edgeExists_spec (h : Holds g m₀ m s rounds) (src dst : UInt32) :
    ∃ b, edgeExists g m src dst = .ok b ∧ (b = true ↔ (src, dst) ∈ s.edges) := by
  by_cases hsrc : src < nodeCap
  · obtain ⟨row, hrow, hsorted, hcount⟩ :=
      h.getFollowing (E := s.edges.toList) (by rw [Multiset.coe_toList]) hsrc
    refine ⟨_, by rw [edgeExists, hrow]; rfl, ?_⟩
    rw [binarySearch_isOk hsorted, ← List.count_pos_iff, hcount, List.count_pos_iff,
      Multiset.mem_toList]
  · refine ⟨false, by rw [edgeExists, h.getFollowing_of_ge (UInt32.not_lt.mp hsrc)]; rfl, ?_⟩
    constructor
    · intro hfalse
      cases hfalse
    · intro hmem
      exact absurd (s.ids _ hmem).1 hsrc

/-! ### Scanning the sources -/

/-- The scan keeps the sources with an edge to its target, in ascending order. -/
theorem collectFollowers_spec (h : Holds g m₀ m s rounds) (v : UInt32) (k src : ℕ)
    (acc : List UInt32) :
    collectFollowers g m v k src acc
      = .ok (acc ++ ((List.range' src k).map UInt32.ofNat).filter
          fun u => decide ((u, v) ∈ s.edges)) := by
  induction k generalizing src acc with
  | zero => simp [collectFollowers]
  | succ k ih =>
      obtain ⟨hit, hedge, hhit⟩ := edgeExists_spec h (UInt32.ofNat src) v
      rw [collectFollowers, hedge, ok_bind, ih, List.range'_succ, List.map_cons, List.filter_cons]
      cases hit with
      | true =>
          rw [if_pos rfl, if_pos (decide_eq_true (hhit.mp rfl)), List.append_assoc]
          rfl
      | false =>
          have hnone : ¬ (UInt32.ofNat src, v) ∈ s.edges := fun hc => Bool.noConfusion (hhit.mpr hc)
          rw [if_neg (by decide), if_neg (by rw [decide_eq_false hnone]; decide)]

/-- Every source of a held edge lies below the node count. -/
theorem Holds.src_lt_nodeCount (h : Holds g m₀ m s rounds) {u v : UInt32}
    (huv : (u, v) ∈ s.edges) : u.toNat < (nodeCount m).toNat := by
  obtain ⟨L, hrep, hL⟩ := h.represents
  have hmem : (u, v) ∈ L := by
    rw [← hL] at huv
    exact Multiset.mem_coe.mp huv
  have hle := UInt32.le_iff_toNat_le.mp (le_maxSrc hmem)
  rw [hrep.nodeCount_eq (List.ne_nil_of_mem hmem)]
  exact Nat.lt_succ_of_le hle

/-- **A reverse query lists exactly the sources of the held edges to its node**, ascending
and without duplicates. -/
theorem getFollowers_spec (h : Holds g m₀ m s rounds) {v : UInt32} (hv : v < nodeCap) :
    ∃ fs, getFollowers g m v = .ok (.ok fs) ∧ fs.Pairwise (· < ·) ∧
      ∀ u, u ∈ fs ↔ (u, v) ∈ s.edges := by
  obtain ⟨L, hrep, -⟩ := h.represents
  have h32 := (nodeCount m).toNat_lt
  refine ⟨((List.range' 0 (nodeCount m).toNat).map UInt32.ofNat).filter
    fun u => decide ((u, v) ∈ s.edges), ?_, ?_, ?_⟩
  · rw [getFollowers, hrep.node_capacity, if_neg (UInt32.not_le.mpr hv),
      collectFollowers_spec h v _ 0 [], ok_bind, List.nil_append]
  · apply List.Pairwise.filter
    rw [List.pairwise_map]
    apply List.Pairwise.imp_of_mem _ List.pairwise_lt_range'
    intro a b ha hb hab
    have ha' := (List.mem_range'_1.mp ha).2
    have hb' := (List.mem_range'_1.mp hb).2
    rw [UInt32.lt_iff_toNat_lt, UInt32.toNat_ofNat', UInt32.toNat_ofNat',
      Nat.mod_eq_of_lt (by omega), Nat.mod_eq_of_lt (by omega)]
    exact hab
  · intro u
    rw [List.mem_filter, decide_eq_true_eq, and_iff_right_iff_imp]
    intro huv
    refine List.mem_map.mpr ⟨u.toNat, ?_, UInt32.ofNat_toNat⟩
    have hlt := h.src_lt_nodeCount huv
    exact List.mem_range'_1.mpr ⟨Nat.zero_le _, by omega⟩

theorem getFollowers_of_ge (h : Holds g m₀ m s rounds) {v : UInt32} (hv : nodeCap ≤ v) :
    getFollowers g m v = .ok (.error "invalid node ID") := by
  obtain ⟨L, hrep, -⟩ := h.represents
  rw [getFollowers, hrep.node_capacity, if_pos hv]

/-- What a forward query says about one edge. -/
theorem Holds.mem_getFollowing (h : Holds g m₀ m s rounds) (u v : UInt32) :
    (∃ row, Csr.getFollowing g m u = .ok (.ok row) ∧ v ∈ row) ↔ (u, v) ∈ s.edges := by
  by_cases hu : u < nodeCap
  · obtain ⟨row, hrow, -, hcount⟩ :=
      h.getFollowing (E := s.edges.toList) (by rw [Multiset.coe_toList]) hu
    have hmem : v ∈ row ↔ (u, v) ∈ s.edges := by
      rw [← List.count_pos_iff, hcount, List.count_pos_iff, Multiset.mem_toList]
    rw [hrow, ← hmem]
    constructor
    · rintro ⟨row', heq, hv⟩
      cases heq
      exact hv
    · intro hv
      exact ⟨row, rfl, hv⟩
  · rw [h.getFollowing_of_ge (UInt32.not_lt.mp hu)]
    constructor
    · rintro ⟨row, heq, -⟩
      cases heq
    · intro hmem
      exact absurd (s.ids _ hmem).1 hu

/-! ### After every run -/

/-- A point query with an unknown node at either end is answered `false`. -/
theorem edgeExists_of_ge (h : Holds g m₀ m s rounds) {src dst : UInt32}
    (hout : nodeCap ≤ src ∨ nodeCap ≤ dst) : edgeExists g m src dst = .ok false := by
  obtain ⟨b, hb, hiff⟩ := edgeExists_spec h src dst
  cases b with
  | false => exact hb
  | true =>
      have hids := s.ids _ (hiff.mp rfl)
      rcases hout with hsrc | hdst
      · exact absurd hids.1 (UInt32.not_lt.mpr hsrc)
      · exact absurd hids.2 (UInt32.not_lt.mpr hdst)

/-- **Point, forward and reverse queries agree with the accepted edges.**  The batches are
answered as the bag of edges answers them.  After every run a point query is true exactly on
the accepted edges, and false for a node that is out of range; a reverse query lists exactly
the accepted sources in strictly ascending order, as the forward queries have them, and is
refused exactly from the node capacity on. -/
theorem csr_queries_agree {memLen : ℕ} (hlay : Layout nodeCap edgeCap)
    (hinit : init p m₀ memLen nodeCap edgeCap = .ok (m, .ok g)) (batches : List (List Edge)) :
    ∃ m' rs, runBatches p g m batches = .ok (m', rs) ∧
      rs = (EdgeBag.empty : EdgeBag nodeCap edgeCap).answers batches ∧
      (∀ src dst, ∃ b, edgeExists g m' src dst = .ok b ∧
        (b = true ↔ (src, dst) ∈ acceptedEdges batches rs)) ∧
      (∀ src dst, nodeCap ≤ src ∨ nodeCap ≤ dst → edgeExists g m' src dst = .ok false) ∧
      (∀ v < nodeCap, ∃ fs, getFollowers g m' v = .ok (.ok fs) ∧ fs.Pairwise (· < ·) ∧
        (∀ u, u ∈ fs ↔ (u, v) ∈ acceptedEdges batches rs) ∧
        (∀ u, u ∈ fs ↔ ∃ row, getFollowing g m' u = .ok (.ok row) ∧ v ∈ row)) ∧
      (∀ v, (∃ e, getFollowers g m' v = .ok (.error e)) ↔ nodeCap ≤ v) := by
  obtain ⟨m', hrun, h'⟩ := runBatches_refines (p := p) (holds_of_init hlay hinit) batches
  have hedges := (EdgeBag.empty : EdgeBag nodeCap edgeCap).addAll_edges batches
  rw [show (EdgeBag.empty : EdgeBag nodeCap edgeCap).edges = 0 from rfl, zero_add] at hedges
  refine ⟨m', _, hrun, rfl, ?_, ?_, ?_, ?_⟩
  · intro src dst
    obtain ⟨b, hb, hiff⟩ := edgeExists_spec h' src dst
    rw [hedges, Multiset.mem_coe] at hiff
    exact ⟨b, hb, hiff⟩
  · intro src dst hout
    exact edgeExists_of_ge h' hout
  · intro v hv
    obtain ⟨fs, hfs, hlt, hmem⟩ := getFollowers_spec h' hv
    refine ⟨fs, hfs, hlt, ?_, ?_⟩
    · intro u
      rw [hmem u, hedges, Multiset.mem_coe]
    · intro u
      rw [hmem u, h'.mem_getFollowing u v]
  · intro v
    constructor
    · rintro ⟨e, he⟩
      by_contra hlt
      obtain ⟨fs, hfs, -⟩ := getFollowers_spec h' (UInt32.not_le.mp hlt)
      rw [hfs] at he
      cases he
    · intro hv
      exact ⟨_, getFollowers_of_ge h' hv⟩

theorem csr_queries_agree_small :
    ∃ m g, init .dev (fun _ => 7) 100 3 4 = .ok (m, .ok g) ∧
      ∃ m' rs, runBatches .dev g m [[(2, 1), (0, 1)], [(5, 1)], [(2, 1)]] = .ok (m', rs) ∧
        edgeExists g m' 5 1 = .ok false ∧
        ∃ fs, getFollowers g m' 1 = .ok (.ok fs) ∧ fs.Pairwise (· < ·) ∧
          ∀ u, u ∈ fs ↔ (u, 1) ∈ acceptedEdges [[(2, 1), (0, 1)], [(5, 1)], [(2, 1)]] rs := by
  obtain ⟨m, g, hinit, -⟩ := @init_ok 3 4 100 (fun _ => 7) (by decide) (by decide) .dev
  obtain ⟨m', rs, hrun, -, -, houtside, hfollowers, -⟩ :=
    csr_queries_agree (by decide) hinit [[(2, 1), (0, 1)], [(5, 1)], [(2, 1)]]
  obtain ⟨fs, hfs, hlt, hmem, -⟩ := hfollowers 1 (by decide)
  exact ⟨m, g, hinit, m', rs, hrun, houtside 5 1 (Or.inl (by decide)), fs, hfs, hlt, hmem⟩

end NexusCore.Csr
