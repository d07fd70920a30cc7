import NexusCore.Csr.EdgeBag

/-!
# Whole runs of the graph store

What holds after `init` and any sequence of batches, whatever the batches and whether they
were accepted:

* `csr_refines_multiset`: the rows answer for exactly the accepted edges;
* `csr_invariant_of_run`: the representation invariant `CsrInvariant`, and with it that no
  further call can fault, report corruption or reach the saturation of the prefix sums;
* `csr_schedules_agree`: cutting and ordering a list of edges differently changes nothing but
  the generation.
-/

namespace NexusCore.Csr

open Foundation.Machine Foundation.LinearMemory Foundation.KeyedList

variable {p : Profile} {g : CsrGraph} {nodeCap edgeCap : UInt32} {m m' : Mem}

/-- **The store refines a multiset of edges.**  The batches are answered as the bag of edges
answers them.  After every prefix of every sequence of batches, the rows are the ascending
targets of the accepted edges, with their multiplicity; an accepted batch is answered with
its length, and the edge count is the number of accepted edges. -/
theorem csr_refines_multiset {memLen : ℕ} {m₀ : Mem} (hlay : Layout nodeCap edgeCap)
    (hinit : init p m₀ memLen nodeCap edgeCap = .ok (m, .ok g)) (batches : List (List Edge)) :
    ∃ mEnd rs, runBatches p g m batches = .ok (mEnd, rs) ∧
      rs = (EdgeBag.empty : EdgeBag nodeCap edgeCap).answers batches ∧
      List.Forall₂ (fun b r => ∀ n, r = .ok n → n.toNat = b.length) batches rs ∧
      ∀ k ≤ batches.length, ∃ mₖ, runBatches p g m (batches.take k) = .ok (mₖ, rs.take k) ∧
        (edgeCount mₖ).toNat = (acceptedEdges (batches.take k) (rs.take k)).length ∧
        ∀ u < nodeCap, ∃ row, getFollowing g mₖ u = .ok (.ok row) ∧
          row.Pairwise (· ≤ ·) ∧
          ∀ v, row.count v = (acceptedEdges (batches.take k) (rs.take k)).count (u, v) := by
  have h₀ := holds_of_init hlay hinit
  obtain ⟨mEnd, hrun, -⟩ := runBatches_refines (p := p) h₀ batches
  refine ⟨mEnd, _, hrun, rfl, EdgeBag.answers_length _ batches, ?_⟩
  intro k _
  obtain ⟨mₖ, hrunₖ, hₖ⟩ := runBatches_refines (p := p) h₀ (batches.take k)
  have hedges := (EdgeBag.empty : EdgeBag nodeCap edgeCap).addAll_edges (batches.take k)
  rw [EdgeBag.answers_take] at hrunₖ hedges
  have hbag : (EdgeBag.empty : EdgeBag nodeCap edgeCap).edges = 0 := rfl
  rw [hbag, zero_add] at hedges
  refine ⟨mₖ, hrunₖ, ?_, ?_⟩
  · rw [hₖ.edgeCount_eq, hedges, Multiset.coe_card]
  · intro u hu
    obtain ⟨row, hrow, hsorted, hcount⟩ := hₖ.getFollowing hedges hu
    exact ⟨row, hrow, hsorted, hcount⟩

/-- Three nodes, room for four edges, two batches: the theorem at a concrete region. -/
theorem csr_refines_multiset_small :
    ∃ m g, init .dev (fun _ => 7) 100 3 4 = .ok (m, .ok g) ∧
      ∃ mEnd rs, runBatches .dev g m [[(2, 0), (0, 2)], [(0, 1)]] = .ok (mEnd, rs) ∧
        ∃ row, getFollowing g mEnd 0 = .ok (.ok row) ∧ row.Pairwise (· ≤ ·) ∧
          ∀ v, row.count v = (acceptedEdges [[(2, 0), (0, 2)], [(0, 1)]] rs).count (0, v) := by
  obtain ⟨m, g, hinit, -⟩ := @init_ok 3 4 100 (fun _ => 7) (by decide) (by decide) .dev
  obtain ⟨mEnd, rs, hrun, -, hlen, hprefix⟩ :=
    csr_refines_multiset (by decide) hinit [[(2, 0), (0, 2)], [(0, 1)]]
  obtain ⟨mₖ, hrunₖ, -, hrows⟩ := hprefix 2 (by decide)
  have hrs : rs.take 2 = rs := List.take_of_length_le (by rw [← hlen.length_eq]; decide)
  rw [hrs] at hrunₖ hrows
  rw [show List.take 2 [[(2, 0), (0, 2)], [((0 : UInt32), (1 : UInt32))]]
    = [[(2, 0), (0, 2)], [(0, 1)]] from rfl] at hrunₖ hrows
  exact ⟨m, g, hinit, mₖ, rs, hrunₖ, hrows 0 (by decide)⟩

/-! ### The representation invariant -/

/-- Row pointer `u`. -/
def rowPtrAt (m : Mem) (u : ℕ) : ℕ := (readU32 m ((rowPtrOffset m).toNat + 4 * u)).toNat

/-- Column `i`. -/
def colIdxAt (m : Mem) (i : ℕ) : UInt32 := readU32 m ((colIdxOffset m).toNat + 4 * i)

/-- The representation invariant of a graph memory `m` that started as `m₀`. -/
structure CsrInvariant (nodeCap : UInt32) (m₀ m : Mem) : Prop where
  row_zero : rowPtrAt m 0 = 0
  row_mono : ∀ i j, i ≤ j → j ≤ nodeCap.toNat → rowPtrAt m i ≤ rowPtrAt m j
  row_last : rowPtrAt m nodeCap.toNat = (edgeCount m).toNat
  count_le : (edgeCount m).toNat ≤ (edgeCapacity m).toNat
  row_sorted : ∀ u < nodeCap.toNat, ∀ i j, rowPtrAt m u ≤ i → i ≤ j → j < rowPtrAt m (u + 1) →
    colIdxAt m i ≤ colIdxAt m j
  col_lt : ∀ i < (edgeCount m).toNat, colIdxAt m i < nodeCapacity m
  row_empty : ∀ u, (nodeCount m).toNat ≤ u → u < nodeCap.toNat → rowPtrAt m (u + 1) = rowPtrAt m u
  last_row : 0 < (edgeCount m).toNat → 0 < (nodeCount m).toNat ∧
    rowPtrAt m ((nodeCount m).toNat - 1) < rowPtrAt m (nodeCount m).toNat
  node_count_le : (nodeCount m).toNat ≤ nodeCap.toNat
  node_capacity : nodeCapacity m = nodeCapacity m₀ ∧ nodeCapacity m = nodeCap
  edge_capacity : edgeCapacity m = edgeCapacity m₀
  row_ptr_offset : rowPtrOffset m = rowPtrOffset m₀
  col_idx_offset : colIdxOffset m = colIdxOffset m₀
  watermark : bumpWatermark m = bumpWatermark m₀

variable {L : List Edge}

theorem Represents.rowPtrAt_eq (h : Represents g nodeCap edgeCap m L) {u : ℕ}
    (hu : u ≤ nodeCap.toNat) : rowPtrAt m u = below srcKey u L := by
  rw [rowPtrAt, h.row_ptr_offset]
  exact h.row_ptr u (Nat.lt_succ_of_le hu)

theorem Represents.colIdxAt_eq (h : Represents g nodeCap edgeCap m L) {i : ℕ} (hi : i < L.length) :
    colIdxAt m i = L[i].2 := by
  have hword := congrArg (fun l : List UInt32 => l[i]?) h.col_idx
  simp only [Slice.words, colSlice, List.getElem?_map, List.getElem?_range hi, Option.map_some,
    List.getElem?_eq_getElem hi, Option.some.injEq] at hword
  rw [colIdxAt, h.col_idx_offset]
  exact hword

theorem Represents.nodeCount_eq (h : Represents g nodeCap edgeCap m L) (hne : L ≠ []) :
    (nodeCount m).toNat = (maxSrc L).toNat + 1 := by
  have hmax := maxSrc_lt hne h.src_lt
  have hcap := nodeCap.toNat_lt
  rw [h.node_count, rowsUsed_of_ne hne, toNat_add32_of_lt]
  · rfl
  · rw [show (1 : UInt32).toNat = 1 from rfl]
    omega

theorem Represents.nodeCount_le (h : Represents g nodeCap edgeCap m L) :
    (nodeCount m).toNat ≤ nodeCap.toNat := by
  by_cases hne : L = []
  · rw [h.node_count, rowsUsed, if_pos hne]
    exact Nat.zero_le _
  · rw [h.nodeCount_eq hne]
    exact maxSrc_lt hne h.src_lt

/-- Within a row the columns do not decrease. -/
theorem Represents.colIdxAt_le (h : Represents g nodeCap edgeCap m L) {u i j : ℕ}
    (hu : u < nodeCap.toNat) (hi : rowPtrAt m u ≤ i) (hij : i ≤ j) (hj : j < rowPtrAt m (u + 1)) :
    colIdxAt m i ≤ colIdxAt m j := by
  have hks := keySorted_of_edgeLe h.sorted
  rw [h.rowPtrAt_eq (Nat.le_of_lt hu)] at hi
  rw [h.rowPtrAt_eq hu] at hj
  have hlen : j < L.length := Nat.lt_of_lt_of_le hj (below_le_length srcKey (u + 1) L)
  have hi' : i < L.length := Nat.lt_of_le_of_lt hij hlen
  have hki := hks.key_getElem hi' hi (Nat.lt_of_le_of_lt hij hj)
  have hkj := hks.key_getElem hlen (Nat.le_trans hi hij) hj
  rw [h.colIdxAt_eq hi', h.colIdxAt_eq hlen, UInt32.le_iff_toNat_le]
  rcases Nat.lt_or_eq_of_le hij with hlt | rfl
  · have hpair := edgeLe_iff.mp (List.pairwise_iff_getElem.mp h.sorted i j hi' hlen hlt)
    rw [← srcKey, ← srcKey, hki, hkj] at hpair
    omega
  · exact Nat.le_refl _

/-- The rows from the node count on are empty. -/
theorem Represents.row_empty (h : Represents g nodeCap edgeCap m L) {u : ℕ}
    (hlo : (nodeCount m).toNat ≤ u) (hu : u < nodeCap.toNat) :
    rowPtrAt m (u + 1) = rowPtrAt m u := by
  rw [h.rowPtrAt_eq hu, h.rowPtrAt_eq (Nat.le_of_lt hu), below_succ]
  suffices hnone : sizeAt srcKey u L = 0 by rw [hnone, Nat.add_zero]
  apply List.countP_eq_zero.mpr
  intro e he hkey
  have hmax := UInt32.le_iff_toNat_le.mp (le_maxSrc he)
  have hku : e.1.toNat = u := of_decide_eq_true hkey
  rw [h.nodeCount_eq (List.ne_nil_of_mem he)] at hlo
  omega

/-- The row before the node count holds an edge. -/
theorem Represents.last_row (h : Represents g nodeCap edgeCap m L) (hne : L ≠ []) :
    rowPtrAt m (maxSrc L).toNat < rowPtrAt m ((maxSrc L).toNat + 1) := by
  have hlt := maxSrc_lt hne h.src_lt
  obtain ⟨e, he, hmax⟩ := exists_maxSrc hne
  have hsome : 0 < sizeAt srcKey (maxSrc L).toNat L := by
    apply List.countP_pos_iff.mpr
    exact ⟨e, he, decide_eq_true (by rw [srcKey, hmax])⟩
  rw [h.rowPtrAt_eq (Nat.le_of_lt hlt), h.rowPtrAt_eq hlt, below_succ]
  omega

/-- **A represented memory satisfies the invariant.** -/
theorem Represents.invariant {m₀ : Mem} {L₀ : List Edge} (h₀ : Represents g nodeCap edgeCap m₀ L₀)
    (h : Represents g nodeCap edgeCap m L) : CsrInvariant nodeCap m₀ m where
  row_zero := by rw [h.rowPtrAt_eq (Nat.zero_le _), below_zero]
  row_mono := by
    intro i j hij hj
    rw [h.rowPtrAt_eq (Nat.le_trans hij hj), h.rowPtrAt_eq hj]
    exact below_mono srcKey hij L
  row_last := by
    rw [h.rowPtrAt_eq (Nat.le_refl _), below_eq_length srcKey h.src_lt, h.edge_count]
  count_le := by
    rw [h.edge_count, h.edge_capacity]
    exact h.capacity
  row_sorted := fun _ hu _ _ hi hij hj => h.colIdxAt_le hu hi hij hj
  col_lt := by
    intro i hi
    rw [h.edge_count] at hi
    rw [h.colIdxAt_eq hi, h.node_capacity]
    exact (h.ids _ (List.getElem_mem hi)).2
  row_empty := fun _ hlo hu => h.row_empty hlo hu
  last_row := by
    intro hpos
    rw [h.edge_count] at hpos
    have hne : L ≠ [] := List.length_pos_iff.mp hpos
    rw [h.nodeCount_eq hne]
    exact ⟨Nat.succ_pos _, h.last_row hne⟩
  node_count_le := h.nodeCount_le
  node_capacity := ⟨h.node_capacity.trans h₀.node_capacity.symm, h.node_capacity⟩
  edge_capacity := h.edge_capacity.trans h₀.edge_capacity.symm
  row_ptr_offset := h.row_ptr_offset.trans h₀.row_ptr_offset.symm
  col_idx_offset := UInt32.toNat_inj.mp (h.col_idx_offset.trans h₀.col_idx_offset.symm)
  watermark := UInt32.toNat_inj.mp (h.watermark.trans h₀.watermark.symm)

/-- The texts by which the store reports a damaged memory. -/
def corruptionErrors : List String :=
  ["corrupted CSR header", "corrupted CSR (row_ptr out of range)",
    "corrupted CSR (scatter out of capacity)", "corrupted header"]

/-- The bag answers with none of the corruption errors. -/
theorem EdgeBag.add_not_corrupted (s : EdgeBag nodeCap edgeCap) (b : List Edge) :
    ∀ t ∈ corruptionErrors, (s.add b).2 ≠ .error t := by
  intro t ht heq
  unfold EdgeBag.add at heq
  split at heq
  · cases heq
  · split at heq
    · cases heq
      exact absurd ht (by decide)
    · split at heq
      · cases heq
        exact absurd ht (by decide)
      · cases heq

/-- **The representation invariant holds after every run**, the generation counts the
accepted non-empty batches, and the next call of either kind, with any argument, returns: it
reports no corruption, reaches no saturation of the prefix sums (an addition that faults on
overflow gives the same run), and writes no column from the new edge count on. -/
theorem csr_invariant_of_run {memLen : ℕ} {m₀ : Mem} (hlay : Layout nodeCap edgeCap)
    (hinit : init p m₀ memLen nodeCap edgeCap = .ok (m, .ok g)) (batches : List (List Edge)) :
    ∃ m' rs, runBatches p g m batches = .ok (m', rs) ∧ CsrInvariant nodeCap m m' ∧
      (generation m').toNat = acceptedRounds batches rs ∧
      (∀ b, ∃ m'' r, addEdgeBatch p g m' b = .ok (m'', r) ∧
        (∀ t ∈ corruptionErrors, r ≠ .error t) ∧
        addEdgeBatchWith (Profile.add32 .dev) p g m' b = addEdgeBatch p g m' b ∧
        ∀ x, (colIdxOffset m'').toNat + 4 * (edgeCount m'').toNat ≤ x → m'' x = m' x) ∧
      (∀ u, ∃ r, getFollowing g m' u = .ok r ∧ ∀ t ∈ corruptionErrors, r ≠ .error t) := by
  obtain ⟨hrep₀, -⟩ := init_spec hlay hinit
  obtain ⟨m', hrun, h'⟩ := runBatches_refines (p := p) (holds_of_init hlay hinit) batches
  obtain ⟨L, hrep, hL⟩ := h'.represents
  have hgen := h'.generation_eq
  rw [Nat.zero_add] at hgen
  refine ⟨m', _, hrun, hrep₀.invariant hrep, hgen, ?_, ?_⟩
  · intro b
    obtain ⟨m'', hadd, h''⟩ := addEdgeBatch_refines (p := p) h' b
    obtain ⟨m₂, hadd₂, h₂⟩ := addEdgeBatchWith_refines (p := p) (exactAdd_add32 .dev) h' b
    refine ⟨m'', _, hadd, EdgeBag.add_not_corrupted _ b, ?_, ?_⟩
    · rw [hadd, hadd₂, h₂.eq h'']
    · intro x hx
      obtain ⟨L'', hrep'', hL''⟩ := h''.represents
      rw [hrep''.col_idx_offset, h''.edgeCount_eq] at hx
      -- both memories agree with the one `init` left from the used columns on
      have hmono : ((EdgeBag.empty : EdgeBag nodeCap edgeCap).addAll batches).edges.card ≤
          (((EdgeBag.empty : EdgeBag nodeCap edgeCap).addAll batches).add b).1.edges.card := by
        rw [EdgeBag.add_edges, Multiset.card_add]
        exact Nat.le_add_right _ _
      rw [h''.frame x (not_mem_touched hx), h'.frame x (not_mem_touched (by omega))]
  · intro u
    by_cases hu : u < nodeCap
    · exact ⟨_, getFollowing_spec hrep hu, fun t _ heq => by cases heq⟩
    · refine ⟨_, getFollowing_of_ge hrep (UInt32.not_lt.mp hu), ?_⟩
      intro t ht heq
      cases heq
      exact absurd ht (by decide)

theorem csr_invariant_of_run_small :
    ∃ m g, init .release (fun _ => 7) 100 3 4 = .ok (m, .ok g) ∧
      ∃ m' rs, runBatches .release g m [[(2, 0), (0, 2)], [(7, 1)], [], [(0, 1)]] = .ok (m', rs) ∧
        CsrInvariant 3 m m' ∧ (generation m').toNat
          = acceptedRounds [[(2, 0), (0, 2)], [(7, 1)], [], [(0, 1)]] rs := by
  obtain ⟨m, g, hinit, -⟩ := @init_ok 3 4 100 (fun _ => 7) (by decide) (by decide) .release
  obtain ⟨m', rs, hrun, hinv, hgen, -⟩ :=
    csr_invariant_of_run (by decide) hinit [[(2, 0), (0, 2)], [(7, 1)], [], [(0, 1)]]
  exact ⟨m, g, hinit, m', rs, hrun, hinv, hgen⟩

/-! ### Schedules -/

/-- Batches that fit are all taken in. -/
theorem EdgeBag.addAll_of_fits (s : EdgeBag nodeCap edgeCap) (bs : List (List Edge))
    (hids : ∀ e ∈ bs.flatten, e.1 < nodeCap ∧ e.2 < nodeCap)
    (hfits : s.edges.card + bs.flatten.length ≤ edgeCap.toNat) :
    List.Forall₂ (fun b r => ∃ n, r = .ok n ∧ n.toNat = b.length) bs (s.answers bs) ∧
      (s.addAll bs).edges = s.edges + bs.flatten := by
  induction bs generalizing s with
  | nil => exact ⟨List.Forall₂.nil, by simp [EdgeBag.addAll]⟩
  | cons b bs ih =>
      rw [List.flatten_cons, List.length_append] at hfits
      have hanswer : ∃ n, (s.add b).2 = .ok n := by
        unfold EdgeBag.add
        split
        · exact ⟨_, rfl⟩
        · rw [dif_neg (by omega), dif_neg]
          · exact ⟨_, rfl⟩
          · rintro ⟨e, he, hc⟩
            have hlt := hids e (by simp [he])
            rcases hc with hc | hc
            · exact UInt32.not_le.mpr hlt.1 hc
            · exact UInt32.not_le.mpr hlt.2 hc
      obtain ⟨n, hn⟩ := hanswer
      have hstep : (s.add b).1.edges = s.edges + b := by
        rw [s.add_edges, hn]
        simp [acceptedEdges]
      obtain ⟨hrest, hedges⟩ := ih (s.add b).1
        (fun e he => hids e (by
          rw [List.flatten_cons]
          exact List.mem_append_right _ he))
        (by rw [hstep, Multiset.card_add, Multiset.coe_card]; omega)
      refine ⟨List.Forall₂.cons ⟨n, hn, s.add_answer b hn⟩ hrest, ?_⟩
      rw [EdgeBag.addAll, hedges, hstep, List.flatten_cons, ← Multiset.coe_add, add_assoc]

/-- **Batching and order of insertion do not matter.**  Any two ways of ordering and cutting
a list of edges that fits are accepted in full and leave the same bytes, the generation
field (offsets 36 to 43) aside. -/
theorem csr_schedules_agree {memLen : ℕ} {m₀ : Mem} (hlay : Layout nodeCap edgeCap)
    (hinit : init p m₀ memLen nodeCap edgeCap = .ok (m, .ok g)) (edges : List Edge)
    (hids : ∀ e ∈ edges, e.1 < nodeCap ∧ e.2 < nodeCap) (hlen : edges.length ≤ edgeCap.toNat)
    (sched₁ sched₂ : List (List Edge)) (h₁ : sched₁.flatten.Perm edges)
    (h₂ : sched₂.flatten.Perm edges) :
    ∃ m₁ rs₁ m₂ rs₂, runBatches p g m sched₁ = .ok (m₁, rs₁) ∧
      runBatches p g m sched₂ = .ok (m₂, rs₂) ∧
      List.Forall₂ (fun b r => ∃ n, r = .ok n ∧ n.toNat = b.length) sched₁ rs₁ ∧
      List.Forall₂ (fun b r => ∃ n, r = .ok n ∧ n.toNat = b.length) sched₂ rs₂ ∧
      ∀ x, x ∉ Set.Ico 36 44 → m₁ x = m₂ x := by
  have h₀ := holds_of_init hlay hinit
  have hfits : ∀ sched : List (List Edge), sched.flatten.Perm edges →
      List.Forall₂ (fun b r => ∃ n, r = .ok n ∧ n.toNat = b.length) sched
        ((EdgeBag.empty : EdgeBag nodeCap edgeCap).answers sched) ∧
      ((EdgeBag.empty : EdgeBag nodeCap edgeCap).addAll sched).edges = edges := by
    intro sched hperm
    obtain ⟨hans, hall⟩ := (EdgeBag.empty : EdgeBag nodeCap edgeCap).addAll_of_fits sched
      (fun e he => hids e (hperm.mem_iff.mp he))
      (by
        show 0 + sched.flatten.length ≤ edgeCap.toNat
        rw [hperm.length_eq]
        omega)
    refine ⟨hans, hall.trans ?_⟩
    show 0 + (sched.flatten : Multiset Edge) = edges
    rw [zero_add]
    exact Multiset.coe_eq_coe.mpr hperm
  obtain ⟨hans₁, hall₁⟩ := hfits sched₁ h₁
  obtain ⟨hans₂, hall₂⟩ := hfits sched₂ h₂
  obtain ⟨m₁, hrun₁, hm₁⟩ := runBatches_refines (p := p) h₀ sched₁
  obtain ⟨m₂, hrun₂, hm₂⟩ := runBatches_refines (p := p) h₀ sched₂
  refine ⟨m₁, _, m₂, _, hrun₁, hrun₂, hans₁, hans₂, ?_⟩
  -- the two bags are one bag
  have hbag : (EdgeBag.empty : EdgeBag nodeCap edgeCap).addAll sched₁
      = (EdgeBag.empty : EdgeBag nodeCap edgeCap).addAll sched₂ :=
    EdgeBag.ext (hall₁.trans hall₂.symm)
  rw [hbag] at hm₁
  exact hm₁.unique hm₂

theorem csr_schedules_agree_small :
    ∃ m g, init .dev (fun _ => 7) 100 3 4 = .ok (m, .ok g) ∧
      ∃ m₁ rs₁ m₂ rs₂, runBatches .dev g m [[(2, 0), (0, 2)], [], [(0, 1)]] = .ok (m₁, rs₁) ∧
        runBatches .dev g m [[(0, 1), (0, 2), (2, 0)]] = .ok (m₂, rs₂) ∧
        ∀ x, x ∉ Set.Ico 36 44 → m₁ x = m₂ x := by
  obtain ⟨m, g, hinit, -⟩ := @init_ok 3 4 100 (fun _ => 7) (by decide) (by decide) .dev
  obtain ⟨m₁, rs₁, m₂, rs₂, hrun₁, hrun₂, -, -, heq⟩ :=
    csr_schedules_agree (by decide) hinit [(2, 0), (0, 2), (0, 1)] (by simp) (by decide)
      [[(2, 0), (0, 2)], [], [(0, 1)]] [[(0, 1), (0, 2), (2, 0)]] (List.Perm.refl _)
      (List.reverse_perm [(2, 0), (0, 2), (0, 1)])
  exact ⟨m, g, hinit, m₁, rs₁, m₂, rs₂, hrun₁, hrun₂, heq⟩

end NexusCore.Csr
