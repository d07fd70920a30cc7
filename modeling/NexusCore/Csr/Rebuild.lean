import NexusCore.Csr.Representation

/-!
# The operations on a represented graph

One specification for each operation, from which everything about runs is derived:

* `init_spec`: an `init` that succeeds leaves a memory representing the empty list;
* `rebuild_spec`: from any memory with the geometry in place, a rebuild represents the list
  it was given, raises the generation by one and stays inside `touched`;
* `addEdgeBatchWith_spec`: a batch is empty, over capacity, ill-addressed or taken in, and
  the last case alone changes the memory;
* `getFollowing_spec`: a row is the targets of its source, in order;
* `Represents.unique`: two memories that represent one list and agree outside the touched
  bytes agree everywhere but in the generation.
-/

namespace NexusCore.Csr

open Foundation.Machine Foundation.LinearMemory Foundation.KeyedList

variable {p : Profile} {g : CsrGraph} {nodeCap edgeCap : UInt32} {m m' : Mem} {L : List Edge}

/-! ### Initialisation -/

/-- The header as `init` leaves it, before the row pointers are zeroed. -/
def initHeader (m : Mem) (nodeCap edgeCap colIdx watermark : UInt32) : Mem :=
  setPad (setBumpWatermark (setColIdxOffset (setRowPtrOffset (setGeneration (setEdgeCount
    (setNodeCount (setEdgeCapacity (setNodeCapacity (setMagic m headerMagic) nodeCap) edgeCap) 0)
      0) 0) 64) colIdx) watermark) (List.replicate 16 0)

/-- Every field of the fresh header reads back as written. -/
theorem initHeader_fields (m : Mem) (nodeCap edgeCap colIdx watermark : UInt32) :
    let h := initHeader m nodeCap edgeCap colIdx watermark
    (magic h = headerMagic ∧ nodeCapacity h = nodeCap ∧ edgeCapacity h = edgeCap) ∧
    (nodeCount h = 0 ∧ edgeCount h = 0 ∧ generation h = 0) ∧
    rowPtrOffset h = 64 ∧ colIdxOffset h = colIdx ∧ bumpWatermark h = watermark := by
  simp (disch := simp) only [initHeader, magic, nodeCapacity, edgeCapacity, nodeCount, edgeCount,
    generation, rowPtrOffset, colIdxOffset, bumpWatermark, setMagic, setNodeCapacity,
    setEdgeCapacity, setNodeCount, setEdgeCount, setGeneration, setRowPtrOffset, setColIdxOffset,
    setBumpWatermark, setPad, readU32_writeU32, readU64_writeU64, readU32_writeU32_of_ne,
    readU32_writeU64_of_ne, readU64_writeU32_of_ne, readU64_writeU64_of_ne,
    readU32_writeBytes_of_ne, readU64_writeBytes_of_ne, and_self]

/-- The sizes `init` computes, as numbers. -/
theorem Layout.sizes (hlay : Layout nodeCap edgeCap) (p : Profile) :
    ∃ rows rowBytes colIdx colBytes watermark : UInt32,
      p.add32 nodeCap 1 = .ok rows ∧ p.mul32 rows 4 = .ok rowBytes ∧
      p.add32 64 rowBytes = .ok colIdx ∧ p.mul32 edgeCap 4 = .ok colBytes ∧
      p.add32 colIdx colBytes = .ok watermark ∧ rows.toNat = nodeCap.toNat + 1 ∧
      colIdx.toNat = colBase nodeCap ∧ watermark.toNat = requiredBytes nodeCap edgeCap := by
  have hreq := requiredBytes_eq nodeCap edgeCap
  unfold Layout at hlay
  rw [hreq, colBase] at hlay
  have h1 : (1 : UInt32).toNat = 1 := rfl
  have h4 : (4 : UInt32).toNat = 4 := rfl
  have h64 : (64 : UInt32).toNat = 64 := rfl
  have hrows : nodeCap.toNat + (1 : UInt32).toNat < 2 ^ 32 := by omega
  have hrows' := toNat_add32_of_lt hrows
  have hbytes : (nodeCap + 1).toNat * (4 : UInt32).toNat < 2 ^ 32 := by
    rw [h4]
    omega
  have hbytes' := toNat_mul32_of_lt hbytes
  rw [h4] at hbytes'
  have hcol : (64 : UInt32).toNat + ((nodeCap + 1) * 4).toNat < 2 ^ 32 := by omega
  have hcol' := toNat_add32_of_lt hcol
  have hedges : edgeCap.toNat * (4 : UInt32).toNat < 2 ^ 32 := by
    rw [h4]
    omega
  have hedges' := toNat_mul32_of_lt hedges
  rw [h4] at hedges'
  have hmark : (64 + (nodeCap + 1) * 4 : UInt32).toNat + (edgeCap * 4).toNat < 2 ^ 32 := by omega
  have hmark' := toNat_add32_of_lt hmark
  refine ⟨_, _, _, _, _, p.add32_of_lt hrows, p.mul32_of_lt hbytes, p.add32_of_lt hcol,
    p.mul32_of_lt hedges, p.add32_of_lt hmark, by omega, ?_, ?_⟩
  · rw [colBase]
    omega
  · rw [hreq, colBase]
    omega

/-- What `init` does on a region that is large enough and a layout that fits. -/
theorem init_ok {memLen : ℕ} (m₀ : Mem) (hlay : Layout nodeCap edgeCap)
    (hmem : requiredBytes nodeCap edgeCap ≤ memLen) (p : Profile) :
    ∃ m g, init p m₀ memLen nodeCap edgeCap = .ok (m, .ok g) ∧
      Represents g nodeCap edgeCap m [] ∧ generation m = 0 := by
  obtain ⟨rows, rowBytes, colIdx, colBytes, watermark, hrows, hrowBytes, hcolIdx, hcolBytes, hmark,
    hrows', hcolIdx', hmark'⟩ := hlay.sizes p
  have h64 : 64 ≤ memLen := by
    rw [requiredBytes] at hmem
    omega
  let h := initHeader m₀ nodeCap edgeCap colIdx watermark
  obtain ⟨⟨hmagic, hnode, hedge⟩, ⟨hnc, hec, hgen⟩, hrow, hcol, hwm⟩ :=
    initHeader_fields m₀ nodeCap edgeCap colIdx watermark
  have hgeo : Geometry ⟨memLen, h64⟩ nodeCap edgeCap h :=
    ⟨hnode, hedge, hrow, by rw [hcol, hcolIdx'], by rw [hwm, hmark'], hmem⟩
  have hfill := ((rowSlice nodeCap).fill_spec 0 h).2
  have hframe : Frame (touched nodeCap 0) h ((rowSlice nodeCap).fill 0 h) :=
    hfill.mono (rowSlice_extent_subset 0)
  have hbelow : ∀ a b, b ≤ 64 → Disjoint (rowSlice nodeCap).extent (Set.Ico a b) :=
    fun a b hb => ico_disjoint_extent (Nat.le_refl _) a hb
  refine ⟨(rowSlice nodeCap).fill 0 h, ⟨memLen, h64⟩, ?_, ?_, ?_⟩
  · have hraw := hgeo.rowPtr_raw
    rw [← hrows'] at hraw
    rw [init, dif_neg (Nat.not_lt.mpr hmem)]
    simp only [hrows, ok_bind, hrowBytes, hcolIdx, hcolBytes]
    rw [show colIdxOffset (setColIdxOffset _ colIdx) = colIdx from readU32_writeU32 _ _ _, hmark,
      ok_bind]
    exact (congrArg (· >>= _) hraw).trans rfl
  · exact
    { hgeo.of_frame hframe with
      magic_eq := (hfill.readU64 (hbelow _ _ (by omega))).trans hmagic
      node_count := (hfill.readU32 (hbelow _ _ (by omega))).trans hnc
      edge_count := congrArg UInt32.toNat ((hfill.readU32 (hbelow _ _ (by omega))).trans hec)
      sorted := List.Pairwise.nil
      ids := by simp
      capacity := Nat.zero_le _
      row_ptr := Slice.holds_fill 0 h
      col_idx := rfl }
  · exact (hfill.readU64 (hbelow _ _ (by omega))).trans hgen

/-- A region that `init` accepts is large enough. -/
theorem requiredBytes_le_of_init {memLen : ℕ} {m₀ : Mem}
    (hinit : init p m₀ memLen nodeCap edgeCap = .ok (m, .ok g)) :
    requiredBytes nodeCap edgeCap ≤ memLen := by
  by_contra hlt
  rw [init, dif_pos (Nat.not_le.mp hlt)] at hinit
  cases hinit

theorem init_spec {memLen : ℕ} {m₀ : Mem} (hlay : Layout nodeCap edgeCap)
    (hinit : init p m₀ memLen nodeCap edgeCap = .ok (m, .ok g)) :
    Represents g nodeCap edgeCap m [] ∧ generation m = 0 := by
  obtain ⟨m₁, g₁, hok, hrep, hgen⟩ := init_ok m₀ hlay (requiredBytes_le_of_init hinit) p
  rw [hinit] at hok
  cases hok
  exact ⟨hrep, hgen⟩

/-! ### The rebuild -/

theorem rowsUsed_of_ne (hne : L ≠ []) : rowsUsed L = maxSrc L + 1 := if_neg hne

/-- Zeroing, counting, summing and closing the row pointers leaves the block boundaries of the
list, whatever the region held. -/
theorem rowPtrs_rebuilt {add : UInt32 → UInt32 → Checked UInt32} (hadd : ExactAdd add)
    (p : Profile) (hsrc : ∀ e ∈ L, srcKey e < nodeCap.toNat) (hlen : L.length < 2 ^ 32) (m : Mem) :
    ∃ m₁ m₂ sum m₃, countDegrees p (rowSlice nodeCap) ((rowSlice nodeCap).fill 0 m) L = .ok m₁ ∧
      prefixSums add (rowSlice nodeCap) nodeCap.toNat 0 0 m₁ = .ok (m₂, sum) ∧
      (rowSlice nodeCap).set m₂ nodeCap.toNat sum = .ok m₃ ∧
      (rowSlice nodeCap).Holds m₃ (fun u => below srcKey u L) ∧
      Frame (rowSlice nodeCap).extent m m₃ := by
  have h0 : (0 : UInt32).toNat = 0 := rfl
  have hrowLen : (rowSlice nodeCap).len = nodeCap.toNat + 1 := rfl
  have hfill : (rowSlice nodeCap).Holds ((rowSlice nodeCap).fill 0 m) fun _ => (0 : UInt32).toNat :=
    Slice.holds_fill 0 m
  have hf : Frame (rowSlice nodeCap).extent m ((rowSlice nodeCap).fill 0 m) :=
    ((rowSlice nodeCap).fill_spec 0 m).2
  obtain ⟨m₁, hcount, hholds₁, hf₁⟩ := countDegrees_spec (p := p) L hfill
    (fun e he => Nat.lt_succ_of_lt (hsrc e he)) (by
      intro u
      have hle : sizeAt srcKey u L ≤ L.length := List.countP_le_length
      omega)
  have hdegrees : (rowSlice nodeCap).Holds m₁
      fun u => if u < 0 then below srcKey u L else sizeAt srcKey u L := by
    apply hholds₁.congr
    intro u _
    rw [if_neg (Nat.not_lt_zero u), h0, Nat.zero_add]
  have hzero : (0 : UInt32).toNat = below srcKey 0 L := by simp
  obtain ⟨m₂, sum, hsums, hsum, hholds₂, hf₂⟩ :=
    prefixSums_spec hadd nodeCap.toNat 0 (by omega) hzero hlen hdegrees
  rw [Nat.zero_add] at hsum hholds₂
  obtain ⟨m₃, hclose, hholds₃, hf₃⟩ := hholds₂.set (i := nodeCap.toNat) (by omega) sum
  refine ⟨m₁, m₂, sum, m₃, hcount, hsums, hclose, ?_, ((hf.trans hf₁).trans hf₂).trans hf₃⟩
  apply hholds₃.congr
  intro u hu
  by_cases hlast : u = nodeCap.toNat
  · rw [hlast, Function.update_self, hsum]
  · rw [Function.update_of_ne hlast, if_pos (by omega)]

/-- Scattering from cursors copied out of the block boundaries fills the columns with the
targets of the list. -/
theorem columns_rebuilt (p : Profile) (hks : KeySorted srcKey L)
    (hsrc : ∀ e ∈ L, srcKey e < nodeCap.toNat) (hcap : L.length ≤ edgeCap.toNat)
    (hedge : edgeCapacity m = edgeCap)
    (hrows : (rowSlice nodeCap).Holds m fun u => below srcKey u L) :
    ∃ cursors m', (rowSlice nodeCap).range m 0 nodeCap.toNat = .ok cursors ∧
      scatter p (colSlice nodeCap edgeCap.toNat) m cursors L = .ok (m', .ok ()) ∧
      (colSlice nodeCap L.length).words m' = L.map Prod.snd ∧
      Frame (Set.Ico (colBase nodeCap) (colBase nodeCap + 4 * L.length)) m m' := by
  let cursors := ((rowSlice nodeCap).words m).take nodeCap.toNat
  have hclen : cursors.length = nodeCap.toNat := by
    show (((rowSlice nodeCap).words m).take nodeCap.toNat).length = nodeCap.toNat
    rw [List.length_take, Slice.words_length]
    exact Nat.min_eq_left (Nat.le_succ _)
  have hcursors : (rowSlice nodeCap).range m 0 nodeCap.toNat = .ok cursors := by
    rw [Slice.range, slice_of_le (Nat.zero_le _) (by
      rw [Slice.words_length]
      exact Nat.le_succ _)]
    rfl
  have hcurAt : CursorsAt cursors L [] := by
    intro u hu
    rw [hclen] at hu
    rw [sizeAt_nil, Nat.add_zero]
    simp only [cursors, List.getElem_take, Slice.words_getElem]
    exact hrows u (Nat.lt_succ_of_lt hu)
  have hbase : 16 ≤ (colSlice nodeCap edgeCap.toNat).base := by
    show 16 ≤ colBase nodeCap
    rw [colBase]
    omega
  obtain ⟨m', hscatter, hcols, hf⟩ := scatter_spec (p := p) hks hbase L [] (L := L) rfl
    (by rw [hedge]; exact hcap) (by rw [hedge]; rfl) (by rw [hclen]; exact hsrc) hcurAt rfl
  exact ⟨cursors, m', hcursors, hscatter, hcols, hf⟩

/-- Row pointers, edge count and columns lie apart from the other header fields. -/
theorem header_kept {m₁ m₂ m₃ : Mem} {len : ℕ} (hrows : Frame (rowSlice nodeCap).extent m₁ m₂)
    (hcols : Frame (Set.Ico 20 24 ∪ Set.Ico (colBase nodeCap) (colBase nodeCap + 4 * len)) m₂ m₃) :
    nodeCount m₃ = nodeCount m₁ ∧ generation m₃ = generation m₁ := by
  have hbase : colBase nodeCap = 64 + 4 * (nodeCap.toNat + 1) := rfl
  constructor
  · have hcount : nodeCount m₂ = nodeCount m₁ :=
      hrows.readU32 (ico_disjoint_extent (Nat.le_refl _) _ (by omega))
    have hcount' : nodeCount m₃ = nodeCount m₂ := hcols.readU32 (by
      simp only [Set.disjoint_union_left, Set.Ico_disjoint_Ico]
      omega)
    rw [hcount', hcount]
  · have hgen : generation m₂ = generation m₁ :=
      hrows.readU64 (ico_disjoint_extent (Nat.le_refl _) _ (by omega))
    have hgen' : generation m₃ = generation m₂ := hcols.readU64 (by
      simp only [Set.disjoint_union_left, Set.Ico_disjoint_Ico]
      omega)
    rw [hgen', hgen]

/-- **How a rebuild runs**, whatever rows and columns the memory held before: on a sorted list
of known sources that fits the columns only the generation's addition is left to go wrong. -/
theorem rebuild_run {add : UInt32 → UInt32 → Checked UInt32} (hadd : ExactAdd add)
    (hgeo : Geometry g nodeCap edgeCap m) (hne : L ≠ []) (hks : KeySorted srcKey L)
    (hsrc : ∀ e ∈ L, srcKey e < nodeCap.toNat) (hcap : L.length ≤ edgeCap.toNat) (inserted : ℕ) :
    ∃ m', rebuild add p g m L inserted
        = (do let gen ← p.add64 (generation m) 1
              .ok (setGeneration m' gen, .ok (UInt32.ofNat inserted))) ∧
      nodeCount m' = maxSrc L + 1 ∧ (edgeCount m').toNat = L.length ∧
      (rowSlice nodeCap).Holds m' (fun u => below srcKey u L) ∧
      (colSlice nodeCap L.length).words m' = L.map Prod.snd ∧
      Frame (touched nodeCap L.length) m m' := by
  have hcap32 := edgeCap.toNat_lt
  have hmax := maxSrc_lt hne hsrc
  have hn32 := nodeCap.toNat_lt
  have h1 : (1 : UInt32).toNat = 1 := rfl
  have hbase : colBase nodeCap = 64 + 4 * (nodeCap.toNat + 1) := rfl
  -- node count
  have hfit : (maxSrc L).toNat + (1 : UInt32).toNat < 2 ^ 32 := by omega
  have hmin : min (maxSrc L + 1) nodeCap = maxSrc L + 1 := by
    have hle : maxSrc L + 1 ≤ nodeCap := by
      rw [UInt32.le_iff_toNat_le, toNat_add32_of_lt hfit]
      omega
    exact if_pos hle
  let m₁ := setNodeCount m (maxSrc L + 1)
  have hf₁ : Frame (touched nodeCap L.length) m m₁ :=
    (writeU32_frame m 16 _).mono (header_subset_touched (by omega))
  have hgeo₁ := hgeo.of_frame hf₁
  -- row pointers
  obtain ⟨m₂, m₃, sum, m₄, hcount, hsums, hclose, hrows, hf₂⟩ :=
    rowPtrs_rebuilt hadd p hsrc (by omega) m₁
  have hf₄ : Frame (touched nodeCap L.length) m m₄ :=
    hf₁.trans (hf₂.mono (rowSlice_extent_subset L.length))
  have hgeo₄ := hgeo.of_frame hf₄
  -- columns
  obtain ⟨cursors, m₅, hcursors, hscatter, hcols, hf₅⟩ :=
    columns_rebuilt p hks hsrc hcap hgeo₄.edge_capacity hrows
  -- edge count
  let m₆ := setEdgeCount m₅ (UInt32.ofNat L.length)
  have hf₆ : Frame (Set.Ico 20 24) m₅ m₆ := writeU32_frame m₅ 20 _
  have hf₄₆ : Frame (Set.Ico 20 24 ∪ Set.Ico (colBase nodeCap) (colBase nodeCap + 4 * L.length))
      m₄ m₆ := (hf₅.mono Set.subset_union_right).trans (hf₆.mono Set.subset_union_left)
  have hf : Frame (touched nodeCap L.length) m m₆ := by
    refine hf₄.trans (hf₄₆.mono (Set.union_subset ?_ ?_))
    · exact header_subset_touched (by omega)
    · exact ico_subset_touched (by omega) (Nat.le_refl _)
  obtain ⟨hkeptCount, hkeptGen⟩ := header_kept hf₂ hf₄₆
  have hgen : generation m₆ = generation m :=
    hkeptGen.trans (readU64_writeU32_of_ne m _ (by omega))
  refine ⟨m₆, ?_, ?_, ?_, ?_, ?_, hf⟩
  · rw [rebuild]
    simp only [hgeo.node_capacity, p.add32_of_lt hfit, ok_bind, hmin]
    rw [hgeo₁.rowPtr_raw, ok_bind, hcount, ok_bind, hsums, ok_bind]
    simp only
    rw [hclose, ok_bind, hgeo₄.colIdxSliceMut_eq, ok_bind, hcursors, ok_bind, hscatter, ok_bind]
    show (p.add64 (generation m₆) 1 >>= _) = _
    rw [hgen]
  · exact hkeptCount.trans (readU32_writeU32 m 16 _)
  · have hread : edgeCount m₆ = UInt32.ofNat L.length := readU32_writeU32 m₅ 20 _
    rw [hread, UInt32.toNat_ofNat', Nat.mod_eq_of_lt (by omega)]
  · apply hrows.frame hf₄₆
    have hext : (rowSlice nodeCap).extent = Set.Ico 64 (colBase nodeCap) := rfl
    simp only [hext, Set.disjoint_union_left, Set.Ico_disjoint_Ico]
    omega
  · rw [← hcols]
    apply (colSlice nodeCap L.length).words_frame hf₆
    have hext : (colSlice nodeCap L.length).extent
        = Set.Ico (colBase nodeCap) (colBase nodeCap + 4 * L.length) := rfl
    rw [hext, Set.Ico_disjoint_Ico]
    omega

/-- **A rebuild represents its list.** -/
theorem rebuild_spec {add : UInt32 → UInt32 → Checked UInt32} (hadd : ExactAdd add)
    (hgeo : Geometry g nodeCap edgeCap m) (hmagic : magic m = headerMagic) (hne : L ≠ [])
    (hsorted : L.Pairwise edgeLe) (hids : ∀ e ∈ L, e.1 < nodeCap ∧ e.2 < nodeCap)
    (hcap : L.length ≤ edgeCap.toNat) (hgen : (generation m).toNat + 1 < 2 ^ 64) (inserted : ℕ) :
    ∃ m', rebuild add p g m L inserted = .ok (m', .ok (UInt32.ofNat inserted)) ∧
      Represents g nodeCap edgeCap m' L ∧ generation m' = generation m + 1 ∧
      Frame (touched nodeCap L.length) m m' := by
  have hsrc : ∀ e ∈ L, srcKey e < nodeCap.toNat :=
    fun e he => UInt32.lt_iff_toNat_lt.mp (hids e he).1
  obtain ⟨m₁, hrun, hnode, hedges, hrows, hcols, hf₁⟩ :=
    rebuild_run (p := p) hadd hgeo hne (keySorted_of_edgeLe hsorted) hsrc hcap inserted
  let m₂ := setGeneration m₁ (generation m + 1)
  have hf₂ : Frame (Set.Ico 36 44) m₁ m₂ := writeU64_frame m₁ 36 _
  have hf : Frame (touched nodeCap L.length) m m₂ :=
    hf₁.trans (hf₂.mono (header_subset_touched (by omega)))
  have hgenfit : (generation m).toNat + (1 : UInt64).toNat < 2 ^ 64 := hgen
  refine ⟨m₂, ?_, ?_, readU64_writeU64 _ 36 _, hf⟩
  · rw [hrun, p.add64_of_lt hgenfit, ok_bind]
  · exact
    { hgeo.of_frame hf with
      magic_eq := (hf.readU64 (touched_disjoint (by omega))).trans hmagic
      node_count := by
        rw [rowsUsed_of_ne hne, ← hnode]
        exact hf₂.readU32 (by rw [Set.Ico_disjoint_Ico]; omega)
      edge_count := by
        rw [← hedges]
        exact congrArg UInt32.toNat (hf₂.readU32 (by rw [Set.Ico_disjoint_Ico]; omega))
      sorted := hsorted
      ids := hids
      capacity := hcap
      row_ptr := hrows.frame hf₂ (ico_disjoint_extent (Nat.le_refl _) _ (by omega)).symm
      col_idx := by
        rw [← hcols]
        apply (colSlice nodeCap L.length).words_frame hf₂
        apply (ico_disjoint_extent _ _ (by omega)).symm
        show 64 ≤ colBase nodeCap
        rw [colBase]
        omega }

/-! ### A batch -/

/-- **What a batch does.**  On a memory representing `L` a batch is empty, over capacity,
ill-addressed, or taken in; only the last case changes the memory, to one that represents
`L` and the batch together. -/
theorem addEdgeBatchWith_spec {add : UInt32 → UInt32 → Checked UInt32} (hadd : ExactAdd add)
    (h : Represents g nodeCap edgeCap m L) (hgen : (generation m).toNat + 1 < 2 ^ 64)
    (edges : List Edge) :
    ∃ m' r, addEdgeBatchWith add p g m edges = .ok (m', r) ∧
      ((edges = [] ∧ m' = m ∧ r = .ok 0) ∨
       (edges ≠ [] ∧ edgeCap.toNat < L.length + edges.length ∧
          m' = m ∧ r = .error "edge capacity exhausted") ∨
       (edges ≠ [] ∧ L.length + edges.length ≤ edgeCap.toNat ∧
          (∃ e ∈ edges, nodeCap ≤ e.1 ∨ nodeCap ≤ e.2) ∧
          m' = m ∧ r = .error "node ID exceeds capacity") ∨
       (edges ≠ [] ∧ L.length + edges.length ≤ edgeCap.toNat ∧
          (∀ e ∈ edges, e.1 < nodeCap ∧ e.2 < nodeCap) ∧ r = .ok (UInt32.ofNat edges.length) ∧
          Represents g nodeCap edgeCap m' (sortEdges (L ++ edges)) ∧
          generation m' = generation m + 1 ∧
          Frame (touched nodeCap (L.length + edges.length)) m m')) := by
  rw [addEdgeBatchWith]
  by_cases hempty : edges = []
  · subst hempty
    exact ⟨m, .ok 0, rfl, Or.inl ⟨rfl, rfl, rfl⟩⟩
  rw [if_neg (by simpa using hempty), if_neg (not_not.mpr h.magic_eq), h.edge_capacity,
    h.edge_count, h.node_capacity]
  by_cases hfull : edgeCap.toNat < L.length + edges.length
  · rw [if_pos hfull]
    exact ⟨m, _, rfl, Or.inr (Or.inl ⟨hempty, hfull, rfl, rfl⟩)⟩
  rw [if_neg hfull]
  have hfits := Nat.not_lt.mp hfull
  by_cases hbad : ∃ e ∈ edges, nodeCap ≤ e.1 ∨ nodeCap ≤ e.2
  · rw [if_pos (any_outside_iff.mpr hbad)]
    exact ⟨m, _, rfl, Or.inr (Or.inr (Or.inl ⟨hempty, hfits, hbad, rfl, rfl⟩))⟩
  rw [if_neg (mt any_outside_iff.mp hbad)]
  have hok := not_exists_outside_iff.mp hbad
  -- the stored rows, read back, are the represented list
  have hks := keySorted_of_edgeLe h.sorted
  have hcollect : collectEdges m (rowSlice nodeCap) (colSlice nodeCap L.length) nodeCap.toNat 0 []
      = .ok (.ok L) := by
    rw [collectEdges_spec hks h.row_ptr h.col_idx nodeCap.toNat 0 []
      (by show 0 + nodeCap.toNat < nodeCap.toNat + 1; omega)]
    rw [List.nil_append, ← List.range_eq_range', hks.flatMap_filter_range, List.filter_eq_self.mpr]
    intro e he
    exact decide_eq_true (UInt32.lt_iff_toNat_lt.mp (h.ids e he).1)
  obtain ⟨m', hrun, hrep, hgen', hframe⟩ := rebuild_spec (p := p) (L := sortEdges (L ++ edges)) hadd
    h.toGeometry h.magic_eq (sortEdges_append_ne_nil hempty) (sortEdges_sorted _)
    (forall_mem_sortEdges_append h.ids hok)
    (by rw [sortEdges_length, List.length_append]; exact hfits) hgen edges.length
  rw [sortEdges_length, List.length_append] at hframe
  refine ⟨m', _, ?_, Or.inr (Or.inr (Or.inr ⟨hempty, hfits, hok, rfl, hrep, hgen', hframe⟩))⟩
  rw [h.rowPtrSlice_eq, ok_bind, h.colIdxSlice_eq, ok_bind, hcollect, ok_bind]
  exact hrun

/-! ### A row -/

/-- **What a row query answers**: the targets of the source, in the order of the list. -/
theorem getFollowing_spec (h : Represents g nodeCap edgeCap m L) {u : UInt32} (hu : u < nodeCap) :
    getFollowing g m u
      = .ok (.ok ((L.filter fun e => decide (srcKey e = u.toNat)).map Prod.snd)) := by
  have hks := keySorted_of_edgeLe h.sorted
  have hu' := UInt32.lt_iff_toNat_lt.mp hu
  obtain ⟨start, hstart, hstart'⟩ := h.row_ptr.get (i := u.toNat) (Nat.lt_succ_of_lt hu')
  obtain ⟨stop, hstop, hstop'⟩ := h.row_ptr.get (i := u.toNat + 1) (Nat.succ_lt_succ hu')
  have hrow := range_row hks h.col_idx u.toNat
  rw [getFollowing, if_neg (not_not.mpr h.magic_eq), h.node_capacity,
    if_neg (UInt32.not_le.mpr hu), h.rowPtrSlice_eq, ok_bind, h.colIdxSlice_eq, ok_bind, hstart,
    ok_bind, hstop, ok_bind]
  split
  · -- equal boundaries: the block between them is empty
    rename_i heq
    rw [← hks.block_eq_filter, ← hstart', ← hstop', heq, Nat.sub_self, List.take_zero]
    rfl
  · rw [hstart', hstop', hrow, ok_bind]

theorem getFollowing_of_ge (h : Represents g nodeCap edgeCap m L) {u : UInt32} (hu : nodeCap ≤ u) :
    getFollowing g m u = .ok (.error "invalid node ID") := by
  rw [getFollowing, if_neg (not_not.mpr h.magic_eq), h.node_capacity, if_pos hu]

/-! ### A represented list fixes the written bytes -/

/-- **Canonical memory.**  Two memories that represent one list and differ from a common
memory in touched bytes only are equal outside the generation field. -/
theorem Represents.unique {m₀ m₁ m₂ : Mem} {n : ℕ} (h₁ : Represents g nodeCap edgeCap m₁ L)
    (h₂ : Represents g nodeCap edgeCap m₂ L) (hn : n = L.length)
    (hf₁ : Frame (touched nodeCap n) m₀ m₁) (hf₂ : Frame (touched nodeCap n) m₀ m₂) :
    ∀ x, x ∉ Set.Ico 36 44 → m₁ x = m₂ x := by
  subst hn
  intro x hx
  by_cases ht : x ∈ touched nodeCap L.length
  · rcases ht with (hcounts | hgen) | hslices
    · by_cases hlow : x < 20
      · have heq : nodeCount m₁ = nodeCount m₂ := h₁.node_count.trans h₂.node_count.symm
        exact eq_of_readU32_eq heq x ⟨hcounts.1, hlow⟩
      · have heq : edgeCount m₁ = edgeCount m₂ :=
          UInt32.toNat_inj.mp (h₁.edge_count.trans h₂.edge_count.symm)
        exact eq_of_readU32_eq heq x ⟨Nat.not_lt.mp hlow, hcounts.2⟩
    · exact absurd hgen hx
    · by_cases hrow : x < colBase nodeCap
      · exact (rowSlice nodeCap).eq_of_words_eq (h₂.row_ptr.words_eq h₁.row_ptr) x ⟨hslices.1, hrow⟩
      · exact (colSlice nodeCap L.length).eq_of_words_eq (h₁.col_idx.trans h₂.col_idx.symm) x
          ⟨Nat.not_lt.mp hrow, hslices.2⟩
  · rw [hf₁ x ht, hf₂ x ht]

end NexusCore.Csr
