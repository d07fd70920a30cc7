import NexusCore.Csr.Loops

/-!
# What a graph memory represents

`Represents g nodeCap edgeCap m L` says that the memory `m` holds exactly the edges of the
sorted list `L`: the header has the geometry `init` wrote, the row pointers are the block
boundaries of `L`, and the used columns are its targets.  Every part of it is a function of
`L`, so a represented list fixes all bytes a rebuild writes (`Represents.unique`).

`touched nodeCap n` is the set of bytes a rebuild of `n` edges may write: node and edge
count, generation, the row pointers and the first `n` columns.  The geometry lies beside it,
so it survives every such change (`Geometry.of_frame`), and with it the three slices that the
operations work on.
-/

namespace NexusCore.Csr

open Foundation.LinearMemory Foundation.KeyedList

variable {p : Profile} {g : CsrGraph} {nodeCap edgeCap : UInt32} {m m' : Mem} {L : List Edge}

/-- The layout does not overflow 32 bits. -/
def Layout (nodeCap edgeCap : UInt32) : Prop := requiredBytes nodeCap edgeCap < 2 ^ 32

instance (nodeCap edgeCap : UInt32) : Decidable (Layout nodeCap edgeCap) :=
  inferInstanceAs (Decidable (_ < _))

/-- Where the columns begin. -/
def colBase (nodeCap : UInt32) : ℕ := 64 + 4 * (nodeCap.toNat + 1)

/-- The row pointers. -/
def rowSlice (nodeCap : UInt32) : Slice := ⟨64, nodeCap.toNat + 1⟩

/-- The first `n` columns. -/
def colSlice (nodeCap : UInt32) (n : ℕ) : Slice := ⟨colBase nodeCap, n⟩

/-- The number of rows in use: one more than the largest source. -/
def rowsUsed (L : List Edge) : UInt32 := if L = [] then 0 else maxSrc L + 1

/-- The header fields `init` writes and no batch changes. -/
structure Geometry (g : CsrGraph) (nodeCap edgeCap : UInt32) (m : Mem) : Prop where
  node_capacity : nodeCapacity m = nodeCap
  edge_capacity : edgeCapacity m = edgeCap
  row_ptr_offset : rowPtrOffset m = 64
  col_idx_offset : (colIdxOffset m).toNat = colBase nodeCap
  watermark : (bumpWatermark m).toNat = requiredBytes nodeCap edgeCap
  fits : requiredBytes nodeCap edgeCap ≤ g.memLen

/-- The memory holds exactly the edges of the sorted list `L`. -/
structure Represents (g : CsrGraph) (nodeCap edgeCap : UInt32) (m : Mem) (L : List Edge) : Prop
    extends Geometry g nodeCap edgeCap m where
  magic_eq : magic m = headerMagic
  node_count : nodeCount m = rowsUsed L
  edge_count : (edgeCount m).toNat = L.length
  sorted : L.Pairwise edgeLe
  ids : ∀ e ∈ L, e.1 < nodeCap ∧ e.2 < nodeCap
  capacity : L.length ≤ edgeCap.toNat
  row_ptr : (rowSlice nodeCap).Holds m fun u => below srcKey u L
  col_idx : (colSlice nodeCap L.length).words m = L.map Prod.snd

theorem Represents.src_lt (h : Represents g nodeCap edgeCap m L) :
    ∀ e ∈ L, srcKey e < nodeCap.toNat :=
  fun e he => UInt32.lt_iff_toNat_lt.mp (h.ids e he).1

/-- The bytes a rebuild of `n` edges may write. -/
def touched (nodeCap : UInt32) (n : ℕ) : Set ℕ :=
  Set.Ico 16 24 ∪ Set.Ico 36 44 ∪ Set.Ico 64 (colBase nodeCap + 4 * n)

theorem touched_mono {n k : ℕ} (h : n ≤ k) : touched nodeCap n ⊆ touched nodeCap k := by
  apply Set.union_subset_union_right
  exact Set.Ico_subset_Ico (Nat.le_refl _) (by omega)

/-- The header fields of the geometry lie beside the touched bytes. -/
theorem touched_disjoint {n a b : ℕ} (h : b ≤ 16 ∨ (24 ≤ a ∧ b ≤ 36) ∨ (44 ≤ a ∧ b ≤ 64)) :
    Disjoint (touched nodeCap n) (Set.Ico a b) := by
  simp only [touched, Set.disjoint_union_left, Set.Ico_disjoint_Ico]
  omega

/-- A frame inside the row pointers or the first columns is a frame inside `touched`. -/
theorem ico_subset_touched {n a b : ℕ} (ha : 64 ≤ a) (hb : b ≤ colBase nodeCap + 4 * n) :
    Set.Ico a b ⊆ touched nodeCap n :=
  Set.subset_union_of_subset_right (Set.Ico_subset_Ico ha hb) _

/-- So is one inside the counts or the generation. -/
theorem header_subset_touched {n a b : ℕ} (h : (16 ≤ a ∧ b ≤ 24) ∨ (36 ≤ a ∧ b ≤ 44)) :
    Set.Ico a b ⊆ touched nodeCap n := by
  apply Set.subset_union_of_subset_left
  rcases h with ⟨ha, hb⟩ | ⟨ha, hb⟩
  · exact Set.subset_union_of_subset_left (Set.Ico_subset_Ico ha hb) _
  · exact Set.subset_union_of_subset_right (Set.Ico_subset_Ico ha hb) _

theorem rowSlice_extent_subset (n : ℕ) : (rowSlice nodeCap).extent ⊆ touched nodeCap n := by
  apply ico_subset_touched (Nat.le_refl _)
  show 64 + 4 * (nodeCap.toNat + 1) ≤ colBase nodeCap + 4 * n
  rw [colBase]
  omega

/-- The header bytes avoid the row pointers and the columns. -/
theorem ico_disjoint_extent {s : Slice} (hs : 64 ≤ s.base) (a : ℕ) {b : ℕ} (hb : b ≤ 64) :
    Disjoint s.extent (Set.Ico a b) := by
  rw [Slice.extent, Set.Ico_disjoint_Ico]
  omega

/-- Nothing is touched behind the first `n` columns. -/
theorem not_mem_touched {n x : ℕ} (h : colBase nodeCap + 4 * n ≤ x) : x ∉ touched nodeCap n := by
  have hbase : colBase nodeCap = 64 + 4 * (nodeCap.toNat + 1) := rfl
  simp only [touched, Set.mem_union, Set.mem_Ico]
  omega

theorem Geometry.of_frame {n : ℕ} (h : Geometry g nodeCap edgeCap m)
    (hf : Frame (touched nodeCap n) m m') : Geometry g nodeCap edgeCap m' where
  node_capacity := (hf.readU32 (touched_disjoint (by omega))).trans h.node_capacity
  edge_capacity := (hf.readU32 (touched_disjoint (by omega))).trans h.edge_capacity
  row_ptr_offset := (hf.readU32 (touched_disjoint (by omega))).trans h.row_ptr_offset
  col_idx_offset := by
    rw [← h.col_idx_offset]
    exact congrArg UInt32.toNat (hf.readU32 (touched_disjoint (by omega)))
  watermark := by
    rw [← h.watermark]
    exact congrArg UInt32.toNat (hf.readU32 (touched_disjoint (by omega)))
  fits := h.fits

/-! ### The slices of a graph with its geometry in place -/

theorem requiredBytes_eq (nodeCap edgeCap : UInt32) :
    requiredBytes nodeCap edgeCap = colBase nodeCap + 4 * edgeCap.toNat := by
  unfold requiredBytes colBase
  omega

theorem Geometry.rowPtr_raw (h : Geometry g nodeCap edgeCap m) :
    g.fromRawParts (rowPtrOffset m) (nodeCap.toNat + 1) = .ok (rowSlice nodeCap) := by
  have hfits := h.fits
  rw [requiredBytes_eq, colBase] at hfits
  rw [h.row_ptr_offset, CsrGraph.fromRawParts, if_pos (by
    show 64 + 4 * (nodeCap.toNat + 1) ≤ g.memLen
    omega)]
  rfl

theorem Geometry.rowPtrSlice_eq (h : Geometry g nodeCap edgeCap m) :
    g.rowPtrSlice m = .ok (rowSlice nodeCap) := by
  rw [CsrGraph.rowPtrSlice, h.node_capacity, h.rowPtr_raw]

theorem Geometry.col_raw (h : Geometry g nodeCap edgeCap m) {n : ℕ} (hn : n ≤ edgeCap.toNat) :
    g.fromRawParts (colIdxOffset m) n = .ok (colSlice nodeCap n) := by
  have hfits := h.fits
  rw [requiredBytes_eq] at hfits
  rw [CsrGraph.fromRawParts, h.col_idx_offset, if_pos (by omega)]
  rfl

theorem Geometry.colIdxSliceMut_eq (h : Geometry g nodeCap edgeCap m) :
    g.colIdxSliceMut m = .ok (colSlice nodeCap edgeCap.toNat) := by
  rw [CsrGraph.colIdxSliceMut, h.edge_capacity, h.col_raw (Nat.le_refl _)]

theorem Represents.colIdxSlice_eq (h : Represents g nodeCap edgeCap m L) :
    g.colIdxSlice m = .ok (colSlice nodeCap L.length) := by
  rw [CsrGraph.colIdxSlice, h.edge_count, h.col_raw h.capacity]

/-! ### Sorting -/

theorem edgeLe_iff {a b : Edge} : edgeLe a b ↔
    a.1.toNat < b.1.toNat ∨ (a.1.toNat = b.1.toNat ∧ a.2.toNat ≤ b.2.toNat) := by
  rw [edgeLe, UInt32.lt_iff_toNat_lt, UInt32.le_iff_toNat_le, UInt32.toNat_inj]

instance : Std.Total edgeLe := ⟨fun a b => by simp only [edgeLe_iff]; omega⟩

instance : IsTrans Edge edgeLe := ⟨fun a b c => by simp only [edgeLe_iff]; omega⟩

instance : Std.Antisymm edgeLe := ⟨fun a b hab hba => by
  simp only [edgeLe_iff] at hab hba
  exact Prod.ext (UInt32.toNat_inj.mp (by omega)) (UInt32.toNat_inj.mp (by omega))⟩

theorem sortEdges_perm (es : List Edge) : (sortEdges es).Perm es := List.perm_insertionSort _ es

theorem sortEdges_sorted (es : List Edge) : (sortEdges es).Pairwise edgeLe :=
  List.pairwise_insertionSort _ es

@[simp] theorem sortEdges_length (es : List Edge) : (sortEdges es).length = es.length :=
  (sortEdges_perm es).length_eq

@[simp] theorem mem_sortEdges {e : Edge} {es : List Edge} : e ∈ sortEdges es ↔ e ∈ es :=
  (sortEdges_perm es).mem_iff

/-- A batch that is not empty leaves edges to sort. -/
theorem sortEdges_append_ne_nil {b : List Edge} (h : b ≠ []) : sortEdges (L ++ b) ≠ [] := by
  intro hnil
  have hlen := congrArg List.length hnil
  rw [sortEdges_length, List.length_append, List.length_nil] at hlen
  exact h (List.length_eq_zero_iff.mp (by omega))

/-- What holds of the old edges and of a batch holds of the sorted edges. -/
theorem forall_mem_sortEdges_append {P : Edge → Prop} {b : List Edge} (hL : ∀ e ∈ L, P e)
    (hb : ∀ e ∈ b, P e) : ∀ e ∈ sortEdges (L ++ b), P e := by
  intro e he
  rcases List.mem_append.mp (mem_sortEdges.mp he) with he | he
  · exact hL e he
  · exact hb e he

/-- The test of a batch's node ids. -/
theorem any_outside_iff {edges : List Edge} :
    (edges.any fun e => nodeCap ≤ e.1 || nodeCap ≤ e.2) = true
      ↔ ∃ e ∈ edges, nodeCap ≤ e.1 ∨ nodeCap ≤ e.2 := by
  simp only [List.any_eq_true, Bool.or_eq_true, decide_eq_true_eq]

theorem not_exists_outside_iff {edges : List Edge} :
    (¬ ∃ e ∈ edges, nodeCap ≤ e.1 ∨ nodeCap ≤ e.2)
      ↔ ∀ e ∈ edges, e.1 < nodeCap ∧ e.2 < nodeCap := by
  simp only [not_exists, not_and, not_or, UInt32.not_le]

/-- The order within the sort is an order by source. -/
theorem keySorted_of_edgeLe (h : L.Pairwise edgeLe) : KeySorted srcKey L := by
  apply h.imp
  intro a b hab
  rw [edgeLe_iff] at hab
  rw [srcKey, srcKey]
  omega

/-- Sorted lists with the same edges are equal. -/
theorem eq_of_perm_of_sorted {L₁ L₂ : List Edge} (hp : L₁.Perm L₂) (h₁ : L₁.Pairwise edgeLe)
    (h₂ : L₂.Pairwise edgeLe) : L₁ = L₂ :=
  hp.eq_of_pairwise (fun _ _ _ _ => antisymm) h₁ h₂

/-! ### The largest source -/

theorem foldl_max_spec (es : List Edge) (init : UInt32) :
    init ≤ es.foldl (fun mx e => if mx < e.1 then e.1 else mx) init ∧
    (∀ e ∈ es, e.1 ≤ es.foldl (fun mx e => if mx < e.1 then e.1 else mx) init) ∧
    (es.foldl (fun mx e => if mx < e.1 then e.1 else mx) init = init ∨
      ∃ e ∈ es, es.foldl (fun mx e => if mx < e.1 then e.1 else mx) init = e.1) := by
  induction es generalizing init with
  | nil => simp
  | cons e es ih =>
      obtain ⟨hinit, hall, hmem⟩ := ih (if init < e.1 then e.1 else init)
      have hstep : init ≤ (if init < e.1 then e.1 else init) ∧
          e.1 ≤ (if init < e.1 then e.1 else init) := by
        simp only [UInt32.le_iff_toNat_le, UInt32.lt_iff_toNat_lt]
        split <;> omega
      rw [List.foldl_cons]
      refine ⟨UInt32.le_trans hstep.1 hinit, ?_, ?_⟩
      · intro e' he'
        rcases List.mem_cons.mp he' with rfl | he'
        · exact UInt32.le_trans hstep.2 hinit
        · exact hall e' he'
      · rcases hmem with hmem | ⟨e', he', heq⟩
        · rw [hmem]
          by_cases hlt : init < e.1
          · exact Or.inr ⟨e, by simp, if_pos hlt⟩
          · exact Or.inl (if_neg hlt)
        · exact Or.inr ⟨e', by simp [he'], heq⟩

theorem le_maxSrc {e : Edge} (he : e ∈ L) : e.1 ≤ maxSrc L := (foldl_max_spec L 0).2.1 e he

theorem exists_maxSrc (hne : L ≠ []) : ∃ e ∈ L, maxSrc L = e.1 := by
  rcases (foldl_max_spec L 0).2.2 with h | h
  · -- a maximum of `0` is reached by every edge
    obtain ⟨e, es, rfl⟩ := List.exists_cons_of_ne_nil hne
    refine ⟨e, by simp, ?_⟩
    have hle := le_maxSrc (L := e :: es) (e := e) (by simp)
    have hzero : maxSrc (e :: es) = 0 := h
    rw [hzero] at hle ⊢
    apply UInt32.toNat_inj.mp
    rw [UInt32.le_iff_toNat_le] at hle
    have h0 : (0 : UInt32).toNat = 0 := rfl
    omega
  · exact h

theorem maxSrc_lt (hne : L ≠ []) (hsrc : ∀ e ∈ L, srcKey e < nodeCap.toNat) :
    (maxSrc L).toNat < nodeCap.toNat := by
  obtain ⟨e, he, hmax⟩ := exists_maxSrc hne
  rw [hmax]
  exact hsrc e he

end NexusCore.Csr
