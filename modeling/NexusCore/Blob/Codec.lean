import NexusCore.Blob.Engine

/-!
# The blob codec loses nothing

`fromBlob_sections` reads a blob that is given section by section; every blob that is long
enough for its two header words is of that form (`exists_sections`).  From the two follow
both directions of the codec:

* `fromBlob_ok_iff` and `fromBlob_shape`: what is accepted, and that it is an engine in the
  documented layout;
* `Packable.gen_eq_toBlob` and `Shape.fromBlob_toBlob`: the script writes an engine in that layout,
  and the reader finds its row pointers, its columns and every document body.
-/

namespace NexusCore.Blob

open Foundation.Machine Foundation.ByteOrder

/-! ### Sections -/

/-- The header words of a blob. -/
def headerNodes (blob : List UInt8) : UInt32 := u32FromLe (blob.take 4)

def headerEdges (blob : List UInt8) : UInt32 := u32FromLe ((blob.drop 4).take 4)

/-- The documented layout, section by section. -/
def sections (n z : UInt32) (rows cols docs arena : List UInt8) : List UInt8 :=
  u32ToLe n ++ u32ToLe z ++ rows ++ cols ++ docs ++ arena

/-- The three arrays have the sizes that the header words give them. -/
structure Sized (n z : UInt32) (rows cols docs : List UInt8) : Prop where
  rows_length : rows.length = 4 * (n.toNat + 1)
  cols_length : cols.length = 4 * z.toNat
  docs_length : docs.length = 8 * z.toNat

variable {α : Type} {n z : UInt32} {rows cols docs arena : List UInt8}

theorem sections_length (h : Sized n z rows cols docs) :
    (sections n z rows cols docs arena).length = sectionsEnd n.toNat z.toNat + arena.length := by
  simp only [sections, List.length_append, u32ToLe_length, h.rows_length, h.cols_length,
    h.docs_length, sectionsEnd]
  omega

/-- A blob that is long enough for its header words is made of sections. -/
theorem exists_sections {blob : List UInt8} (h8 : 8 ≤ blob.length)
    (h : sectionsEnd (headerNodes blob).toNat (headerEdges blob).toNat ≤ blob.length) :
    ∃ rows cols docs arena, Sized (headerNodes blob) (headerEdges blob) rows cols docs ∧
      blob = sections (headerNodes blob) (headerEdges blob) rows cols docs arena := by
  unfold sectionsEnd at h
  let a := 4 * ((headerNodes blob).toNat + 1)
  let b := 4 * (headerEdges blob).toNat
  let c := 8 * (headerEdges blob).toNat
  have ha : a = 4 * ((headerNodes blob).toNat + 1) := rfl
  have hb : b = 4 * (headerEdges blob).toNat := rfl
  have hc : c = 8 * (headerEdges blob).toNat := rfl
  refine ⟨(blob.drop 8).take a, (blob.drop (8 + a)).take b, (blob.drop (8 + a + b)).take c,
    blob.drop (8 + a + b + c), ⟨?_, ?_, ?_⟩, ?_⟩
  · rw [List.length_take, List.length_drop]
    omega
  · rw [List.length_take, List.length_drop]
    omega
  · rw [List.length_take, List.length_drop]
    omega
  · have hn : u32ToLe (headerNodes blob) = blob.take 4 := by
      apply u32ToLe_u32FromLe
      rw [List.length_take]
      omega
    have hz : u32ToLe (headerEdges blob) = (blob.drop 4).take 4 := by
      apply u32ToLe_u32FromLe
      rw [List.length_take, List.length_drop]
      omega
    rw [sections, hn, hz, ← List.take_add, ← List.take_add, ← List.take_add, ← List.take_add,
      List.take_append_drop]

/-! ### Reading sections -/

/-- **The reader on a blob given by its sections.** -/
theorem fromBlob_sections (h : Sized n z rows cols docs) :
    fromBlob (sections n z rows cols docs arena) = .ok (.ok
      { rowPtr := (chunks 4 (n.toNat + 1) rows).map u32FromLe
        colIdx := (chunks 4 z.toNat cols).map u32FromLe
        docOffsets := (chunks 8 z.toNat docs).map u64FromLe
        arena := arena }) := by
  have hlen : (sections n z rows cols docs arena).length
      = sectionsEnd n.toNat z.toNat + arena.length := sections_length h
  have hend : sectionsEnd n.toNat z.toNat
      = 8 + (n.toNat + 1) * 4 + z.toNat * 4 + z.toNat * 8 := rfl
  obtain ⟨hrows, hcols, hdocs⟩ := h
  have hnodes : slice (sections n z rows cols docs arena) 0 4 = .ok (u32ToLe n) :=
    slice_append (x := []) (z := u32ToLe z ++ rows ++ cols ++ docs ++ arena)
      (by simp [sections]) rfl (by simp)
  have hedges : slice (sections n z rows cols docs arena) 4 8 = .ok (u32ToLe z) :=
    slice_append (x := u32ToLe n) (z := rows ++ cols ++ docs ++ arena)
      (by simp [sections]) (by simp) (by simp)
  have hrow : slice (sections n z rows cols docs arena) 8 (8 + (n.toNat + 1) * 4) = .ok rows :=
    slice_append (x := u32ToLe n ++ u32ToLe z) (z := cols ++ docs ++ arena)
      (by simp [sections]) (by simp) (by omega)
  have hcol : slice (sections n z rows cols docs arena) (8 + (n.toNat + 1) * 4)
      (8 + (n.toNat + 1) * 4 + z.toNat * 4) = .ok cols :=
    slice_append (x := u32ToLe n ++ u32ToLe z ++ rows) (z := docs ++ arena)
      (by simp [sections]) (by simp [hrows]; omega) (by omega)
  have hdoc : slice (sections n z rows cols docs arena) (8 + (n.toNat + 1) * 4 + z.toNat * 4)
      (8 + (n.toNat + 1) * 4 + z.toNat * 4 + z.toNat * 8) = .ok docs :=
    slice_append (x := u32ToLe n ++ u32ToLe z ++ rows ++ cols) (z := arena)
      (by simp [sections]) (by simp [hrows, hcols]; omega) (by omega)
  have harena : slice (sections n z rows cols docs arena)
      (8 + (n.toNat + 1) * 4 + z.toNat * 4 + z.toNat * 8)
      (sections n z rows cols docs arena).length = .ok arena :=
    slice_append (x := u32ToLe n ++ u32ToLe z ++ rows ++ cols ++ docs) (z := [])
      (by simp [sections]) (by simp [hrows, hcols, hdocs]; omega) (by omega)
  rw [fromBlob, if_neg (by omega)]
  simp only [hnodes, hedges, ok_bind, u32FromLe_u32ToLe]
  rw [if_neg (by omega)]
  simp only [hrow, hcol, hdoc, harena, ok_bind,
    chunksExact_of_length (show 0 < 4 by decide) hrows,
    chunksExact_of_length (show 0 < 4 by decide) hcols,
    chunksExact_of_length (show 0 < 8 by decide) hdocs]

/-- A blob too short for its header words is refused. -/
theorem fromBlob_of_short {blob : List UInt8} (h : ¬ (8 ≤ blob.length ∧
    sectionsEnd (headerNodes blob).toNat (headerEdges blob).toNat ≤ blob.length)) :
    ∃ e, fromBlob blob = .ok (.error e) := by
  by_cases h8 : 8 ≤ blob.length
  · have hshort : blob.length < sectionsEnd (headerNodes blob).toNat (headerEdges blob).toNat :=
      Nat.not_le.mp fun hle => h ⟨h8, hle⟩
    have hnodes : slice blob 0 4 = .ok (blob.take 4) := slice_of_le (by omega) (by omega)
    have hedges : slice blob 4 8 = .ok ((blob.drop 4).take 4) := slice_of_le (by omega) (by omega)
    refine ⟨"blob truncated", ?_⟩
    rw [fromBlob, if_neg (by omega)]
    simp only [hnodes, hedges, ok_bind]
    exact if_pos hshort
  · exact ⟨"blob too short", if_pos (Nat.not_le.mp h8)⟩

/-- **What is accepted**: the strings long enough for the header words they carry. -/
theorem fromBlob_ok_iff (blob : List UInt8) :
    (∃ g, fromBlob blob = .ok (.ok g)) ↔ 8 ≤ blob.length ∧
      sectionsEnd (headerNodes blob).toNat (headerEdges blob).toNat ≤ blob.length := by
  constructor
  · rintro ⟨g, hg⟩
    by_contra hshort
    obtain ⟨e, he⟩ := fromBlob_of_short hshort
    rw [he] at hg
    cases hg
  · rintro ⟨h8, hlen⟩
    obtain ⟨rows, cols, docs, arena, hsized, hblob⟩ := exists_sections h8 hlen
    rw [hblob]
    exact ⟨_, fromBlob_sections hsized⟩

/-! ### Writing back -/

/-- The sizes of an engine that a blob was read into. -/
structure Shape (g : GraphEngine) (n z : UInt32) : Prop where
  rowPtr_length : g.rowPtr.length = n.toNat + 1
  colIdx_length : g.colIdx.length = z.toNat
  docOffsets_length : g.docOffsets.length = z.toNat

variable {g : GraphEngine}

theorem Shape.toBlob_eq (h : Shape g n z) :
    toBlob g = sections n z (g.rowPtr.flatMap u32ToLe) (g.colIdx.flatMap u32ToLe)
      (g.docOffsets.flatMap u64ToLe) g.arena := by
  have hn : g.nNodes = n := by
    rw [GraphEngine.nNodes, h.rowPtr_length, Nat.add_sub_cancel, UInt32.ofNat_toNat]
  have hz : g.nnz = z := by rw [GraphEngine.nnz, h.colIdx_length, UInt32.ofNat_toNat]
  rw [toBlob, hn, hz, sections]

/-- Equal pieces have a total length. -/
theorem flatMap_length {k : ℕ} (f : α → List UInt8) (hf : ∀ a, (f a).length = k)
    (l : List α) : (l.flatMap f).length = k * l.length := by
  induction l with
  | nil => rfl
  | cons a l ih =>
      rw [List.flatMap_cons, List.length_append, ih, hf, List.length_cons, Nat.mul_succ]
      exact Nat.add_comm _ _

/-- **Reading what was written** gives the engine back. -/
theorem Shape.fromBlob_toBlob (h : Shape g n z) : fromBlob (toBlob g) = .ok (.ok g) := by
  have hsized : Sized n z (g.rowPtr.flatMap u32ToLe) (g.colIdx.flatMap u32ToLe)
      (g.docOffsets.flatMap u64ToLe) :=
    ⟨by rw [flatMap_length _ u32ToLe_length, h.rowPtr_length],
      by rw [flatMap_length _ u32ToLe_length, h.colIdx_length],
      by rw [flatMap_length _ u64ToLe_length, h.docOffsets_length]⟩
  have hwords : ∀ (l : List UInt32) {k : ℕ}, l.length = k →
      (chunks 4 k (l.flatMap u32ToLe)).map u32FromLe = l := by
    intro l k hk
    have hc := chunks_flatMap 4 u32ToLe l [] fun v _ => u32ToLe_length v
    rw [List.append_nil, hk] at hc
    rw [hc, List.map_map, show u32FromLe ∘ u32ToLe = id from funext u32FromLe_u32ToLe, List.map_id]
  have hdocs : (chunks 8 z.toNat (g.docOffsets.flatMap u64ToLe)).map u64FromLe = g.docOffsets := by
    have hc := chunks_flatMap 8 u64ToLe g.docOffsets [] fun v _ => u64ToLe_length v
    rw [List.append_nil, h.docOffsets_length] at hc
    rw [hc, List.map_map, show u64FromLe ∘ u64ToLe = id from funext u64FromLe_u64ToLe, List.map_id]
  rw [h.toBlob_eq, fromBlob_sections hsized, hwords _ h.rowPtr_length, hwords _ h.colIdx_length,
    hdocs]

/-- An accepted blob has the shape its header words give it, and writes back to itself. -/
theorem fromBlob_shape {blob : List UInt8} (hg : fromBlob blob = .ok (.ok g)) :
    Shape g (headerNodes blob) (headerEdges blob) ∧ toBlob g = blob := by
  obtain ⟨h8, hlen⟩ := (fromBlob_ok_iff blob).mp ⟨g, hg⟩
  obtain ⟨rows, cols, docs, arena, hsized, hblob⟩ := exists_sections h8 hlen
  rw [hblob, fromBlob_sections hsized] at hg
  cases hg
  have hshape : Shape
      { rowPtr := (chunks 4 ((headerNodes blob).toNat + 1) rows).map u32FromLe
        colIdx := (chunks 4 (headerEdges blob).toNat cols).map u32FromLe
        docOffsets := (chunks 8 (headerEdges blob).toNat docs).map u64FromLe
        arena := arena } (headerNodes blob) (headerEdges blob) :=
    ⟨by rw [List.length_map, chunks_length], by rw [List.length_map, chunks_length],
      by rw [List.length_map, chunks_length]⟩
  refine ⟨hshape, ?_⟩
  rw [hshape.toBlob_eq, flatMap_chunks hsized.rows_length fun c => u32ToLe_u32FromLe,
    flatMap_chunks hsized.cols_length fun c => u32ToLe_u32FromLe,
    flatMap_chunks hsized.docs_length fun c => u64ToLe_u64FromLe, ← hblob]

/-! ### The generator script -/

theorem flatMap_range_length (f : ℕ → List α) (k : ℕ) :
    ((List.range k).flatMap f).length = ∑ i ∈ Finset.range k, (f i).length := by
  induction k with
  | zero => rfl
  | succ k ih =>
      rw [List.range_succ, List.flatMap_append, List.length_append, ih, Finset.sum_range_succ,
        List.flatMap_singleton]

/-- The arrays of the script: running degree sums and the concatenated adjacency lists. -/
theorem genRows_spec (edges : ℕ → List ℕ) (nNodes : ℕ) :
    genRows edges nNodes
      = ((List.range (nNodes + 1)).map fun k => ∑ i ∈ Finset.range k, (edges i).length,
          (List.range nNodes).flatMap edges) := by
  induction nNodes with
  | zero => rfl
  | succ k ih =>
      rw [genRows] at ih ⊢
      rw [List.range_succ, List.foldl_append, ih, List.range_succ (n := k + 1)]
      simp only [List.foldl_cons, List.foldl_nil, List.map_append, List.map_singleton,
        List.flatMap_append, List.flatMap_singleton, List.length_append,
        flatMap_range_length, Finset.sum_range_succ]

/-- The arena of the script and its packed references. -/
theorem genDocs_spec (body : ℕ → List UInt8) (nnz : ℕ) :
    genDocs body nnz
      = ((List.range nnz).flatMap body,
          (List.range nnz).map fun i =>
            ((∑ j ∈ Finset.range i, (body j).length) <<< 20)
              ||| ((body i).length &&& 0xFFFFF)) := by
  induction nnz with
  | zero => rfl
  | succ k ih =>
      rw [genDocs] at ih ⊢
      rw [List.range_succ, List.foldl_append, ih]
      simp only [List.foldl_cons, List.foldl_nil, List.map_append, List.map_singleton,
        List.flatMap_append, List.flatMap_singleton, flatMap_range_length]

/-- A packed reference carries its offset and its length. -/
theorem packed_fields {off len : ℕ} (hoff : off < 2 ^ 44) (hlen : len < 2 ^ 20) :
    (off <<< 20) ||| (len &&& 0xFFFFF) < 2 ^ 64 ∧
      docOffset (UInt64.ofNat ((off <<< 20) ||| (len &&& 0xFFFFF))) = off ∧
      docLen (UInt64.ofNat ((off <<< 20) ||| (len &&& 0xFFFFF))) = len := by
  have hmask : len &&& 0xFFFFF = len := by
    rw [show 0xFFFFF = 2 ^ 20 - 1 from rfl, Nat.and_two_pow_sub_one_eq_mod, Nat.mod_eq_of_lt hlen]
  have hval : (off <<< 20) ||| (len &&& 0xFFFFF) = off * 2 ^ 20 + len := by
    rw [hmask, ← Nat.shiftLeft_add_eq_or_of_lt hlen, Nat.shiftLeft_eq]
  have hfit : off * 2 ^ 20 + len < 2 ^ 64 := by omega
  rw [hval]
  refine ⟨hfit, ?_, ?_⟩
  · rw [docOffset, UInt64.toNat_shiftRight, UInt64.toNat_ofNat', Nat.mod_eq_of_lt hfit,
      Nat.shiftRight_eq_div_pow, show (20 : UInt64).toNat % 64 = 20 from rfl]
    omega
  · rw [docLen, UInt64.toNat_and, UInt64.toNat_ofNat', Nat.mod_eq_of_lt hfit,
      show (0x000FFFFF : UInt64).toNat = 2 ^ 20 - 1 from rfl, Nat.and_two_pow_sub_one_eq_mod]
    omega

/-- The body of slot `i` stands in the arena after the bodies of the slots before it. -/
theorem slice_flatMap_range (body : ℕ → List UInt8) {i k : ℕ} (hi : i < k) :
    slice ((List.range k).flatMap body) (∑ j ∈ Finset.range i, (body j).length)
      ((∑ j ∈ Finset.range i, (body j).length) + (body i).length) = .ok (body i) := by
  have hsplit : ∃ rest, (List.range k).flatMap body
      = (List.range i).flatMap body ++ (body i ++ rest) := by
    induction k with
    | zero => omega
    | succ k ih =>
        rw [List.range_succ, List.flatMap_append, List.flatMap_singleton]
        rcases Nat.lt_succ_iff_lt_or_eq.mp hi with hlt | rfl
        · obtain ⟨rest, hrest⟩ := ih hlt
          exact ⟨rest ++ body k, by rw [hrest, List.append_assoc, List.append_assoc]⟩
        · exact ⟨[], by rw [List.append_nil]⟩
  obtain ⟨rest, hrest⟩ := hsplit
  exact slice_append hrest (flatMap_range_length body i).symm rfl

/-- Packing numbers that all fit. -/
theorem mapM_pack {w : ℕ} {l : List ℕ} (h : ∀ v ∈ l, v < 256 ^ w) :
    l.mapM (pack w) = some (l.map (leBytes w)) := by
  induction l with
  | nil => rfl
  | cons v l ih =>
      have hv : pack w v = some (leBytes w v) := if_pos (h v (by simp))
      rw [List.mapM_cons, hv, ih fun u hu => h u (by simp [hu])]
      rfl

theorem flatten_u32 {l : List ℕ} (h : ∀ v ∈ l, v < 2 ^ 32) :
    (l.map (leBytes 4)).flatten = (l.map UInt32.ofNat).flatMap u32ToLe := by
  rw [List.flatMap_def, List.map_map]
  congr 1
  apply List.map_congr_left
  intro v hv
  rw [Function.comp_apply, u32ToLe, UInt32.toNat_ofNat_of_lt' (h v hv)]

theorem flatten_u64 {l : List ℕ} (h : ∀ v ∈ l, v < 2 ^ 64) :
    (l.map (leBytes 8)).flatten = (l.map UInt64.ofNat).flatMap u64ToLe := by
  rw [List.flatMap_def, List.map_map]
  congr 1
  apply List.map_congr_left
  intro v hv
  rw [Function.comp_apply, u64ToLe, UInt64.toNat_ofNat', Nat.mod_eq_of_lt (h v hv)]

/-- Numbers that fit are kept by the word type. -/
theorem map_toNat_ofNat {l : List ℕ} (h : ∀ v ∈ l, v < 2 ^ 32) :
    (l.map UInt32.ofNat).map UInt32.toNat = l := by
  rw [List.map_map]
  conv_rhs => rw [← List.map_id l]
  apply List.map_congr_left
  intro v hv
  rw [Function.comp_apply, UInt32.toNat_ofNat_of_lt' (h v hv), id]

/-- The numbers of edge slots and of arena bytes of a generated graph. -/
def slotCount (nNodes : ℕ) (edges : ℕ → List ℕ) : ℕ := ∑ i ∈ Finset.range nNodes, (edges i).length

def arenaSize (body : ℕ → List UInt8) (nnz : ℕ) : ℕ := ∑ i ∈ Finset.range nnz, (body i).length

/-- The limits of the format: ids and counts in 32 bits, offsets in 44, lengths in 20. -/
structure Packable (nNodes : ℕ) (edges : ℕ → List ℕ) (body : ℕ → List UInt8) : Prop where
  nodes : nNodes < 2 ^ 32
  targets : ∀ i < nNodes, ∀ v ∈ edges i, v < 2 ^ 32
  slots : slotCount nNodes edges < 2 ^ 32
  bodies : ∀ i < slotCount nNodes edges, (body i).length < 2 ^ 20
  arena : arenaSize body (slotCount nNodes edges) < 2 ^ 44

/-- The engine that the script writes out. -/
def genEngine (nNodes : ℕ) (edges : ℕ → List ℕ) (body : ℕ → List UInt8) : GraphEngine where
  rowPtr := (genRows edges nNodes).1.map UInt32.ofNat
  colIdx := (genRows edges nNodes).2.map UInt32.ofNat
  docOffsets := (genDocs body (slotCount nNodes edges)).2.map UInt64.ofNat
  arena := (genDocs body (slotCount nNodes edges)).1

section Gen

variable {nNodes : ℕ} {edges : ℕ → List ℕ} {body : ℕ → List UInt8}

theorem Packable.degreeSum_lt (h : Packable nNodes edges body) {k : ℕ} (hk : k ≤ nNodes) :
    ∑ i ∈ Finset.range k, (edges i).length < 2 ^ 32 :=
  Nat.lt_of_le_of_lt (Finset.sum_le_sum_of_subset (Finset.range_mono hk)) h.slots

theorem Packable.rows_lt (h : Packable nNodes edges body) :
    ∀ v ∈ (genRows edges nNodes).1, v < 2 ^ 32 := by
  rw [genRows_spec]
  intro v hv
  obtain ⟨k, hk, rfl⟩ := List.mem_map.mp hv
  exact h.degreeSum_lt (Nat.le_of_lt_succ (List.mem_range.mp hk))

theorem Packable.cols_lt (h : Packable nNodes edges body) :
    ∀ v ∈ (genRows edges nNodes).2, v < 2 ^ 32 := by
  rw [genRows_spec]
  intro v hv
  obtain ⟨i, hi, hmem⟩ := List.mem_flatMap.mp hv
  exact h.targets i (List.mem_range.mp hi) v hmem

/-- Every document starts below the limit of the offset field. -/
theorem Packable.offset_lt (h : Packable nNodes edges body) {i : ℕ}
    (hi : i < slotCount nNodes edges) : ∑ j ∈ Finset.range i, (body j).length < 2 ^ 44 :=
  Nat.lt_of_le_of_lt (Finset.sum_le_sum_of_subset (Finset.range_mono (Nat.le_of_lt hi))) h.arena

theorem Packable.docs_lt (h : Packable nNodes edges body) :
    ∀ v ∈ (genDocs body (slotCount nNodes edges)).2, v < 2 ^ 64 := by
  rw [genDocs_spec]
  intro v hv
  obtain ⟨i, hi, rfl⟩ := List.mem_map.mp hv
  have hlt := List.mem_range.mp hi
  exact (packed_fields (h.offset_lt hlt) (h.bodies i hlt)).1

theorem Packable.shape (h : Packable nNodes edges body) :
    Shape (genEngine nNodes edges body) (UInt32.ofNat nNodes)
      (UInt32.ofNat (slotCount nNodes edges)) := by
  have hn : (UInt32.ofNat nNodes).toNat = nNodes := by
    rw [UInt32.toNat_ofNat_of_lt' h.nodes]
  have hz : (UInt32.ofNat (slotCount nNodes edges)).toNat = slotCount nNodes edges := by
    rw [UInt32.toNat_ofNat_of_lt' h.slots]
  refine ⟨?_, ?_, ?_⟩
  · rw [hn, genEngine, List.length_map, genRows_spec, List.length_map, List.length_range]
  · rw [hz, genEngine, List.length_map, genRows_spec, flatMap_range_length, slotCount]
  · rw [hz, genEngine, List.length_map, genDocs_spec, List.length_map, List.length_range]

/-- **The script writes the documented layout** of its engine. -/
theorem Packable.gen_eq_toBlob (h : Packable nNodes edges body) :
    gen nNodes edges body = some (toBlob (genEngine nNodes edges body)) := by
  have hrows : (genRows edges nNodes).1.mapM packI
      = some ((genRows edges nNodes).1.map (leBytes 4)) := mapM_pack h.rows_lt
  have hcols : (genRows edges nNodes).2.mapM packI
      = some ((genRows edges nNodes).2.map (leBytes 4)) := mapM_pack h.cols_lt
  have hdocs : (genDocs body (slotCount nNodes edges)).2.mapM packQ
      = some ((genDocs body (slotCount nNodes edges)).2.map (leBytes 8)) := mapM_pack h.docs_lt
  have hnnz : (genRows edges nNodes).2.length = slotCount nNodes edges := by
    rw [genRows_spec, flatMap_range_length, slotCount]
  have hword : ∀ v, v < 2 ^ 32 → packI v = some (u32ToLe (UInt32.ofNat v)) := by
    intro v hv
    rw [u32ToLe, UInt32.toNat_ofNat_of_lt' hv]
    exact if_pos hv
  rw [h.shape.toBlob_eq, gen]
  simp only [hnnz, hword _ h.nodes, hword _ h.slots, hrows, hcols, hdocs, Option.bind_eq_bind,
    Option.bind_some]
  rw [sections, flatten_u32 h.rows_lt, flatten_u32 h.cols_lt, flatten_u64 h.docs_lt]
  rfl

end Gen

/-- **The blob codec is lossless in both directions.**  What the reader accepts is exactly what
is long enough for its header words, and writes back to the same bytes; what the generator
lays out is accepted, with the running degree sums, the concatenated adjacency lists, and
every slot's body in its slice of the arena. -/
theorem blob_codec_lossless :
    (∀ blob : List UInt8,
      (∀ g, fromBlob blob = .ok (.ok g) → toBlob g = blob) ∧
      ((∃ g, fromBlob blob = .ok (.ok g)) ↔ 8 ≤ blob.length ∧
        8 + 4 * ((headerNodes blob).toNat + 1) + 12 * (headerEdges blob).toNat ≤ blob.length)) ∧
    (∀ (nNodes : ℕ) (edges : ℕ → List ℕ) (body : ℕ → List UInt8), Packable nNodes edges body →
      ∃ blob g, gen nNodes edges body = some blob ∧ fromBlob blob = .ok (.ok g) ∧
        g.rowPtr.map UInt32.toNat
          = (List.range (nNodes + 1)).map (fun k => ∑ i ∈ Finset.range k, (edges i).length) ∧
        g.colIdx.map UInt32.toNat = (List.range nNodes).flatMap edges ∧
        g.docOffsets.length = slotCount nNodes edges ∧
        ∀ i < slotCount nNodes edges, ∃ packed, g.docOffsets[i]? = some packed ∧
          slice g.arena (docOffset packed) (docOffset packed + docLen packed) = .ok (body i)) := by
  refine ⟨fun blob => ⟨fun g hg => (fromBlob_shape hg).2, ?_⟩, ?_⟩
  · have hend : sectionsEnd (headerNodes blob).toNat (headerEdges blob).toNat
        = 8 + 4 * ((headerNodes blob).toNat + 1) + 12 * (headerEdges blob).toNat := by
      unfold sectionsEnd
      omega
    rw [fromBlob_ok_iff, hend]
  · intro nNodes edges body h
    refine ⟨_, _, h.gen_eq_toBlob, h.shape.fromBlob_toBlob, ?_, ?_, ?_, ?_⟩
    · rw [genEngine, map_toNat_ofNat h.rows_lt, genRows_spec]
    · rw [genEngine, map_toNat_ofNat h.cols_lt, genRows_spec]
    · rw [genEngine, List.length_map, genDocs_spec, List.length_map, List.length_range]
    · intro i hi
      obtain ⟨-, hoff, hlen⟩ := packed_fields (h.offset_lt hi) (h.bodies i hi)
      refine ⟨UInt64.ofNat (((∑ j ∈ Finset.range i, (body j).length) <<< 20) |||
        ((body i).length &&& 0xFFFFF)), ?_, ?_⟩
      · rw [genEngine, genDocs_spec, List.map_map, List.getElem?_map,
          List.getElem?_range hi, Option.map_some, Function.comp_apply]
      · rw [hoff, hlen, genEngine, genDocs_spec]
        exact slice_flatMap_range body hi

theorem blob_codec_lossless_small :
    Packable 2 (fun i => if i = 0 then [1] else []) (fun _ => [123, 125]) ∧
      ∃ blob g, gen 2 (fun i => if i = 0 then [1] else []) (fun _ => [123, 125]) = some blob ∧
        fromBlob blob = .ok (.ok g) ∧ toBlob g = blob := by
  have hpack : Packable 2 (fun i => if i = 0 then [1] else []) (fun _ => [123, 125]) :=
    ⟨by decide, by decide, by decide, by decide, by decide⟩
  obtain ⟨blob, g, hgen, hg, -⟩ := blob_codec_lossless.2 2 _ _ hpack
  exact ⟨hpack, blob, g, hgen, hg, (blob_codec_lossless.1 blob).1 g hg⟩

end NexusCore.Blob
