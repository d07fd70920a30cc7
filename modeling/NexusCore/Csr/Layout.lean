import NexusCore.Csr.Rebuild

/-!
# When the layout of a fresh graph is sound

`init` tests the size of the region in `usize` but computes the two offsets behind the row
pointers in `u32`, so a build without overflow checks accepts capacities whose offsets wrap.

* `init_fields`: the offsets that an accepted call leaves in the header, as wrapped sums;
* `columns_alias`: a wrapped column offset points back into the header or the row pointers;
* `init_layout_sound_iff`: the layout is sound exactly when the size fits in 32 bits.
-/

namespace NexusCore.Csr

open Foundation.Machine Foundation.LinearMemory

variable {p : Profile} {g : CsrGraph} {nodeCap edgeCap : UInt32} {m₀ m : Mem} {memLen : ℕ}

/-! ### The regions of the header's geometry -/

/-- The block in front of the first region. -/
def headerBlock : Set ℕ := Set.Ico 0 64

/-- The bytes of `nodeCap + 1` row pointers at the offset in the header. -/
def rowPtrRegion (m : Mem) (nodeCap : UInt32) : Set ℕ :=
  Set.Ico (rowPtrOffset m).toNat ((rowPtrOffset m).toNat + 4 * (nodeCap.toNat + 1))

/-- The bytes of `edgeCap` columns at the offset in the header. -/
def colIdxRegion (m : Mem) (edgeCap : UInt32) : Set ℕ :=
  Set.Ico (colIdxOffset m).toNat ((colIdxOffset m).toNat + 4 * edgeCap.toNat)

/-- A sound layout: three regions beside each other inside the memory, and a watermark at
the end of the last one. -/
structure LayoutSound (nodeCap edgeCap : UInt32) (memLen : ℕ) (m : Mem) : Prop where
  header_rows : Disjoint headerBlock (rowPtrRegion m nodeCap)
  header_cols : Disjoint headerBlock (colIdxRegion m edgeCap)
  rows_cols : Disjoint (rowPtrRegion m nodeCap) (colIdxRegion m edgeCap)
  header_in : headerBlock ⊆ Set.Ico 0 memLen
  rows_in : rowPtrRegion m nodeCap ⊆ Set.Ico 0 memLen
  cols_in : colIdxRegion m edgeCap ⊆ Set.Ico 0 memLen
  watermark : (bumpWatermark m).toNat = requiredBytes nodeCap edgeCap

/-! ### What an accepted call leaves in the header -/

/-- A sum that is returned is the wrapped sum. -/
theorem eq_add32_of_ok {a b c : UInt32} (h : p.add32 a b = .ok c) : c = a + b := by
  unfold Profile.add32 at h
  split at h
  · cases h
  · cases h
    rfl

theorem eq_mul32_of_ok {a b c : UInt32} (h : p.mul32 a b = .ok c) : c = a * b := by
  unfold Profile.mul32 at h
  split at h
  · cases h
  · cases h
    rfl

/-- An accepted call ends by zeroing the row pointers behind the header it wrote. -/
theorem init_inversion (hinit : init p m₀ memLen nodeCap edgeCap = .ok (m, .ok g)) :
    g.memLen = memLen ∧ requiredBytes nodeCap edgeCap ≤ memLen ∧
    m = (Slice.mk 64 (nodeCap + 1).toNat).fill 0 (initHeader m₀ nodeCap edgeCap
      (64 + (nodeCap + 1) * 4) (64 + (nodeCap + 1) * 4 + edgeCap * 4)) := by
  have hmem := requiredBytes_le_of_init hinit
  rw [init, dif_neg (Nat.not_lt.mpr hmem)] at hinit
  obtain ⟨rows, hrows, hinit⟩ := bind_eq_ok.mp hinit
  obtain ⟨rowBytes, hrowBytes, hinit⟩ := bind_eq_ok.mp hinit
  obtain ⟨colIdx, hcolIdx, hinit⟩ := bind_eq_ok.mp hinit
  obtain ⟨colBytes, hcolBytes, hinit⟩ := bind_eq_ok.mp hinit
  obtain ⟨mark, hmark, hinit⟩ := bind_eq_ok.mp hinit
  obtain ⟨rowPtr, hrowPtr, hend⟩ := bind_eq_ok.mp hinit
  rw [show colIdxOffset (setColIdxOffset _ colIdx) = colIdx from readU32_writeU32 _ _ _] at hmark
  obtain rfl := eq_add32_of_ok hrows
  obtain rfl := eq_mul32_of_ok hrowBytes
  obtain rfl := eq_add32_of_ok hcolIdx
  obtain rfl := eq_mul32_of_ok hcolBytes
  obtain rfl := eq_add32_of_ok hmark
  obtain ⟨-, -, hoffset, -, -⟩ := initHeader_fields m₀ nodeCap edgeCap (64 + (nodeCap + 1) * 4)
    (64 + (nodeCap + 1) * 4 + edgeCap * 4)
  have hslice : rowPtr = ⟨64, (nodeCap + 1).toNat⟩ := by
    unfold CsrGraph.fromRawParts at hrowPtr
    split at hrowPtr
    · cases hrowPtr
      exact congrArg (fun o : UInt32 => Slice.mk o.toNat (nodeCap + 1).toNat) hoffset
    · cases hrowPtr
  obtain ⟨hm, hg⟩ := Prod.mk.inj (Except.ok.inj hend)
  refine ⟨?_, hmem, ?_⟩
  · rw [← Except.ok.inj hg]
  · rw [← hm, hslice]
    rfl

/-- **The header of an accepted call**: its offsets are sums and products on 32-bit words. -/
theorem init_fields (hinit : init p m₀ memLen nodeCap edgeCap = .ok (m, .ok g)) :
    rowPtrOffset m = 64 ∧ colIdxOffset m = 64 + (nodeCap + 1) * 4 ∧
      bumpWatermark m = 64 + (nodeCap + 1) * 4 + edgeCap * 4 := by
  obtain ⟨-, -, hm⟩ := init_inversion hinit
  obtain ⟨-, -, hrow, hcol, hmark⟩ := initHeader_fields m₀ nodeCap edgeCap
    (64 + (nodeCap + 1) * 4) (64 + (nodeCap + 1) * 4 + edgeCap * 4)
  have hfill := ((Slice.mk 64 (nodeCap + 1).toNat).fill_spec 0 (initHeader m₀ nodeCap edgeCap
    (64 + (nodeCap + 1) * 4) (64 + (nodeCap + 1) * 4 + edgeCap * 4))).2
  rw [← hm] at hfill
  have hbelow : ∀ a b, b ≤ 64 → Disjoint (Slice.mk 64 (nodeCap + 1).toNat).extent (Set.Ico a b) :=
    fun a b hb => ico_disjoint_extent (Nat.le_refl _) a hb
  refine ⟨?_, ?_, ?_⟩
  · exact (hfill.readU32 (hbelow _ _ (by omega))).trans hrow
  · exact (hfill.readU32 (hbelow _ _ (by omega))).trans hcol
  · exact (hfill.readU32 (hbelow _ _ (by omega))).trans hmark

/-- A build without overflow checks accepts every region of the computed size. -/
theorem init_release_ok (m₀ : Mem) (hmem : requiredBytes nodeCap edgeCap ≤ memLen) :
    ∃ m g, init .release m₀ memLen nodeCap edgeCap = .ok (m, .ok g) := by
  have hrows : (nodeCap + 1).toNat ≤ nodeCap.toNat + 1 := by
    rw [UInt32.toNat_add]
    exact Nat.mod_le _ _
  have h64 : 64 ≤ memLen := by
    rw [requiredBytes] at hmem
    omega
  let h := initHeader m₀ nodeCap edgeCap (64 + (nodeCap + 1) * 4)
    (64 + (nodeCap + 1) * 4 + edgeCap * 4)
  have hoffset : rowPtrOffset h = 64 := (initHeader_fields m₀ nodeCap edgeCap _ _).2.2.1
  have hraw : CsrGraph.fromRawParts ⟨memLen, h64⟩ (rowPtrOffset h) (nodeCap + 1).toNat
      = .ok ⟨64, (nodeCap + 1).toNat⟩ := by
    rw [hoffset, CsrGraph.fromRawParts, if_pos]
    · rfl
    · show 64 + 4 * (nodeCap + 1).toNat ≤ memLen
      rw [requiredBytes] at hmem
      omega
  have hadd : ∀ a b : UInt32, Profile.release.add32 a b = .ok (a + b) := fun _ _ =>
    if_neg fun hc => Profile.noConfusion hc.1
  have hmul : ∀ a b : UInt32, Profile.release.mul32 a b = .ok (a * b) := fun _ _ =>
    if_neg fun hc => Profile.noConfusion hc.1
  refine ⟨(Slice.mk 64 (nodeCap + 1).toNat).fill 0 h, ⟨memLen, h64⟩, ?_⟩
  rw [init, dif_neg (Nat.not_lt.mpr hmem)]
  simp only [hadd, hmul, ok_bind]
  rw [show colIdxOffset (setColIdxOffset _ (64 + (nodeCap + 1) * 4))
    = 64 + (nodeCap + 1) * 4 from readU32_writeU32 _ _ _]
  exact (congrArg (· >>= _) hraw).trans rfl

/-- **A wrapped column offset aliases.**  If the columns would begin at `2 ^ 32` or later,
then the first column lies in the header or among the row pointers. -/
theorem columns_alias (hinit : init p m₀ memLen nodeCap edgeCap = .ok (m, .ok g))
    (hwrap : 2 ^ 32 ≤ colBase nodeCap) (hedges : 0 < edgeCap.toNat) :
    ¬ (Disjoint headerBlock (colIdxRegion m edgeCap) ∧
      Disjoint (rowPtrRegion m nodeCap) (colIdxRegion m edgeCap)) := by
  obtain ⟨hrow, -, -⟩ := init_fields hinit
  have hcol := (colIdxOffset m).toNat_lt
  have h64 : (64 : UInt32).toNat = 64 := rfl
  intro hdisj
  obtain ⟨hheader, hrows⟩ := hdisj
  rw [colBase] at hwrap
  rw [headerBlock, colIdxRegion, Set.Ico_disjoint_Ico] at hheader
  rw [rowPtrRegion, colIdxRegion, Set.Ico_disjoint_Ico, hrow, h64] at hrows
  omega

/-! ### Exactly when the layout is sound -/

/-- The regions of a graph with its geometry in place. -/
theorem Geometry.layoutSound (h : Geometry g nodeCap edgeCap m) :
    LayoutSound nodeCap edgeCap g.memLen m := by
  have hfits := h.fits
  have hcol := h.col_idx_offset
  have hrow : (rowPtrOffset m).toNat = 64 := congrArg UInt32.toNat h.row_ptr_offset
  rw [requiredBytes_eq, colBase] at hfits
  rw [colBase] at hcol
  constructor
  · rw [headerBlock, rowPtrRegion, Set.Ico_disjoint_Ico]
    omega
  · rw [headerBlock, colIdxRegion, Set.Ico_disjoint_Ico]
    omega
  · rw [rowPtrRegion, colIdxRegion, Set.Ico_disjoint_Ico]
    omega
  · exact Set.Ico_subset_Ico (Nat.le_refl _) (by omega)
  · exact Set.Ico_subset_Ico (Nat.zero_le _) (by omega)
  · exact Set.Ico_subset_Ico (Nat.zero_le _) (by omega)
  · exact h.watermark

/-- **An accepted call leaves a sound layout exactly when the size fits in 32 bits**: only then
does the build with overflow checks accept the call, too, and are the three regions beside each
other inside the memory with the watermark at their end. -/
theorem init_layout_sound_iff (hinit : init p m₀ memLen nodeCap edgeCap = .ok (m, .ok g)) :
    (Returns (init .dev m₀ memLen nodeCap edgeCap) ∧ LayoutSound nodeCap edgeCap memLen m) ↔
      requiredBytes nodeCap edgeCap < 2 ^ 32 := by
  obtain ⟨hlen, hmem, -⟩ := init_inversion hinit
  constructor
  · intro hsound
    rw [← hsound.2.watermark]
    exact (bumpWatermark m).toNat_lt
  · intro hlay
    obtain ⟨m₁, g₁, hok, -, -⟩ := init_ok m₀ hlay hmem .dev
    refine ⟨⟨_, hok⟩, ?_⟩
    rw [← hlen]
    exact (init_spec hlay hinit).1.toGeometry.layoutSound

theorem init_layout_sound_iff_small :
    ∃ m g, init .release (fun _ => 7) 100 3 4 = .ok (m, .ok g) ∧
      ((Returns (init .dev (fun _ => 7) 100 3 4) ∧ LayoutSound 3 4 100 m) ↔
        requiredBytes 3 4 < 2 ^ 32) := by
  obtain ⟨m, g, hinit, -⟩ := @init_ok 3 4 100 (fun _ => 7) (by decide) (by decide) .release
  exact ⟨m, g, hinit, init_layout_sound_iff hinit⟩

/-- `2 ^ 30 - 1` nodes and one edge: the columns begin where the row pointers do. -/
theorem init_layout_aliases :
    ∃ m g, init .release (fun _ => 0) 4294967364 1073741823 1 = .ok (m, .ok g) ∧
      colIdxOffset m = rowPtrOffset m ∧
      ¬ (Returns (init .dev (fun _ => 0) 4294967364 1073741823 1) ∧
        LayoutSound 1073741823 1 4294967364 m) := by
  obtain ⟨m, g, hinit⟩ :=
    @init_release_ok 1073741823 1 4294967364 (fun _ => 0) (by decide +kernel)
  obtain ⟨hrow, hcol, -⟩ := init_fields hinit
  refine ⟨m, g, hinit, ?_, ?_⟩
  · rw [hrow, hcol]
    decide +kernel
  · intro hsound
    exact columns_alias hinit (by decide +kernel) (by decide)
      ⟨hsound.2.header_cols, hsound.2.rows_cols⟩

end NexusCore.Csr
