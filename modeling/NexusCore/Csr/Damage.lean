import NexusCore.Csr.Runs

/-!
# Damaged graphs

What the operations do on a memory whose geometry is in place and whose magic word, counts,
row pointers and columns hold anything.

* `collectEdges_cases`: reading all rows ends at a decreasing row, at a row past the used
  columns, or with at most as many edges as the edge count says; successive rows share their
  boundary, so the lengths telescope;
* `addEdgeBatch_of_reads`: behind that loop nothing can go wrong any more, except that the
  generation may overflow;
* `addEdgeBatch_error_atomic`: an answered error left every byte as it was;
* `damage_reported_iff`: the operations report damaged rows exactly on the memories that have
  none.
-/

namespace NexusCore.Csr

open Foundation.Machine Foundation.LinearMemory

variable {p : Profile} {g : CsrGraph} {nodeCap edgeCap : UInt32} {m m' : Mem}

/-! ### The shapes of a row -/

/-- The boundaries of row `u` are in order and inside the used columns. -/
def RowConsistent (m : Mem) (u : ℕ) : Prop :=
  rowPtrAt m u ≤ rowPtrAt m (u + 1) ∧ rowPtrAt m (u + 1) ≤ (edgeCount m).toNat

theorem Geometry.row_holds (h : Geometry g nodeCap edgeCap m) :
    (rowSlice nodeCap).Holds m (rowPtrAt m) := by
  intro u _
  rw [rowPtrAt, h.row_ptr_offset]
  rfl

theorem Geometry.colIdxSlice_eq (h : Geometry g nodeCap edgeCap m)
    (hcount : (edgeCount m).toNat ≤ edgeCap.toNat) :
    g.colIdxSlice m = .ok (colSlice nodeCap (edgeCount m).toNat) := by
  rw [CsrGraph.colIdxSlice, h.col_raw hcount]

/-- A range past the boundaries of a list faults. -/
theorem slice_of_not {α : Type} {l : List α} {a b : ℕ} (h : ¬ (a ≤ b ∧ b ≤ l.length)) :
    slice l a b = .error .bounds := if_neg h

/-! ### Reading the rows of a damaged graph -/

/-- The edges of a row are put behind those of the rows before it. -/
theorem srcKey_lt_of_mem_append_row {src : ℕ} (h32 : src < 2 ^ 32) {acc : List Edge}
    (hsrc : ∀ e ∈ acc, srcKey e < src) (row : List UInt32) :
    ∀ e ∈ acc ++ row.map fun dst => (UInt32.ofNat src, dst), srcKey e < src + 1 := by
  intro e he
  rcases List.mem_append.mp he with he | he
  · exact Nat.lt_succ_of_lt (hsrc e he)
  · obtain ⟨dst, -, rfl⟩ := List.mem_map.mp he
    have hkey : (UInt32.ofNat src).toNat = src := UInt32.toNat_ofNat_of_lt' h32
    show (UInt32.ofNat src).toNat < src + 1
    omega

/-- **Reading rows of any content.**  The edges read so far never outnumber the boundary that
the next row starts at. -/
theorem collectEdges_cases {rowPtr : Slice} {f : ℕ → ℕ} (hrow : rowPtr.Holds m f)
    (h32 : rowPtr.len ≤ 2 ^ 32) (col : Slice) (k src : ℕ) (acc : List Edge)
    (hk : src + k < rowPtr.len) (hstart : acc.length ≤ f src) (hlen : acc.length ≤ col.len)
    (hsrc : ∀ e ∈ acc, srcKey e < src) :
    (collectEdges m rowPtr col k src acc = .error .bounds ∧
      ∃ u, src ≤ u ∧ u < src + k ∧ f (u + 1) < f u) ∨
    (collectEdges m rowPtr col k src acc = .ok (.error "corrupted CSR (row_ptr out of range)") ∧
      ∃ u, src ≤ u ∧ u < src + k ∧ col.len < f (u + 1)) ∨
    (∃ L, collectEdges m rowPtr col k src acc = .ok (.ok L) ∧ L.length ≤ col.len ∧
      (∀ e ∈ L, srcKey e < src + k) ∧
      ∀ u, src ≤ u → u < src + k → f u ≤ f (u + 1) ∧ f (u + 1) ≤ col.len) := by
  induction k generalizing src acc with
  | zero =>
      refine Or.inr (Or.inr ⟨acc, rfl, hlen, hsrc, ?_⟩)
      intro u hu hu'
      omega
  | succ k ih =>
      obtain ⟨start, hget, hstart'⟩ := hrow.get (i := src) (by omega)
      obtain ⟨stop, hget', hstop'⟩ := hrow.get (i := src + 1) (by omega)
      rw [collectEdges, hget, ok_bind, hget', ok_bind]
      by_cases hover : col.len < stop.toNat
      · -- the row ends behind the used columns
        rw [if_pos hover]
        exact Or.inr (Or.inl ⟨rfl, src, Nat.le_refl _, by omega, by omega⟩)
      rw [if_neg hover]
      by_cases hback : stop.toNat < start.toNat
      · -- the row ends before it starts
        rw [Slice.range, slice_of_not (fun hc => Nat.not_le.mpr hback hc.1)]
        exact Or.inl ⟨rfl, src, Nat.le_refl _, by omega, by omega⟩
      have hrange : col.range m start.toNat stop.toNat
          = .ok (((col.words m).drop start.toNat).take (stop.toNat - start.toNat)) :=
        slice_of_le (Nat.not_lt.mp hback) (by rw [Slice.words_length]; omega)
      rw [hrange, ok_bind]
      let row := ((col.words m).drop start.toNat).take (stop.toNat - start.toNat)
      have hrowLen : row.length ≤ stop.toNat - start.toNat := List.length_take_le _ _
      have hlen' : (acc ++ row.map fun dst => (UInt32.ofNat src, dst)).length
          = acc.length + row.length := by
        rw [List.length_append, List.length_map]
      have hsrc' := srcKey_lt_of_mem_append_row (by omega) hsrc row
      rcases ih (src + 1) (acc ++ row.map fun dst => (UInt32.ofNat src, dst)) (by omega) (by omega)
        (by omega) hsrc' with ⟨hrun, u, hu, hu', hbad⟩ | ⟨hrun, u, hu, hu', hbad⟩ |
        ⟨L, hrun, hL, hids, hrows⟩
      · exact Or.inl ⟨hrun, u, by omega, by omega, hbad⟩
      · exact Or.inr (Or.inl ⟨hrun, u, by omega, by omega, hbad⟩)
      · refine Or.inr (Or.inr ⟨L, hrun, hL, ?_, ?_⟩)
        · intro e he
          have hlt := hids e he
          omega
        · intro u hu hu'
          rcases Nat.eq_or_lt_of_le hu with rfl | hlt
          · exact ⟨by omega, by omega⟩
          · exact hrows u hlt (by omega)

/-! ### A batch on a damaged graph -/

/-- A batch that reaches the rows: it holds edges between known nodes and fits the count. -/
structure BatchReads (nodeCap edgeCap : UInt32) (m : Mem) (b : List Edge) : Prop where
  nonempty : b ≠ []
  magic_eq : magic m = headerMagic
  fits : (edgeCount m).toNat + b.length ≤ edgeCap.toNat
  ids : ∀ e ∈ b, e.1 < nodeCap ∧ e.2 < nodeCap

/-- A batch that does not read the rows is answered at once, with the memory as it was. -/
theorem addEdgeBatch_of_not_reads (h : Geometry g nodeCap edgeCap m) {b : List Edge}
    (hb : ¬ BatchReads nodeCap edgeCap m b) :
    ∃ r, addEdgeBatch p g m b = .ok (m, r) ∧
      r ≠ .error "corrupted CSR (scatter out of capacity)" := by
  rw [addEdgeBatch, addEdgeBatchWith, h.edge_capacity, h.node_capacity]
  by_cases hempty : b = []
  · subst hempty
    exact ⟨.ok 0, rfl, by simp⟩
  rw [if_neg (by simpa using hempty)]
  by_cases hmagic : magic m = headerMagic
  · rw [if_neg (not_not.mpr hmagic)]
    by_cases hfull : edgeCap.toNat < (edgeCount m).toNat + b.length
    · rw [if_pos hfull]
      exact ⟨_, rfl, by simp⟩
    rw [if_neg hfull, if_pos]
    · exact ⟨_, rfl, by simp⟩
    · -- every other test passed, so an id is at fault
      by_contra hnone
      have hids := not_exists_outside_iff.mp (mt any_outside_iff.mpr hnone)
      exact hb ⟨hempty, hmagic, Nat.not_lt.mp hfull, hids⟩
  · rw [if_pos hmagic]
    exact ⟨_, rfl, by simp⟩

/-- **A batch that reads the rows** stops at a decreasing row, reports a row past the used
columns, or is taken in; in the last case every row was consistent. -/
theorem addEdgeBatch_of_reads (h : Geometry g nodeCap edgeCap m) {b : List Edge}
    (hb : BatchReads nodeCap edgeCap m b) :
    (addEdgeBatch p g m b = .error .bounds ∧
      ∃ u < nodeCap.toNat, rowPtrAt m (u + 1) < rowPtrAt m u) ∨
    (addEdgeBatch p g m b = .ok (m, .error "corrupted CSR (row_ptr out of range)") ∧
      ∃ u < nodeCap.toNat, (edgeCount m).toNat < rowPtrAt m (u + 1)) ∨
    (∃ m', addEdgeBatch p g m b
        = (do let gen ← p.add64 (generation m) 1
              .ok (setGeneration m' gen, .ok (UInt32.ofNat b.length))) ∧
      ∀ u < nodeCap.toNat, RowConsistent m u) := by
  have hcap := hb.fits
  have hlen : (colSlice nodeCap (edgeCount m).toNat).len = (edgeCount m).toNat := rfl
  have hrowLen : (rowSlice nodeCap).len = nodeCap.toNat + 1 := rfl
  have h32 := nodeCap.toNat_lt
  have hids : ¬ (b.any fun e => nodeCap ≤ e.1 || nodeCap ≤ e.2) = true :=
    mt any_outside_iff.mp (not_exists_outside_iff.mpr hb.ids)
  rw [addEdgeBatch, addEdgeBatchWith, if_neg (by simpa using hb.nonempty),
    if_neg (not_not.mpr hb.magic_eq), h.edge_capacity, if_neg (Nat.not_lt.mpr hcap),
    h.node_capacity, if_neg hids, h.rowPtrSlice_eq, ok_bind, h.colIdxSlice_eq (by omega), ok_bind]
  rcases collectEdges_cases h.row_holds (by omega) (colSlice nodeCap (edgeCount m).toNat)
    nodeCap.toNat 0 [] (by omega) (Nat.zero_le _) (Nat.zero_le _) (by simp) with
    ⟨hrun, u, -, hu, hbad⟩ | ⟨hrun, u, -, hu, hbad⟩ | ⟨L, hrun, hL, hsrc, hrows⟩
  · rw [hrun]
    exact Or.inl ⟨rfl, u, by omega, hbad⟩
  · rw [hrun]
    exact Or.inr (Or.inl ⟨rfl, u, by omega, by omega⟩)
  · have hsrc' : ∀ e ∈ sortEdges (L ++ b), srcKey e < nodeCap.toNat := by
      rw [Nat.zero_add] at hsrc
      exact forall_mem_sortEdges_append hsrc fun e he => UInt32.lt_iff_toNat_lt.mp (hb.ids e he).1
    obtain ⟨m', hrebuild, -⟩ := rebuild_run (p := p) exactAdd_saturating h
      (sortEdges_append_ne_nil hb.nonempty)
      (keySorted_of_edgeLe (sortEdges_sorted _)) hsrc'
      (by rw [sortEdges_length, List.length_append]; omega) b.length
    rw [hrun]
    refine Or.inr (Or.inr ⟨m', hrebuild, ?_⟩)
    intro u hu
    have hrow := hrows u (Nat.zero_le _) (by omega)
    exact ⟨hrow.1, by omega⟩

/-- An error that is answered left the memory as it was, and does not come from the scatter. -/
theorem addEdgeBatch_error_cases (h : Geometry g nodeCap edgeCap m) {b : List Edge} {e : String}
    (herr : addEdgeBatch p g m b = .ok (m', .error e)) :
    m' = m ∧ e ≠ "corrupted CSR (scatter out of capacity)" := by
  by_cases hb : BatchReads nodeCap edgeCap m b
  · rcases addEdgeBatch_of_reads (p := p) h hb with ⟨hrun, -⟩ | ⟨hrun, -⟩ | ⟨m₁, hrun, -⟩
    · rw [hrun] at herr
      cases herr
    · rw [hrun] at herr
      cases herr
      exact ⟨rfl, by decide⟩
    · rw [hrun] at herr
      obtain ⟨gen, -, hend⟩ := bind_eq_ok.mp herr
      cases hend
  · obtain ⟨r, hrun, hr⟩ := addEdgeBatch_of_not_reads (p := p) h hb
    rw [hrun] at herr
    cases herr
    exact ⟨rfl, fun hc => hr (by rw [hc])⟩

/-- **A batch that is answered with an error leaves every byte unchanged**, whatever the magic
word, the counts, the row pointers and the columns hold; in particular the error in the middle
of the rewrite is never answered. -/
theorem addEdgeBatch_error_atomic (h : Geometry g nodeCap edgeCap m) (b : List Edge) :
    (∀ m' e, addEdgeBatch p g m b = .ok (m', .error e) → ∀ x, m' x = m x) ∧
      ∀ m', addEdgeBatch p g m b ≠ .ok (m', .error "corrupted CSR (scatter out of capacity)") := by
  constructor
  · intro m' e herr x
    rw [(addEdgeBatch_error_cases h herr).1]
  · intro m' herr
    exact (addEdgeBatch_error_cases h herr).2 rfl

/-- A row pointer that is overwritten is read back; the header and the other row pointers
stand. -/
theorem Geometry.overwrite (h : Geometry g nodeCap edgeCap m) {k : ℕ} (hk : k ≤ nodeCap.toNat)
    (w : UInt32) :
    Geometry g nodeCap edgeCap (writeU32 m (64 + 4 * k) w) ∧
      magic (writeU32 m (64 + 4 * k) w) = magic m ∧
      edgeCount (writeU32 m (64 + 4 * k) w) = edgeCount m ∧
      ∀ u, rowPtrAt (writeU32 m (64 + 4 * k) w) u
        = if u = k then w.toNat else rowPtrAt m u := by
  have hbelow : 64 + 4 * k + 4 ≤ colBase nodeCap + 4 * 0 := by
    rw [colBase]
    omega
  have hgeo := h.of_frame ((writeU32_frame m (64 + 4 * k) w).mono
    (ico_subset_touched (by omega) hbelow))
  have hoff : (64 : UInt32).toNat = 64 := rfl
  refine ⟨hgeo, readU64_writeU32_of_ne m w (by omega), readU32_writeU32_of_ne m w (by omega), ?_⟩
  intro u
  rw [rowPtrAt, rowPtrAt, hgeo.row_ptr_offset, h.row_ptr_offset, hoff]
  by_cases hu : u = k
  · rw [hu, if_pos rfl, readU32_writeU32]
  · rw [if_neg hu, readU32_writeU32_of_ne m w (by omega)]

/-- A graph without edges has every row pointer at zero. -/
theorem Represents.rowPtrAt_nil (h : Represents g nodeCap edgeCap m []) {u : ℕ}
    (hu : u ≤ nodeCap.toNat) : rowPtrAt m u = 0 := h.rowPtrAt_eq hu

/-- Three nodes and no edge, with the end of the last row set to `9`: the batch is answered
with an error, and the memory is the one it got. -/
theorem addEdgeBatch_error_atomic_small :
    ∃ m g, init .dev (fun _ => 7) 100 3 4 = .ok (m, .ok g) ∧
      addEdgeBatch .dev g (writeU32 m 76 9) [(0, 1)]
        = .ok (writeU32 m 76 9, .error "corrupted CSR (row_ptr out of range)") ∧
      ∀ m' e, addEdgeBatch .dev g (writeU32 m 76 9) [(0, 1)] = .ok (m', .error e) →
        ∀ x, m' x = writeU32 m 76 9 x := by
  obtain ⟨m, g, hinit, hrep, -⟩ := @init_ok 3 4 100 (fun _ => 7) (by decide) (by decide) .dev
  obtain ⟨hgeo, hmagic, hcount, hrow⟩ := hrep.toGeometry.overwrite (k := 3) (by decide) 9
  have hzero : edgeCount m = 0 := UInt32.toNat_inj.mp hrep.edge_count
  have hreads : BatchReads 3 4 (writeU32 m 76 9) [(0, 1)] :=
    ⟨by simp, hmagic.trans hrep.magic_eq, by rw [hcount, hzero]; decide, by simp⟩
  refine ⟨m, g, hinit, ?_, (addEdgeBatch_error_atomic hgeo [(0, 1)]).1⟩
  rcases addEdgeBatch_of_reads (p := .dev) hgeo hreads with
    ⟨-, u, hu, hback⟩ | ⟨hrun, -⟩ | ⟨-, -, hrows⟩
  · -- the overwritten boundary is the last one, so no row decreases
    have hu3 : u < 3 := hu
    rw [hrow u, if_neg (by omega), hrep.rowPtrAt_nil (Nat.le_of_lt hu)] at hback
    exact absurd hback (Nat.not_lt_zero _)
  · exact hrun
  · have hend := (hrows 2 (by decide)).2
    rw [hrow 3, if_pos rfl, hcount, hzero] at hend
    exact absurd hend (by decide)

/-! ### When damage is reported -/

/-- **A row query on a damaged graph** tests nothing but emptiness before it slices: an
inconsistent row is answered as an empty one, or misses a bound. -/
theorem getFollowing_damaged (h : Geometry g nodeCap edgeCap m) (hmagic : magic m = headerMagic)
    (hcount : (edgeCount m).toNat ≤ edgeCap.toNat) {u : UInt32} (hu : u < nodeCap) :
    (RowConsistent m u.toNat ∧ ∃ row, getFollowing g m u = .ok (.ok row)) ∨
    (¬ RowConsistent m u.toNat ∧ rowPtrAt m u.toNat = rowPtrAt m (u.toNat + 1) ∧
      getFollowing g m u = .ok (.ok [])) ∨
    (¬ RowConsistent m u.toNat ∧ rowPtrAt m u.toNat ≠ rowPtrAt m (u.toNat + 1) ∧
      getFollowing g m u = .error .bounds) := by
  have hu' := UInt32.lt_iff_toNat_lt.mp hu
  obtain ⟨start, hget, hstart⟩ := h.row_holds.get (i := u.toNat) (Nat.lt_succ_of_lt hu')
  obtain ⟨stop, hget', hstop⟩ := h.row_holds.get (i := u.toNat + 1) (Nat.succ_lt_succ hu')
  have hwords : ((colSlice nodeCap (edgeCount m).toNat).words m).length = (edgeCount m).toNat :=
    Slice.words_length _ m
  rw [RowConsistent, ← hstart, ← hstop, getFollowing, if_neg (not_not.mpr hmagic),
    h.node_capacity, if_neg (UInt32.not_le.mpr hu), h.rowPtrSlice_eq, ok_bind,
    h.colIdxSlice_eq hcount, ok_bind, hget, ok_bind, hget', ok_bind, Slice.range]
  by_cases hin : start.toNat ≤ stop.toNat ∧ stop.toNat ≤ (edgeCount m).toNat
  · refine Or.inl ⟨hin, ?_⟩
    by_cases hempty : start = stop
    · rw [if_pos hempty]
      exact ⟨[], rfl⟩
    · rw [if_neg hempty, slice_of_le hin.1 (by rw [hwords]; exact hin.2), ok_bind]
      exact ⟨_, rfl⟩
  · by_cases hempty : start = stop
    · rw [if_pos hempty]
      exact Or.inr (Or.inl ⟨hin, congrArg UInt32.toNat hempty, rfl⟩)
    · rw [if_neg hempty, slice_of_not (by rw [hwords]; exact hin), error_bind]
      exact Or.inr (Or.inr ⟨hin, fun heq => hempty (UInt32.toNat_inj.mp heq), rfl⟩)

/-- Damage is reported: no call misses a bound, every call answers (a batch in a build with
overflow checks as long as the generation has room), and an inconsistent row gives the
corrupted-CSR error, to the query of that row and to a batch that reaches the rows. -/
structure DamageReported (p : Profile) (g : CsrGraph) (nodeCap edgeCap : UInt32) (m : Mem) :
    Prop where
  following : ∀ u, Returns (getFollowing g m u)
  following_inconsistent : ∀ u < nodeCap, ¬ RowConsistent m u.toNat →
    getFollowing g m u = .ok (.error "corrupted CSR (row_ptr out of range)")
  batch_bounds : ∀ b, addEdgeBatch p g m b ≠ .error .bounds ∧ addEdgeBatch p g m b ≠ .error .wild
  batch : (p = .dev → (generation m).toNat + 1 < 2 ^ 64) → ∀ b, Returns (addEdgeBatch p g m b)
  batch_inconsistent : ∀ b, BatchReads nodeCap edgeCap m b →
    (∃ u < nodeCap.toNat, ¬ RowConsistent m u) →
    addEdgeBatch p g m b = .ok (m, .error "corrupted CSR (row_ptr out of range)")

/-- The generation's addition is the only fault of a batch that is taken in. -/
theorem add64_fault {a b : UInt64} {f : Fault} (h : p.add64 a b = .error f) :
    f = .overflow ∧ p = .dev ∧ 2 ^ 64 ≤ a.toNat + b.toNat := by
  unfold Profile.add64 at h
  split at h
  · rename_i hover
    cases h
    exact ⟨rfl, hover.1, hover.2⟩
  · cases h

/-- **Where no row decreases, a batch faults only at the generation's addition.** -/
theorem addEdgeBatch_fault (h : Geometry g nodeCap edgeCap m)
    (hasc : ¬ ∃ u < nodeCap.toNat, rowPtrAt m (u + 1) < rowPtrAt m u) {b : List Edge} {f : Fault}
    (hf : addEdgeBatch p g m b = .error f) :
    f = .overflow ∧ p = .dev ∧ 2 ^ 64 ≤ (generation m).toNat + 1 := by
  by_cases hb : BatchReads nodeCap edgeCap m b
  · rcases addEdgeBatch_of_reads (p := p) h hb with ⟨-, hbad⟩ | ⟨hrun, -⟩ | ⟨m', hrun, -⟩
    · exact absurd hbad hasc
    · rw [hrun] at hf
      cases hf
    · rw [hrun] at hf
      cases hgen : p.add64 (generation m) 1 with
      | error f' =>
          rw [hgen, error_bind] at hf
          cases hf
          exact add64_fault hgen
      | ok gen =>
          rw [hgen, ok_bind] at hf
          cases hf
  · obtain ⟨r, hrun, -⟩ := addEdgeBatch_of_not_reads (p := p) h hb
    rw [hrun] at hf
    cases hf

/-- Where every row is consistent, nothing is left to report and every call answers. -/
theorem damageReported_of_consistent (h : Geometry g nodeCap edgeCap m)
    (hmagic : magic m = headerMagic) (hcount : (edgeCount m).toNat ≤ edgeCap.toNat)
    (hrows : ∀ u < nodeCap.toNat, RowConsistent m u) : DamageReported p g nodeCap edgeCap m := by
  have hasc : ¬ ∃ u < nodeCap.toNat, rowPtrAt m (u + 1) < rowPtrAt m u := by
    rintro ⟨u, hu, hlt⟩
    exact Nat.not_le.mpr hlt (hrows u hu).1
  refine ⟨?_, ?_, ?_, ?_, ?_⟩
  · intro u
    by_cases hu : u < nodeCap
    · rcases getFollowing_damaged h hmagic hcount hu with
        ⟨-, row, hrow⟩ | ⟨-, -, hrun⟩ | ⟨hnot, -, -⟩
      · exact ⟨_, hrow⟩
      · exact ⟨_, hrun⟩
      · exact absurd (hrows _ (UInt32.lt_iff_toNat_lt.mp hu)) hnot
    · rw [getFollowing, if_neg (not_not.mpr hmagic), h.node_capacity,
        if_pos (UInt32.not_lt.mp hu)]
      exact returns_ok _
  · intro u hu hnot
    exact absurd (hrows _ (UInt32.lt_iff_toNat_lt.mp hu)) hnot
  · intro b
    constructor
    · intro hf
      exact Fault.noConfusion (addEdgeBatch_fault h hasc hf).1
    · intro hf
      exact Fault.noConfusion (addEdgeBatch_fault h hasc hf).1
  · intro hgen b
    cases hrun : addEdgeBatch p g m b with
    | ok r => exact returns_ok r
    | error f =>
        obtain ⟨-, hdev, hover⟩ := addEdgeBatch_fault h hasc hrun
        have hroom := hgen hdev
        omega
  · rintro b - ⟨u, hu, hnot⟩
    exact absurd (hrows u hu) hnot

/-- **Damaged row pointers are reported exactly when there are none**: the boundaries of each
row are in order and inside the used columns.  The query of an inconsistent row never answers
with an error. -/
theorem damage_reported_iff (h : Geometry g nodeCap edgeCap m) (hmagic : magic m = headerMagic)
    (hcount : (edgeCount m).toNat ≤ edgeCap.toNat) :
    DamageReported p g nodeCap edgeCap m ↔ ∀ u < nodeCap.toNat, RowConsistent m u := by
  constructor
  · intro hrep u hu
    have hu32 : u < 2 ^ 32 := Nat.lt_trans hu nodeCap.toNat_lt
    have hof : (UInt32.ofNat u).toNat = u := by rw [UInt32.toNat_ofNat_of_lt' hu32]
    have hlt : UInt32.ofNat u < nodeCap := UInt32.lt_iff_toNat_lt.mpr (by omega)
    by_contra hnot
    rw [← hof] at hnot
    have herr := hrep.following_inconsistent _ hlt hnot
    rcases getFollowing_damaged h hmagic hcount hlt with
      ⟨hrow, -⟩ | ⟨-, -, hrun⟩ | ⟨-, -, hrun⟩
    · exact hnot hrow
    · rw [hrun] at herr
      cases herr
    · rw [hrun] at herr
      cases herr
  · exact damageReported_of_consistent h hmagic hcount

/-- One node without edges whose row stands from `5` to `5`: the query answers it as an empty
row, so the damage is not reported. -/
theorem damage_reported_iff_small :
    ∃ m g, init .release (fun _ => 0) 76 1 1 = .ok (m, .ok g) ∧
      getFollowing g (writeU32 (writeU32 m 64 5) 68 5) 0 = .ok (.ok []) ∧
      ¬ DamageReported .release g 1 1 (writeU32 (writeU32 m 64 5) 68 5) := by
  obtain ⟨m, g, hinit, hrep, -⟩ := @init_ok 1 1 76 (fun _ => 0) (by decide) (by decide) .release
  obtain ⟨hgeo, hmagic, hcount, hrow⟩ := hrep.toGeometry.overwrite (k := 0) (by decide) 5
  obtain ⟨hgeo', hmagic', hcount', hrow'⟩ := hgeo.overwrite (k := 1) (by decide) 5
  have hmag := (hmagic'.trans hmagic).trans hrep.magic_eq
  have hzero : edgeCount (writeU32 (writeU32 m 64 5) 68 5) = 0 :=
    (hcount'.trans hcount).trans (UInt32.toNat_inj.mp hrep.edge_count)
  have hcap : (edgeCount (writeU32 (writeU32 m 64 5) 68 5)).toNat ≤ (1 : UInt32).toNat := by
    rw [hzero]
    decide
  have hstart : rowPtrAt (writeU32 (writeU32 m 64 5) 68 5) 0 = 5 := (hrow' 0).trans (hrow 0)
  have hstop : rowPtrAt (writeU32 (writeU32 m 64 5) 68 5) 1 = 5 := hrow' 1
  have hbad : ¬ RowConsistent (writeU32 (writeU32 m 64 5) 68 5) 0 := by
    rw [RowConsistent, hstop, hzero]
    exact fun hcons => absurd hcons.2 (by decide)
  refine ⟨m, g, hinit, ?_, ?_⟩
  · rcases getFollowing_damaged hgeo' hmag hcap (u := 0) (by decide) with
      ⟨hcons, -⟩ | ⟨-, -, hrun⟩ | ⟨-, hne, -⟩
    · exact absurd hcons hbad
    · exact hrun
    · exact absurd (hstart.trans hstop.symm) hne
  · intro hrep'
    exact hbad ((damage_reported_iff hgeo' hmag hcap).mp hrep' 0 (by decide))

/-- One node whose only row runs from `1` back to `0`: the query and the next batch both slice
it without a test. -/
theorem decreasing_row_panics :
    ∃ m g, init .release (fun _ => 0) 76 1 1 = .ok (m, .ok g) ∧
      Geometry g 1 1 (writeU32 m 64 1) ∧ magic (writeU32 m 64 1) = headerMagic ∧
      edgeCount (writeU32 m 64 1) = 0 ∧ getFollowing g (writeU32 m 64 1) 0 = .error .bounds ∧
      addEdgeBatch .release g (writeU32 m 64 1) [(0, 0)] = .error .bounds := by
  obtain ⟨m, g, hinit, hrep, -⟩ := @init_ok 1 1 76 (fun _ => 0) (by decide) (by decide) .release
  obtain ⟨hgeo, hmagic, hcount, hrow⟩ := hrep.toGeometry.overwrite (k := 0) (by decide) 1
  have hmag := hmagic.trans hrep.magic_eq
  have hzero : edgeCount (writeU32 m 64 1) = 0 :=
    hcount.trans (UInt32.toNat_inj.mp hrep.edge_count)
  have hrow₀ : rowPtrAt (writeU32 m 64 1) 0 = 1 := hrow 0
  have hrow₁ : rowPtrAt (writeU32 m 64 1) 1 = 0 :=
    (hrow 1).trans (hrep.rowPtrAt_nil (by decide))
  have hbad : ¬ RowConsistent (writeU32 m 64 1) 0 := by
    rw [RowConsistent, hrow₀, hrow₁]
    omega
  refine ⟨m, g, hinit, hgeo, hmag, hzero, ?_, ?_⟩
  · rcases getFollowing_damaged hgeo hmag (by rw [hzero]; decide) (u := 0) (by decide) with
      ⟨hcons, -⟩ | ⟨-, heq, -⟩ | ⟨-, -, hrun⟩
    · exact absurd hcons hbad
    · exact absurd (hrow₀.symm.trans (heq.trans hrow₁)) (by decide)
    · exact hrun
  · have hreads : BatchReads 1 1 (writeU32 m 64 1) [(0, 0)] :=
      ⟨by simp, hmag, by rw [hzero]; decide, by simp⟩
    rcases addEdgeBatch_of_reads (p := .release) hgeo hreads with
      ⟨hrun, -⟩ | ⟨-, u, hu, hover⟩ | ⟨-, -, hrows⟩
    · exact hrun
    · obtain rfl : u = 0 := by
        have h1 : (1 : UInt32).toNat = 1 := rfl
        omega
      rw [hrow₁] at hover
      exact absurd hover (Nat.not_lt_zero _)
    · exact absurd (hrows 0 (by decide)) hbad

end NexusCore.Csr
