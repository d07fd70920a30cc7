import NexusCore.Csr.Model
import NexusCore.Foundation.KeyedList

/-!
# The loops of the rebuild

Each loop of `add_edge_batch` is described once, on an edge list sorted by source:

* `collectEdges_spec`: the rows of a stored list, read one after another, are the list;
* `countDegrees_spec`: the degree words become the block sizes;
* `prefixSums_spec`: the running sums become the block boundaries;
* `scatter_spec`: the cursors lead every edge to its own position in the sorted list, so
  the columns are written from the first word on without a gap.

Each statement also frames the loop: which bytes it may have touched.
-/

namespace NexusCore.Csr

open Foundation.Machine Foundation.LinearMemory Foundation.KeyedList

variable {p : Profile}

/-- The row an edge belongs to. -/
def srcKey (e : Edge) : ℕ := e.1.toNat

/-- An addition that is the machine's wherever the sum fits. -/
def ExactAdd (add : UInt32 → UInt32 → Checked UInt32) : Prop :=
  ∀ a b : UInt32, a.toNat + b.toNat < 2 ^ 32 → add a b = .ok (a + b)

theorem exactAdd_saturating : ExactAdd saturating := fun a b h => by
  rw [saturating, saturatingAdd32_of_lt h]

theorem exactAdd_add32 (p : Profile) : ExactAdd p.add32 := fun _ _ h => p.add32_of_lt h

/-! ### Reading the rows -/

/-- The words between two boundaries of a stored list are its row. -/
theorem range_row {m : Mem} {col : Slice} {L : List Edge} (hs : KeySorted srcKey L)
    (hcol : col.words m = L.map Prod.snd) (u : ℕ) :
    col.range m (below srcKey u L) (below srcKey (u + 1) L)
      = .ok ((L.filter fun e => decide (srcKey e = u)).map Prod.snd) := by
  have hlen : below srcKey (u + 1) L ≤ (L.map Prod.snd).length := by
    rw [List.length_map]
    exact below_le_length srcKey (u + 1) L
  rw [Slice.range, hcol, slice_of_le (below_mono srcKey (Nat.le_succ u) L) hlen,
    ← List.map_drop, ← List.map_take, hs.block_eq_filter u]

/-- Tagging a row with its source restores the row's edges. -/
theorem map_src_filter (L : List Edge) (u : ℕ) :
    ((L.filter fun e => decide (srcKey e = u)).map Prod.snd).map (fun dst => (UInt32.ofNat u, dst))
      = L.filter fun e => decide (srcKey e = u) := by
  rw [List.map_map]
  conv_rhs => rw [← List.map_id (L.filter _)]
  apply List.map_congr_left
  intro e he
  have hu : srcKey e = u := of_decide_eq_true (List.mem_filter.mp he).2
  show (UInt32.ofNat u, e.2) = e
  rw [← hu, srcKey, UInt32.ofNat_toNat]

theorem collectEdges_spec {m : Mem} {rowPtr col : Slice} {L : List Edge}
    (hs : KeySorted srcKey L) (hrow : rowPtr.Holds m fun u => below srcKey u L)
    (hcol : col.words m = L.map Prod.snd) (k src : ℕ) (acc : List Edge)
    (hk : src + k < rowPtr.len) :
    collectEdges m rowPtr col k src acc
      = .ok (.ok (acc ++ (List.range' src k).flatMap fun u =>
          L.filter fun e => decide (srcKey e = u))) := by
  induction k generalizing src acc with
  | zero => simp [collectEdges]
  | succ k ih =>
      obtain ⟨start, hstart, hstart'⟩ := hrow.get (i := src) (by omega)
      obtain ⟨stop, hstop, hstop'⟩ := hrow.get (i := src + 1) (by omega)
      have hlen : col.len = L.length := by
        rw [← col.words_length m, hcol, List.length_map]
      have hin : ¬ col.len < stop.toNat := by
        rw [hstop', hlen]
        exact Nat.not_lt.mpr (below_le_length srcKey (src + 1) L)
      rw [collectEdges, hstart, ok_bind, hstop, ok_bind, if_neg hin, hstart', hstop',
        range_row hs hcol src, ok_bind, map_src_filter, ih (src + 1) _ (by omega)]
      simp only [List.range'_succ, List.flatMap_cons, List.append_assoc]

/-! ### Degrees and their running sums -/

theorem countDegrees_spec {rowPtr : Slice} (es : List Edge) {m : Mem} {f : ℕ → ℕ}
    (hf : rowPtr.Holds m f) (hin : ∀ e ∈ es, srcKey e < rowPtr.len)
    (hbound : ∀ u, f u + sizeAt srcKey u es < 2 ^ 32) :
    ∃ m', countDegrees p rowPtr m es = .ok m' ∧
      rowPtr.Holds m' (fun u => f u + sizeAt srcKey u es) ∧ Frame rowPtr.extent m m' := by
  induction es generalizing m f with
  | nil => exact ⟨m, rfl, by simpa using hf, Frame.refl _ _⟩
  | cons e es ih =>
      have hsrc : srcKey e < rowPtr.len := hin e (by simp)
      obtain ⟨deg, hget, hdeg⟩ := hf.get hsrc
      have hfit : deg.toNat + (1 : UInt32).toNat < 2 ^ 32 := by
        have hb := hbound (srcKey e)
        rw [sizeAt_cons, if_pos rfl] at hb
        have hone : (1 : UInt32).toNat = 1 := rfl
        omega
      obtain ⟨m₁, hset, hholds, hframe⟩ := hf.set hsrc (deg + 1)
      have hupd : ∀ u, Function.update f (srcKey e) (deg + 1).toNat u + sizeAt srcKey u es
          = f u + sizeAt srcKey u (e :: es) := by
        intro u
        rw [sizeAt_cons]
        by_cases hu : u = srcKey e
        · rw [hu, Function.update_self, toNat_add32_of_lt hfit, hdeg, if_pos rfl,
            show (1 : UInt32).toNat = 1 from rfl]
          omega
        · rw [Function.update_of_ne hu, if_neg (Ne.symm hu), Nat.add_zero]
      obtain ⟨m', hrun, hholds', hframe'⟩ := ih hholds (fun e' he' => hin e' (by simp [he']))
        (fun u => by rw [hupd u]; exact hbound u)
      refine ⟨m', ?_, hholds'.congr fun u _ => hupd u, hframe.trans hframe'⟩
      rw [srcKey] at hget hset
      rw [countDegrees, hget, ok_bind, p.add32_of_lt hfit, ok_bind, hset, ok_bind, hrun]

theorem prefixSums_spec {add : UInt32 → UInt32 → Checked UInt32} (hadd : ExactAdd add)
    {rowPtr : Slice} {L : List Edge} (k i : ℕ) {sum : UInt32} {m : Mem}
    (hk : i + k ≤ rowPtr.len) (hsum : sum.toNat = below srcKey i L)
    (hL : L.length < 2 ^ 32)
    (hf : rowPtr.Holds m fun u => if u < i then below srcKey u L else sizeAt srcKey u L) :
    ∃ m' sum', prefixSums add rowPtr k i sum m = .ok (m', sum') ∧
      sum'.toNat = below srcKey (i + k) L ∧
      rowPtr.Holds m' (fun u => if u < i + k then below srcKey u L else sizeAt srcKey u L) ∧
      Frame rowPtr.extent m m' := by
  induction k generalizing i sum m with
  | zero => exact ⟨m, sum, rfl, hsum, hf, Frame.refl _ _⟩
  | succ k ih =>
      have hi : i < rowPtr.len := by omega
      obtain ⟨deg, hget, hdeg⟩ := hf.get hi
      rw [if_neg (Nat.lt_irrefl i)] at hdeg
      obtain ⟨m₁, hset, hholds, hframe⟩ := hf.set hi sum
      have hnext : sum.toNat + deg.toNat = below srcKey (i + 1) L := by
        rw [hsum, hdeg, below_succ]
      have hfit : sum.toNat + deg.toNat < 2 ^ 32 := by
        have hle := below_le_length srcKey (i + 1) L
        omega
      have hholds₁ : rowPtr.Holds m₁
          fun u => if u < i + 1 then below srcKey u L else sizeAt srcKey u L := by
        apply hholds.congr
        intro u _
        by_cases hu : u = i
        · rw [hu, Function.update_self, hsum, if_pos (Nat.lt_succ_self i)]
        · rw [Function.update_of_ne hu]
          by_cases hlt : u < i
          · rw [if_pos hlt, if_pos (by omega)]
          · rw [if_neg hlt, if_neg (by omega)]
      obtain ⟨m', sum', hrun, hsum', hholds', hframe'⟩ :=
        ih (i + 1) (by omega) (by rw [toNat_add32_of_lt hfit, hnext]) hholds₁
      rw [show i + 1 + k = i + (k + 1) from by omega] at hsum' hholds'
      refine ⟨m', sum', ?_, hsum', hholds', hframe.trans hframe'⟩
      rw [prefixSums, hget, ok_bind, hset, ok_bind, hadd _ _ hfit, ok_bind, hrun]

/-! ### Scattering through the cursors -/

/-- The word behind a region, once written, is the region's next word. -/
theorem words_writeU32_next (m : Mem) (b n : ℕ) (v : UInt32) :
    (Slice.mk b (n + 1)).words (writeU32 m (b + 4 * n) v) = (Slice.mk b n).words m ++ [v] := by
  have hkeep : (Slice.mk b n).words (writeU32 m (b + 4 * n) v) = (Slice.mk b n).words m := by
    apply Slice.words_congr
    rintro x ⟨hlo, hhi⟩
    exact writeU32_frame m _ v x fun hin => absurd hin.1 (Nat.not_le.mpr hhi)
  rw [← hkeep]
  simp only [Slice.words, List.range_succ, List.map_append, List.map_singleton, readU32_writeU32]

/-- The cursors after the edges `pre` of the sorted list `L` are placed. -/
def CursorsAt (cursors : List UInt32) (L pre : List Edge) : Prop :=
  ∀ u, (hu : u < cursors.length) → cursors[u].toNat = below srcKey u L + sizeAt srcKey u pre

/-- Placing one more edge moves the cursor of its row by one. -/
theorem CursorsAt.advance {cursors : List UInt32} {L pre : List Edge} {e : Edge}
    (h : CursorsAt cursors L pre) (he : srcKey e < cursors.length)
    (hfit : (cursors[srcKey e]).toNat + (1 : UInt32).toNat < 2 ^ 32) :
    CursorsAt (cursors.set (srcKey e) (cursors[srcKey e] + 1)) L (pre ++ [e]) := by
  intro u hu
  rw [List.length_set] at hu
  rw [sizeAt_append, sizeAt_cons, sizeAt_nil, Nat.zero_add]
  simp only [List.getElem_set]
  by_cases heq : srcKey e = u
  · rw [if_pos heq, if_pos heq, toNat_add32_of_lt hfit, h _ he, heq]
    rfl
  · rw [if_neg heq, if_neg heq, h u hu, Nat.add_zero]

theorem scatter_spec {col : Slice} {L : List Edge} (hs : KeySorted srcKey L)
    (hbase : 16 ≤ col.base) (post pre : List Edge) {m : Mem} {cursors : List UInt32}
    (hL : L = pre ++ post) (hcap : L.length ≤ (edgeCapacity m).toNat)
    (hlen : col.len = (edgeCapacity m).toNat)
    (hin : ∀ e ∈ L, srcKey e < cursors.length) (hcur : CursorsAt cursors L pre)
    (hdone : (Slice.mk col.base pre.length).words m = pre.map Prod.snd) :
    ∃ m', scatter p col m cursors post = .ok (m', .ok ()) ∧
      (Slice.mk col.base L.length).words m' = L.map Prod.snd ∧
      Frame (Set.Ico col.base (col.base + 4 * L.length)) m m' := by
  induction post generalizing pre m cursors with
  | nil =>
      rw [List.append_nil] at hL
      exact ⟨m, rfl, by rw [hL, hdone], Frame.refl _ _⟩
  | cons e post ih =>
      have hlt : pre.length < L.length := by
        rw [hL, List.length_append, List.length_cons]
        omega
      have hesrc : srcKey e < cursors.length := hin e (by rw [hL]; simp)
      -- the cursor of `e`'s row stands at `e`'s position in the sorted list
      have hpos : (cursors[srcKey e]).toNat = pre.length := by
        rw [hcur _ hesrc]
        subst hL
        exact hs.below_add_sizeAt
      have hincap : ¬ edgeCapacity m ≤ cursors[srcKey e] := by
        rw [UInt32.le_iff_toNat_le, hpos]
        omega
      have hfit : (cursors[srcKey e]).toNat + (1 : UInt32).toNat < 2 ^ 32 := by
        have hc := (edgeCapacity m).toNat_lt
        rw [hpos, show (1 : UInt32).toNat = 1 from rfl]
        omega
      let m₁ := writeU32 m (col.base + 4 * pre.length) e.2
      let cursors₁ := cursors.set (srcKey e) (cursors[srcKey e] + 1)
      have hset : col.set m (cursors[srcKey e]).toNat e.2 = .ok m₁ := by
        rw [hpos]
        exact col.set_of_lt m (by omega) e.2
      have hframe : Frame (Set.Ico col.base (col.base + 4 * L.length)) m m₁ := by
        apply (writeU32_frame m _ e.2).mono
        exact Set.Ico_subset_Ico (Nat.le_add_right _ _) (by omega)
      have hcap₁ : edgeCapacity m₁ = edgeCapacity m := by
        apply readU32_writeU32_of_ne
        omega
      have hdone₁ : (Slice.mk col.base (pre ++ [e]).length).words m₁
          = (pre ++ [e]).map Prod.snd := by
        rw [List.length_append, List.length_singleton, words_writeU32_next, hdone, List.map_append]
        rfl
      have hin₁ : ∀ e' ∈ L, srcKey e' < cursors₁.length := by simpa [cursors₁] using hin
      obtain ⟨m', hrun, hwords, hframe'⟩ := ih (pre ++ [e]) (by rw [hL]; simp)
        (by rw [hcap₁]; exact hcap) (by rw [hcap₁]; exact hlen) hin₁
        (hcur.advance hesrc hfit) hdone₁
      refine ⟨m', ?_, hwords, hframe.trans hframe'⟩
      rw [scatter]
      have hidx : index cursors e.1.toNat = .ok cursors[srcKey e] := index_of_lt hesrc
      have hsto : store cursors e.1.toNat (cursors[srcKey e] + 1) = .ok cursors₁ :=
        store_of_lt _ hesrc
      rw [hidx, ok_bind, if_neg hincap, hset, ok_bind, p.add32_of_lt hfit, ok_bind, hsto, ok_bind,
        hrun]

end NexusCore.Csr
