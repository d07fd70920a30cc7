import NexusCore.Foundation.Cover
import NexusCore.Blob.Codec

/-!
# Arena waste

`arena_fragmentation_pct` adds up the lengths of the packed documents and takes the rest of the
arena for waste.  Documents may overlap, repeat, be empty or lie outside the arena, so the
figure is a lower bound of what no document covers (`waste_bounds`); for a generated graph it is
exact.
-/

namespace NexusCore.Blob

open Foundation.Machine Foundation.Cover

/-! ### The figure -/

/-- `used += packed & 0x000F_FFFF` over all edge slots. -/
def usedBytes (p : Profile) (docOffsets : List UInt64) : Checked UInt64 :=
  docOffsets.foldlM (fun used packed => p.add64 used (packed &&& 0x000FFFFF)) 0

/-- The waste in bytes: a difference that stops at zero. -/
def arenaWaste (p : Profile) (g : GraphEngine) : Checked ℕ := do
  let used ← usedBytes p g.docOffsets
  .ok (g.arena.length - used.toNat)

/-- `GraphEngine::arena_fragmentation_pct`, in exact arithmetic: the rational number that the
source rounds to an `f64`. -/
def arenaFragmentationPct (p : Profile) (g : GraphEngine) : Checked ℚ :=
  if g.arena.length = 0 then .ok 0
  else do
    let waste ← arenaWaste p g
    .ok (100 * waste / g.arena.length)

/-! ### What documents cover -/

/-- The bytes of a document. -/
def docRange (packed : UInt64) : Finset ℕ :=
  Finset.Ico (docOffset packed) (docOffset packed + docLen packed)

/-- Whether `bfs_posts` returns the document. -/
def InArena (g : GraphEngine) (packed : UInt64) : Prop :=
  docOffset packed + docLen packed ≤ g.arena.length

instance (g : GraphEngine) : DecidablePred (InArena g) := fun packed =>
  inferInstanceAs (Decidable (docOffset packed + docLen packed ≤ g.arena.length))

/-- The arena bytes in no document of the arena. -/
def uncovered (g : GraphEngine) : Finset ℕ :=
  (Finset.range g.arena.length).filter fun b =>
    ∀ packed ∈ g.docOffsets, InArena g packed → b ∉ docRange packed

def docsInArena (g : GraphEngine) : List (Finset ℕ) :=
  (g.docOffsets.filter fun packed => decide (InArena g packed)).map docRange

theorem uncovered_eq_holes (g : GraphEngine) :
    uncovered g = holes (Finset.range g.arena.length) (docsInArena g) := by
  ext b
  simp only [uncovered, mem_holes, docsInArena, Finset.mem_filter, List.forall_mem_map,
    List.mem_filter, decide_eq_true_eq, and_imp]

theorem card_docRange (packed : UInt64) : (docRange packed).card = docLen packed := by
  rw [docRange, Nat.card_Ico, Nat.add_sub_cancel_left]

theorem size_map_docRange (docs : List UInt64) :
    size (docs.map docRange) = (docs.map docLen).sum := by
  rw [size, List.map_map]
  exact congrArg List.sum (List.map_congr_left fun packed _ => card_docRange packed)

theorem size_docsInArena_le (g : GraphEngine) :
    size (docsInArena g) ≤ (g.docOffsets.map docLen).sum := by
  rw [docsInArena, size_map_docRange]
  exact (List.filter_sublist.map docLen).sum_le_sum fun _ _ => Nat.zero_le _

/-! ### The sum -/

theorem docLen_lt (packed : UInt64) : docLen packed < 2 ^ 20 := by
  have hle : docLen packed ≤ 2 ^ 20 - 1 := by
    rw [docLen, UInt64.toNat_and]
    exact Nat.and_le_right
  omega

theorem foldlM_used (p : Profile) (docs : List UInt64) (used : UInt64)
    (h : used.toNat + (docs.map docLen).sum < 2 ^ 64) :
    ∃ w, docs.foldlM (fun used packed => p.add64 used (packed &&& 0x000FFFFF)) used = .ok w
      ∧ w.toNat = used.toNat + (docs.map docLen).sum := by
  induction docs generalizing used with
  | nil => exact ⟨used, rfl, rfl⟩
  | cons packed docs ih =>
      rw [List.map_cons, List.sum_cons] at h ⊢
      obtain ⟨next, hadd, hnext⟩ := p.add64_exact (a := used) (b := packed &&& 0x000FFFFF)
        (show used.toNat + docLen packed < 2 ^ 64 by omega)
      have hnext' : next.toNat = used.toNat + docLen packed := hnext
      obtain ⟨w, hw, hsum⟩ := ih next (by omega)
      refine ⟨w, ?_, by omega⟩
      rw [List.foldlM_cons, hadd, ok_bind, hw]

theorem sum_docLen_lt {docs : List UInt64} (h : docs.length < 2 ^ 32) :
    (docs.map docLen).sum < 2 ^ 64 := by
  have hle : (docs.map docLen).sum ≤ docs.length * 2 ^ 20 := by
    rw [← List.length_map docLen]
    refine List.sum_le_card_nsmul _ _ fun n hn => ?_
    obtain ⟨packed, -, rfl⟩ := List.mem_map.mp hn
    exact Nat.le_of_lt (docLen_lt packed)
  omega

theorem arenaWaste_eq (p : Profile) {g : GraphEngine} (h : g.docOffsets.length < 2 ^ 32) :
    arenaWaste p g = .ok (g.arena.length - (g.docOffsets.map docLen).sum) := by
  have hlt := sum_docLen_lt h
  obtain ⟨used, hused, hsum⟩ := foldlM_used p g.docOffsets 0
    (show 0 + _ < 2 ^ 64 by omega)
  have hsum' : used.toNat = (g.docOffsets.map docLen).sum := hsum.trans (Nat.zero_add _)
  rw [arenaWaste, usedBytes, hused, ok_bind, hsum']

/-! ### The figure and the holes -/

theorem waste_le_uncovered (g : GraphEngine) :
    g.arena.length - (g.docOffsets.map docLen).sum ≤ (uncovered g).card := by
  have hholes := card_sub_le_holes (Finset.range g.arena.length) (docsInArena g)
  have hle := size_docsInArena_le g
  rw [Finset.card_range, ← uncovered_eq_holes] at hholes
  omega

/-- All documents are inside the arena, and no two share a byte. -/
structure Tidy (g : GraphEngine) : Prop where
  inArena : ∀ packed ∈ g.docOffsets, InArena g packed
  disjoint : g.docOffsets.Pairwise fun packed packed' =>
    Disjoint (docRange packed) (docRange packed')

theorem Tidy.waste_eq_uncovered {g : GraphEngine} (h : Tidy g) :
    g.arena.length - (g.docOffsets.map docLen).sum = (uncovered g).card := by
  have hall : docsInArena g = g.docOffsets.map docRange := by
    rw [docsInArena, List.filter_eq_self.mpr fun packed hp => decide_eq_true (h.inArena packed hp)]
  have hinside : ∀ s ∈ g.docOffsets.map docRange, s ⊆ Finset.range g.arena.length := by
    rw [List.forall_mem_map]
    intro packed hp b hb
    exact Finset.mem_range.mpr (Nat.lt_of_lt_of_le (Finset.mem_Ico.mp hb).2 (h.inArena packed hp))
  have hholes := card_sub_eq_holes hinside (List.pairwise_map.mpr h.disjoint)
  rw [uncovered_eq_holes, hall, ← hholes, Finset.card_range, size_map_docRange]

section Gen

variable {nNodes : ℕ} {edges : ℕ → List ℕ} {body : ℕ → List UInt8}

/-- Where the body of a slot begins in the arena. -/
def bodyStart (body : ℕ → List UInt8) (i : ℕ) : ℕ := ∑ j ∈ Finset.range i, (body j).length

/-- The packed reference of a slot. -/
def genPacked (body : ℕ → List UInt8) (i : ℕ) : UInt64 :=
  UInt64.ofNat ((bodyStart body i <<< 20) ||| ((body i).length &&& 0xFFFFF))

theorem genEngine_docOffsets :
    (genEngine nNodes edges body).docOffsets
      = (List.range (slotCount nNodes edges)).map (genPacked body) := by
  rw [genEngine, genDocs_spec, List.map_map]
  rfl

theorem genEngine_arena_length :
    (genEngine nNodes edges body).arena.length = bodyStart body (slotCount nNodes edges) := by
  rw [genEngine, genDocs_spec, flatMap_range_length, bodyStart]

theorem bodyStart_mono {i j : ℕ} (h : i ≤ j) : bodyStart body i ≤ bodyStart body j :=
  Finset.sum_le_sum_of_subset (Finset.range_mono h)

/-- A document ends where the next one begins. -/
theorem Packable.docRange_eq (h : Packable nNodes edges body) {i : ℕ}
    (hi : i ∈ List.range (slotCount nNodes edges)) :
    docOffset (genPacked body i) = bodyStart body i
      ∧ docOffset (genPacked body i) + docLen (genPacked body i) = bodyStart body (i + 1) := by
  have hlt := List.mem_range.mp hi
  obtain ⟨-, hoff, hlen⟩ := packed_fields (h.offset_lt hlt) (h.bodies i hlt)
  have hoff' : docOffset (genPacked body i) = bodyStart body i := hoff
  have hlen' : docLen (genPacked body i) = (body i).length := hlen
  exact ⟨hoff', by rw [hoff', hlen', bodyStart, bodyStart, Finset.sum_range_succ]⟩

/-- **The documents of a generated graph** lie one after the other in its arena. -/
theorem Packable.tidy (h : Packable nNodes edges body) : Tidy (genEngine nNodes edges body) where
  inArena := by
    rw [genEngine_docOffsets, List.forall_mem_map]
    intro i hi
    rw [InArena, (h.docRange_eq hi).2, genEngine_arena_length]
    exact bodyStart_mono (List.mem_range.mp hi)
  disjoint := by
    rw [genEngine_docOffsets, List.pairwise_map]
    refine List.Pairwise.imp_of_mem ?_ List.pairwise_lt_range
    intro i j hi hj hij
    have hle : bodyStart body (i + 1) ≤ bodyStart body j := bodyStart_mono hij
    rw [docRange, docRange, (h.docRange_eq hi).2, (h.docRange_eq hj).1]
    refine Finset.disjoint_left.mpr fun b hb hb' => ?_
    have hlt := (Finset.mem_Ico.mp hb).2
    have hge := (Finset.mem_Ico.mp hb').1
    omega

end Gen

/-- **The waste figure never over-reports.** -/
theorem waste_bounds (p : Profile) :
    (∀ (blob : List UInt8) (g : GraphEngine), fromBlob blob = .ok (.ok g) →
      ∃ waste, arenaWaste p g = .ok waste
        ∧ arenaFragmentationPct p g
          = .ok (if g.arena.length = 0 then 0 else 100 * waste / g.arena.length)
        ∧ waste ≤ (uncovered g).card
        ∧ (Tidy g → waste = (uncovered g).card))
      ∧ ∀ (nNodes : ℕ) (edges : ℕ → List ℕ) (body : ℕ → List UInt8), Packable nNodes edges body →
        ∃ blob g, gen nNodes edges body = some blob ∧ fromBlob blob = .ok (.ok g) ∧ Tidy g := by
  refine ⟨?_, fun nNodes edges body h => ⟨_, _, h.gen_eq_toBlob, h.shape.fromBlob_toBlob, h.tidy⟩⟩
  intro blob g hg
  have hlength : g.docOffsets.length < 2 ^ 32 := by
    rw [(fromBlob_shape hg).1.docOffsets_length]
    exact UInt32.toNat_lt _
  have hwaste := arenaWaste_eq p hlength
  refine ⟨_, hwaste, ?_, waste_le_uncovered g, Tidy.waste_eq_uncovered⟩
  rw [arenaFragmentationPct, hwaste, ok_bind]
  split_ifs <;> rfl

theorem waste_bounds_small :
    ∃ blob g, gen 2 (fun i => if i = 0 then [1] else []) (fun _ => [123, 125]) = some blob
      ∧ fromBlob blob = .ok (.ok g)
      ∧ ∃ waste, arenaWaste .dev g = .ok waste ∧ waste = (uncovered g).card := by
  have hpack : Packable 2 (fun i => if i = 0 then [1] else []) (fun _ => [123, 125]) :=
    ⟨by decide, by decide, by decide, by decide, by decide⟩
  obtain ⟨blob, g, hgen, hg, htidy⟩ := (waste_bounds .dev).2 2 _ _ hpack
  obtain ⟨waste, hwaste, -, -, hequal⟩ := (waste_bounds .dev).1 blob g hg
  exact ⟨blob, g, hgen, hg, waste, hwaste, hequal htidy⟩

end NexusCore.Blob
