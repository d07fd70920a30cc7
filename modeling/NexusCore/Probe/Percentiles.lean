import NexusCore.Foundation.NearestRank
import NexusCore.Probe.Buckets
import NexusCore.Probe.Loader

/-!
# The percentiles of a report

The reported percentiles are right up to their bucket.  The counters of a slot, added up over
the CPUs, are the number of latencies of that bucket (`sumCPUs_recordAll`), however these were
spread over the CPUs and in whatever order they came.  So the running count of `scanSlots` is
the number of latencies below the next bucket, each target is filled at the first bucket that
reaches it (`scanSlots_spec`), and that bucket contains the nearest-rank percentile.
-/

namespace NexusCore.Probe

open Foundation.KeyedList
open Foundation.NearestRank

/-! ### The counters -/

/-- A latency and the CPU it was measured on. -/
abbrev Sample := ℕ × UInt64

/-- The histogram updates of a list of samples, one after the other. -/
def recordAll (name : HistName) (m : Maps) (samples : List Sample) : Maps :=
  samples.foldl (fun m s => histUpdate m name s.1 s.2) m

def latencies (samples : List Sample) : List UInt64 := samples.map Prod.snd

/-- The number of a latency's bucket. -/
def slotOf (latency : UInt64) : ℕ := (log2Bucket latency).toNat

theorem slotOf_eq_iff {latency : UInt64} {slot : UInt32} :
    slotOf latency = slot.toNat ↔ log2Bucket latency = slot := UInt32.toNat_inj

/-- The samples of one counter. -/
def hits (samples : List Sample) (cpu : ℕ) (slot : UInt32) : ℕ :=
  samples.countP fun s => decide (s.1 = cpu ∧ log2Bucket s.2 = slot)

theorem hits_cons (s : Sample) (samples : List Sample) (cpu : ℕ) (slot : UInt32) :
    hits (s :: samples) cpu slot
      = hits samples cpu slot + if s.1 = cpu ∧ log2Bucket s.2 = slot then 1 else 0 := by
  simp only [hits, List.countP_cons, decide_eq_true_eq]

theorem hits_le_length (samples : List Sample) (cpu : ℕ) (slot : UInt32) :
    hits samples cpu slot ≤ samples.length := List.countP_le_length

/-- A counter grows by the number of its samples. -/
theorem hist_recordAll (name : HistName) (m : Maps) (samples : List Sample) (cpu : ℕ)
    (slot : UInt32) :
    ((recordAll name m samples).hist name cpu slot)
      = m.hist name cpu slot + UInt64.ofNat (hits samples cpu slot) := by
  induction samples generalizing m with
  | nil => exact (UInt64.add_zero _).symm
  | cons s samples ih =>
      show (recordAll name (histUpdate m name s.1 s.2) samples).hist name cpu slot = _
      rw [ih, histUpdate_eq, hits_cons]
      show bump m.hist name s.1 (log2Bucket s.2) name cpu slot + _ = _
      by_cases h : s.1 = cpu ∧ log2Bucket s.2 = slot
      · rw [bump, if_pos ⟨rfl, h.1.symm, h.2.symm⟩, if_pos h, UInt64.ofNat_add,
          UInt64.add_assoc, UInt64.add_comm 1]
        rfl
      · rw [bump, if_neg fun hc => h ⟨hc.2.1.symm, hc.2.2.symm⟩, if_neg h]
        rfl

/-- The sum of the first slices, one of each CPU. -/
theorem sumCPUs_range (f : ℕ → UInt64) (ncpu : ℕ) :
    sumCPUs ((List.range ncpu).map fun cpu => [f cpu])
      = UInt64.ofNat (((List.range ncpu).map fun cpu => (f cpu).toNat).sum) := by
  induction ncpu with
  | zero => rfl
  | succ ncpu ih =>
      rw [sumCPUs] at ih ⊢
      rw [List.range_succ, List.map_append, List.foldl_append, ih, List.map_append,
        List.sum_append, UInt64.ofNat_add]
      show _ + f ncpu = _
      simp

/-- Over all CPUs, the counters of a slot have the latencies of its bucket. -/
theorem sum_hits (samples : List Sample) (ncpu : ℕ) (slot : UInt32)
    (hcpu : ∀ s ∈ samples, s.1 < ncpu) :
    ((List.range ncpu).map fun cpu => hits samples cpu slot).sum
      = sizeAt slotOf slot.toNat (latencies samples) := by
  induction samples with
  | nil => simp [hits, latencies]
  | cons s samples ih =>
      have ih := ih fun s' hs' => hcpu s' (by simp [hs'])
      have hs : s.1 < ncpu := hcpu s (by simp)
      have hone : ((List.range ncpu).map fun cpu =>
          if s.1 = cpu ∧ log2Bucket s.2 = slot then 1 else 0).sum
          = if slotOf s.2 = slot.toNat then 1 else 0 := by
        by_cases hslot : log2Bucket s.2 = slot
        · rw [if_pos (slotOf_eq_iff.mpr hslot)]
          simp only [hslot, and_true]
          show ∑ cpu ∈ Finset.range ncpu, (if s.1 = cpu then 1 else 0) = 1
          rw [Finset.sum_ite_eq, if_pos (Finset.mem_range.mpr hs)]
        · rw [if_neg fun hc => hslot (slotOf_eq_iff.mp hc)]
          simp [hslot]
      simp only [hits_cons]
      rw [List.sum_map_add, ih, hone]
      exact (sizeAt_cons slotOf slot.toNat s.2 (latencies samples)).symm

/-! ### The sums over the CPUs -/

theorem toNat_eq_zero_of_not_pos {v : UInt64} (h : ¬ 0 < v) : v.toNat = 0 := by
  rw [UInt64.lt_iff_toNat_lt] at h
  exact Nat.eq_zero_of_not_pos h

/-- The entries of positive count. -/
def positives (entries : BucketMap) : BucketMap := entries.filter fun e => decide (0 < e.2)

theorem positives_cons_pos {e : UInt32 × UInt64} (h : 0 < e.2) (entries : BucketMap) :
    positives (e :: entries) = e :: positives entries :=
  List.filter_cons_of_pos (decide_eq_true h)

theorem positives_cons_zero {e : UInt32 × UInt64} (h : ¬ 0 < e.2) (entries : BucketMap) :
    positives (e :: entries) = positives entries :=
  List.filter_cons_of_neg fun hc => h (of_decide_eq_true hc)

/-- The map has the slots of positive count. -/
theorem combineSlots_eq {lookup : Lookup} {count : UInt32 → UInt64} {slots : List UInt32}
    (h : ∀ slot ∈ slots, ∃ values, lookup slot = some values ∧ sumCPUs values = count slot) :
    combineSlots lookup slots = positives (slots.map fun slot => (slot, count slot)) := by
  induction slots with
  | nil => rfl
  | cons slot slots ih =>
      obtain ⟨values, hlookup, hsum⟩ := h slot (by simp)
      have ih := ih fun slot' hslot' => h slot' (by simp [hslot'])
      rw [combineSlots, hlookup]
      show (if 0 < sumCPUs values then _ else _) = _
      rw [List.map_cons, ih, hsum]
      by_cases hpos : 0 < count slot
      · rw [if_pos hpos, positives_cons_pos hpos]
      · rw [if_neg hpos, positives_cons_zero hpos]

/-- A slot that is left out counts zero, as it does in the map. -/
theorem bucketAt_positives (count : UInt32 → UInt64) {slots : List UInt32} {slot : UInt32}
    (h : slot ∈ slots) :
    bucketAt (positives (slots.map fun slot => (slot, count slot))) slot = count slot := by
  by_cases hpos : 0 < count slot
  · induction slots with
    | nil => exact absurd h List.not_mem_nil
    | cons slot' slots ih =>
        rw [List.map_cons]
        by_cases hne : slot = slot'
        · subst hne
          rw [positives_cons_pos hpos, bucketAt, List.lookup_cons_self]
          rfl
        · have ih := ih ((List.mem_cons.mp h).resolve_left hne)
          have hbeq : (slot == slot') = false := beq_false_of_ne hne
          by_cases hpos' : 0 < count slot'
          · rw [positives_cons_pos hpos', bucketAt, List.lookup_cons, hbeq]
            exact ih
          · rw [positives_cons_zero hpos']
            exact ih
  · have hnone : (positives (slots.map fun slot => (slot, count slot))).lookup slot = none := by
      rw [List.lookup_eq_none_iff]
      intro e he
      obtain ⟨hmem, hposE⟩ := List.mem_filter.mp he
      obtain ⟨slot', -, rfl⟩ := List.mem_map.mp hmem
      rw [bne_iff_ne]
      intro heq
      have heq : slot = slot' := heq
      subst heq
      exact hpos (of_decide_eq_true hposE)
    have hzero : count slot = 0 := UInt64.toNat_inj.mp (toNat_eq_zero_of_not_pos hpos)
    rw [bucketAt, hnone, hzero]
    rfl

theorem totalOf_eq (entries : BucketMap) :
    totalOf entries = UInt64.ofNat (entries.map fun e => e.2.toNat).sum := by
  induction entries using List.reverseRecOn with
  | nil => rfl
  | append_singleton entries e ih =>
      rw [totalOf] at ih ⊢
      rw [List.foldl_append, ih, List.map_append, List.sum_append, UInt64.ofNat_add]
      show _ + e.2 = _
      simp

/-- The slots that are left out add nothing. -/
theorem sum_positives (entries : BucketMap) :
    ((positives entries).map fun e => e.2.toNat).sum = (entries.map fun e => e.2.toNat).sum := by
  induction entries with
  | nil => rfl
  | cons e entries ih =>
      rw [List.map_cons, List.sum_cons, ← ih]
      by_cases hpos : 0 < e.2
      · rw [positives_cons_pos hpos]
        rfl
      · rw [positives_cons_zero hpos, toNat_eq_zero_of_not_pos hpos, Nat.zero_add]

/-! ### The loop over the slots -/

/-- The targets are filled as long as the running count reaches them. -/
theorem fillReached_spec (mid cum total : UInt64) {todo : List ℚ} (results : List UInt64)
    (hsorted : todo.Pairwise (· ≤ ·)) :
    ∃ done rest, todo = done ++ rest
      ∧ fillReached .none mid cum total todo results = (rest, results ++ done.map fun _ => mid)
      ∧ (∀ q ∈ done, q ≤ (cum.toNat : ℚ) / total.toNat)
      ∧ ∀ q ∈ rest, (cum.toNat : ℚ) / total.toNat < q := by
  induction todo generalizing results with
  | nil => exact ⟨[], [], rfl, by rw [fillReached, List.map_nil, List.append_nil], by simp, by simp⟩
  | cons target todo ih =>
      obtain ⟨hhead, htail⟩ := List.pairwise_cons.mp hsorted
      rw [fillReached]
      by_cases hreach : Reaches .none cum total target
      · obtain ⟨done, rest, hsplit, hrun, hdone, hrest⟩ := ih (results ++ [mid]) htail
        refine ⟨target :: done, rest, by rw [hsplit, List.cons_append], ?_, ?_, hrest⟩
        · rw [if_pos hreach, hrun, List.append_assoc]
          rfl
        · intro q hq
          rcases List.mem_cons.mp hq with rfl | hq
          · exact hreach
          · exact hdone q hq
      · have hlt : (cum.toNat : ℚ) / total.toNat < target := not_le.mp hreach
        refine ⟨[], target :: todo, rfl, ?_, by simp, ?_⟩
        · rw [if_neg hreach, List.map_nil, List.append_nil]
        · intro q hq
          rcases List.mem_cons.mp hq with rfl | hq
          · exact hlt
          · exact lt_of_lt_of_le hlt (hhead q hq)

theorem slotsFrom_succ (s k : ℕ) :
    slotsFrom s (k + 1) = UInt32.ofNat s :: slotsFrom (s + 1) k := by
  rw [slotsFrom, List.range'_succ, List.map_cons, slotsFrom]

theorem toNat_slot {s : ℕ} (h : s < 64) : (UInt32.ofNat s).toNat = s :=
  UInt32.toNat_ofNat_of_lt' (Nat.lt_trans h (by decide))

/-- The counts of all slots are those of the latencies' buckets. -/
def Counts (buckets : BucketMap) (l : List UInt64) : Prop :=
  ∀ slot, slot.toNat < 64 → bucketAt buckets slot = UInt64.ofNat (sizeAt slotOf slot.toNat l)

/-- Every latency is in one of the buckets. -/
theorem below_slotOf (l : List UInt64) : below slotOf 64 l = l.length := by
  apply below_eq_length
  intro latency _
  exact UInt32.lt_iff_toNat_lt.mp (log2Bucket_lt latency)

/-- The running count stays the number of latencies below the next bucket. -/
theorem running_count {buckets : BucketMap} {l : List UInt64} (hcounts : Counts buckets l)
    (hlen : l.length < 2 ^ 64) {s : ℕ} (hs : s < 64) {cum : UInt64}
    (hcum : cum.toNat = below slotOf s l) :
    (cum + bucketAt buckets (UInt32.ofNat s)).toNat = below slotOf (s + 1) l := by
  have hslot := toNat_slot hs
  have hle := below_le_length slotOf (s + 1) l
  rw [below_succ] at hle ⊢
  rw [hcounts _ (by omega), hslot, UInt64.toNat_add, hcum, UInt64.toNat_ofNat',
    Nat.mod_eq_of_lt (by omega : sizeAt slotOf s l < 2 ^ 64), Nat.mod_eq_of_lt (by omega)]

/-- The last slot reaches every target, so none is left after it. -/
theorem eq_nil_of_past {l : List UInt64} {todo : List ℚ} (hone : ∀ q ∈ todo, q ≤ 1)
    (hpast : ∀ q ∈ todo, ∀ t < 64, (below slotOf (t + 1) l : ℚ) < q * l.length) : todo = [] := by
  rw [List.eq_nil_iff_forall_not_mem]
  intro q hq
  have hlast := hpast q hq 63 (by decide)
  rw [below_slotOf] at hlast
  exact absurd (mul_le_of_le_one_left (Nat.cast_nonneg _) (hone q hq)) (not_le.mpr hlast)

/-- **The loop over the slots** fills every target, each at the first bucket that reaches it:
the running count is the number of latencies below the next bucket. -/
theorem scanSlots_spec {midpoint : UInt32 → UInt64} {buckets : BucketMap} {l : List UInt64}
    {total : UInt64} (hcounts : Counts buckets l) (htotal : total.toNat = l.length)
    (hpos : 0 < l.length) {s k : ℕ} (hk : s + k = 64) {cum : UInt64} {todo : List ℚ}
    (results : List UInt64) (hcum : cum.toNat = below slotOf s l)
    (hsorted : todo.Pairwise (· ≤ ·)) (hone : ∀ q ∈ todo, q ≤ 1)
    (hpast : ∀ q ∈ todo, ∀ t < s, (below slotOf (t + 1) l : ℚ) < q * l.length) :
    ∃ found : List UInt32,
      scanSlots .none midpoint buckets total (slotsFrom s k) cum todo results
        = results ++ found.map midpoint
      ∧ List.Forall₂ (fun q slot => slot.toNat < 64 ∧ ReachedFirst slotOf q l slot.toNat)
          todo found := by
  have hlen : (0 : ℚ) < l.length := by exact_mod_cast hpos
  induction k generalizing s cum todo results with
  | zero =>
      have hs : s = 64 := hk
      subst hs
      have hnil := eq_nil_of_past hone hpast
      subst hnil
      exact ⟨[], (List.append_nil _).symm, .nil⟩
  | succ k ih =>
      rw [slotsFrom_succ]
      cases todo with
      | nil => exact ⟨[], (List.append_nil _).symm, .nil⟩
      | cons target todo =>
          have hs : (UInt32.ofNat s).toNat = s := toNat_slot (by omega)
          have hnext := running_count hcounts (htotal ▸ total.toNat_lt) (by omega) hcum
          obtain ⟨done, rest, hsplit, hfill, hdone, hrest⟩ :=
            fillReached_spec (midpoint (UInt32.ofNat s))
              (cum + bucketAt buckets (UInt32.ofNat s)) total results hsorted
          rw [hnext, htotal] at hdone hrest
          rw [hsplit] at hsorted hone hpast
          have hpastNext : ∀ q ∈ rest, ∀ t < s + 1,
              (below slotOf (t + 1) l : ℚ) < q * l.length := by
            intro q hq t ht
            rcases Nat.lt_succ_iff_lt_or_eq.mp ht with hlt | rfl
            · exact hpast q (by simp [hq]) t hlt
            · exact (div_lt_iff₀ hlen).mp (hrest q hq)
          obtain ⟨found, hrun, hfound⟩ := ih (by omega)
            (results ++ done.map fun _ => midpoint (UInt32.ofNat s)) hnext
            (List.pairwise_append.mp hsorted).2.1 (fun q hq => hone q (by simp [hq])) hpastNext
          refine ⟨done.map (fun _ => UInt32.ofNat s) ++ found, ?_, ?_⟩
          · rw [scanSlots]
            show scanSlots .none midpoint buckets total (slotsFrom (s + 1) k) _
              (fillReached _ _ _ _ _ _).1 (fillReached _ _ _ _ _ _).2 = _
            rw [hfill, hrun, List.map_append, List.map_map, List.append_assoc]
            rfl
          · rw [hsplit]
            apply List.rel_append _ hfound
            rw [List.forall₂_map_right_iff, List.forall₂_same]
            intro q hq
            rw [hs]
            exact ⟨by omega, (le_div_iff₀ hlen).mp (hdone q hq), hpast q (by simp [hq])⟩

/-! ### The report -/

/-- A reported percentile is the midpoint of the bucket of the nearest-rank percentile. -/
structure Picks (midpoint : UInt32 → UInt64) (l : List UInt64) (q : ℚ) (p : UInt64)
    (slot : UInt32) : Prop where
  eq : p = midpoint slot
  ne_zero : p ≠ 0
  bucket : log2Bucket p = slot
  percentile : ∃ x, IsNearestRank UInt64.toNat q l x ∧ log2Bucket x = slot

variable {midpoint : UInt32 → UInt64}

section Midpoints

variable (hmid : ∀ slot, slot.toNat < 64 → 2 ^ slot.toNat ≤ (midpoint slot).toNat
  ∧ (midpoint slot).toNat < 2 ^ (slot.toNat + 1)) {l : List UInt64} (hne : l ≠ [])
include hmid hne

theorem picks_of_reachedFirst {q : ℚ} {slot : UInt32} (hq₀ : 0 < q) (hq₁ : q ≤ 1)
    (hslot : slot.toNat < 64) (h : ReachedFirst slotOf q l slot.toNat) :
    Picks midpoint l q (midpoint slot) slot := by
  obtain ⟨hlo, hhi⟩ := hmid slot hslot
  obtain ⟨x, hx⟩ := exists_nearestRank UInt64.toNat hne hq₁
  refine ⟨rfl, ?_, log2Bucket_eq_of_between hlo hhi, x, hx, ?_⟩
  · intro hzero
    rw [hzero] at hlo
    exact absurd hlo (Nat.not_le.mpr (Nat.two_pow_pos _))
  · have hmono : ∀ a b : UInt64, a.toNat ≤ b.toNat → slotOf a ≤ slotOf b :=
      fun _ _ hab => log2Bucket_mono hab
    exact slotOf_eq_iff.mp (bucket_eq_of_reachedFirst hmono hq₀ hx h)

/-- **The percentiles of a map with the right counts** are right up to their buckets. -/
theorem computePercentiles_spec {range : BucketMap → BucketMap} {buckets : BucketMap}
    (hcounts : Counts buckets l) (htotal : (totalOf (range buckets)).toNat = l.length) :
    (computePercentiles .none midpoint range buckets).total.toNat = l.length
      ∧ ∃ s50 s99 s999 : UInt32,
        Picks midpoint l (1 / 2) (computePercentiles .none midpoint range buckets).p50 s50
        ∧ Picks midpoint l (99 / 100) (computePercentiles .none midpoint range buckets).p99 s99
        ∧ Picks midpoint l (999 / 1000) (computePercentiles .none midpoint range buckets).p999 s999
        ∧ s50 ≤ s99 ∧ s99 ≤ s999 := by
  have hpos : 0 < l.length := List.length_pos_of_ne_nil hne
  have hzero : ¬ totalOf (range buckets) = 0 := by
    intro hc
    rw [hc] at htotal
    exact absurd htotal.symm (Nat.ne_of_gt hpos)
  have hscan : ∃ found : List UInt32,
      scanSlots .none midpoint buckets (totalOf (range buckets)) (slotsFrom 0 64) 0 targets []
        = [] ++ found.map midpoint
      ∧ List.Forall₂ (fun q slot => slot.toNat < 64 ∧ ReachedFirst slotOf q l slot.toNat)
          targets found := by
    apply scanSlots_spec hcounts htotal hpos (Nat.zero_add 64) []
    · exact (below_zero slotOf l).symm
    · norm_num [targets]
    · norm_num [targets]
    · intro _ _ t ht
      exact absurd ht (Nat.not_lt_zero t)
  obtain ⟨found, hrun, hfound⟩ := hscan
  rw [computePercentiles, if_neg hzero]
  show (totalOf (range buckets)).toNat = _ ∧ _
  simp only [hrun, List.nil_append]
  refine ⟨htotal, ?_⟩
  unfold targets at hfound
  obtain _ | ⟨⟨hs50, h50⟩, _ | ⟨⟨hs99, h99⟩, _ | ⟨⟨hs999, h999⟩, _ | _⟩⟩⟩ := hfound
  refine ⟨_, _, _, picks_of_reachedFirst hmid hne (by norm_num) (by norm_num) hs50 h50,
    picks_of_reachedFirst hmid hne (by norm_num) (by norm_num) hs99 h99,
    picks_of_reachedFirst hmid hne (by norm_num) (by norm_num) hs999 h999, ?_, ?_⟩
  · exact UInt32.le_iff_toNat_le.mpr (h50.mono (by norm_num) h99)
  · exact UInt32.le_iff_toNat_le.mpr (h99.mono (by norm_num) h999)

end Midpoints

/-- The counts of the first `n` slots are the latencies of their buckets. -/
theorem sum_counts (l : List UInt64) (hlen : l.length < 2 ^ 64) {n : ℕ} (hn : n ≤ 64) :
    ((slotsFrom 0 n).map fun slot => (UInt64.ofNat (sizeAt slotOf slot.toNat l)).toNat).sum
      = below slotOf n l := by
  induction n with
  | zero => exact (below_zero slotOf l).symm
  | succ n ih =>
      have hsize : sizeAt slotOf n l < 2 ^ 64 := Nat.lt_of_le_of_lt List.countP_le_length hlen
      have hslots : slotsFrom 0 (n + 1) = slotsFrom 0 n ++ [UInt32.ofNat n] := by
        rw [slotsFrom, slotsFrom, List.range'_1_concat, List.map_append, Nat.zero_add]
        rfl
      rw [hslots, List.map_append, List.sum_append, ih (by omega), below_succ]
      show _ + ((UInt64.ofNat (sizeAt slotOf (UInt32.ofNat n).toNat l)).toNat + 0) = _
      rw [toNat_slot (by omega), UInt64.toNat_ofNat_of_lt' hsize, Nat.add_zero]

/-- What the CPUs have counted for a slot, added up. -/
theorem sumCPUs_recordAll (name : HistName) {ncpu : ℕ} {samples : List Sample} (slot : UInt32)
    (hcpu : ∀ s ∈ samples, s.1 < ncpu) (hlen : samples.length < 2 ^ 64) :
    sumCPUs ((List.range ncpu).map fun cpu =>
        [(recordAll name Maps.init samples).hist name cpu slot])
      = UInt64.ofNat (sizeAt slotOf slot.toNat (latencies samples)) := by
  have hhits : ∀ cpu, ((recordAll name Maps.init samples).hist name cpu slot).toNat
      = hits samples cpu slot := by
    intro cpu
    have hlt : hits samples cpu slot < 2 ^ 64 :=
      Nat.lt_of_le_of_lt (hits_le_length samples cpu slot) hlen
    rw [hist_recordAll, show Maps.init.hist name cpu slot = 0 from rfl, UInt64.zero_add,
      UInt64.toNat_ofNat_of_lt' hlt]
  rw [sumCPUs_range]
  simp only [hhits]
  rw [sum_hits samples ncpu slot hcpu]

theorem mem_slotsFrom {slot : UInt32} : slot ∈ slotsFrom 0 64 ↔ slot.toNat < 64 := by
  constructor
  · intro hslot
    obtain ⟨s, hs, rfl⟩ := List.mem_map.mp hslot
    have hlt := (List.mem_range'_1.mp hs).2
    rwa [toNat_slot (by omega)]
  · intro hlt
    refine List.mem_map.mpr ⟨slot.toNat, List.mem_range'_1.mpr ⟨Nat.zero_le _, by omega⟩, ?_⟩
    exact UInt32.ofNat_toNat

/-- The slots that have latencies, as they are in the loader's map. -/
def slotCounts (l : List UInt64) : BucketMap :=
  positives ((slotsFrom 0 64).map fun slot => (slot, UInt64.ofNat (sizeAt slotOf slot.toNat l)))

theorem counts_slotCounts (l : List UInt64) : Counts (slotCounts l) l := fun _ hslot =>
  bucketAt_positives _ (mem_slotsFrom.mpr hslot)

/-- The map has all latencies. -/
theorem sum_slotCounts {l : List UInt64} (hlen : l.length < 2 ^ 64) :
    ((slotCounts l).map fun e => e.2.toNat).sum = l.length := by
  rw [slotCounts, sum_positives, List.map_map, ← below_slotOf l]
  exact sum_counts l hlen (Nat.le_refl 64)

theorem slotCounts_eq_nil_iff {l : List UInt64} (hlen : l.length < 2 ^ 64) :
    slotCounts l = [] ↔ l = [] := by
  constructor
  · intro hnil
    have hsum := sum_slotCounts hlen
    rw [hnil] at hsum
    exact List.eq_nil_of_length_eq_zero hsum.symm
  · rintro rfl
    exact List.filter_eq_nil_iff.mpr fun e he => by
      obtain ⟨slot, -, rfl⟩ := List.mem_map.mp he
      simp [sizeAt]

theorem totalOf_slotCounts {range : BucketMap → BucketMap}
    (hrange : ∀ buckets, (range buckets).Perm buckets) {l : List UInt64}
    (hlen : l.length < 2 ^ 64) : (totalOf (range (slotCounts l))).toNat = l.length := by
  rw [totalOf_eq, ((hrange _).map fun e => e.2.toNat).sum_eq, sum_slotCounts hlen,
    UInt64.toNat_ofNat_of_lt' hlen]

/-- **The report is right up to the bucket.**  Whatever latencies the probes recorded, on
whatever CPUs and in whatever order, the report counts all of them, and each percentile is
the midpoint of the bucket of the nearest-rank percentile. -/
theorem reportHistogram_percentiles (name : HistName) (ncpu : ℕ) (samples : List Sample)
    (hne : samples ≠ []) (hcpu : ∀ s ∈ samples, s.1 < ncpu) (hlen : samples.length < 2 ^ 64)
    {lookup : Lookup}
    (hlookup : ∀ slot, slot.toNat < 64 → lookup slot = some ((List.range ncpu).map fun cpu =>
      [(recordAll name Maps.init samples).hist name cpu slot]))
    (hmid : ∀ slot, slot.toNat < 64 → 2 ^ slot.toNat ≤ (midpoint slot).toNat
      ∧ (midpoint slot).toNat < 2 ^ (slot.toNat + 1))
    {range : BucketMap → BucketMap} (hrange : ∀ buckets, (range buckets).Perm buckets)
    (now stack op : String) :
    ∃ report, reportHistogram .none midpoint range now stack op lookup = some report
      ∧ report.totalCount.toNat = samples.length
      ∧ ∃ s50 s99 s999 : UInt32,
        Picks midpoint (latencies samples) (1 / 2) report.p50NS s50
        ∧ Picks midpoint (latencies samples) (99 / 100) report.p99NS s99
        ∧ Picks midpoint (latencies samples) (999 / 1000) report.p999NS s999
        ∧ s50 ≤ s99 ∧ s99 ≤ s999 := by
  have hlenL : (latencies samples).length = samples.length := List.length_map Prod.snd
  have hneL : latencies samples ≠ [] := by
    intro hc
    exact hne (List.map_eq_nil_iff.mp hc)
  have hcombined : combineSlots lookup (slotsFrom 0 64) = slotCounts (latencies samples) :=
    combineSlots_eq fun slot hslot => ⟨_, hlookup slot (mem_slotsFrom.mp hslot),
      sumCPUs_recordAll name slot hcpu hlen⟩
  have hlen' : (latencies samples).length < 2 ^ 64 := hlenL.symm ▸ hlen
  obtain ⟨hcount, hpicks⟩ := computePercentiles_spec hmid hneL (counts_slotCounts _)
    (totalOf_slotCounts hrange hlen')
  rw [hlenL] at hcount
  rw [reportHistogram, hcombined]
  exact ⟨_, if_neg (mt (slotCounts_eq_nil_iff hlen').mp hneL), hcount, hpicks⟩

/-- The midpoint without the rounding of the float. -/
def exactMidpoint (slot : UInt32) : UInt64 := UInt64.ofNat (Nat.sqrt (2 ^ (2 * slot.toNat + 1)))

theorem exactMidpoint_between (slot : UInt32) (h : slot.toNat < 64) :
    2 ^ slot.toNat ≤ (exactMidpoint slot).toNat
      ∧ (exactMidpoint slot).toNat < 2 ^ (slot.toNat + 1) := by
  have hlo : 2 ^ slot.toNat ≤ Nat.sqrt (2 ^ (2 * slot.toNat + 1)) := by
    rw [Nat.le_sqrt, ← Nat.pow_add]
    exact Nat.pow_le_pow_right (by decide) (by omega)
  have hhi : Nat.sqrt (2 ^ (2 * slot.toNat + 1)) < 2 ^ (slot.toNat + 1) := by
    rw [Nat.sqrt_lt, ← Nat.pow_add]
    exact Nat.pow_lt_pow_right (by decide) (by omega)
  have hword : 2 ^ (slot.toNat + 1) ≤ 2 ^ 64 := Nat.pow_le_pow_right (by decide) (by omega)
  rw [exactMidpoint, UInt64.toNat_ofNat_of_lt' (Nat.lt_of_lt_of_le hhi hword)]
  exact ⟨hlo, hhi⟩

theorem reportHistogram_percentiles_three :
    ∃ report, reportHistogram .none exactMidpoint List.reverse "ts" "surrealdb" "vfs_read"
        (fun slot => some ((List.range 2).map fun cpu =>
          [(recordAll .surrealRead Maps.init [(0, 5), (1, 1024), (0, 0)]).hist .surrealRead cpu
            slot])) = some report
      ∧ report.totalCount.toNat = 3
      ∧ log2Bucket report.p50NS ≤ log2Bucket report.p99NS := by
  obtain ⟨report, hreport, hcount, s50, s99, -, h50, h99, -, hle, -⟩ :=
    reportHistogram_percentiles .surrealRead 2 [(0, 5), (1, 1024), (0, 0)] (by simp) (by simp)
      (by simp) (fun _ _ => rfl) exactMidpoint_between List.reverse_perm "ts" "surrealdb"
      "vfs_read"
  refine ⟨report, hreport, hcount, ?_⟩
  rw [h50.bucket, h99.bucket]
  exact hle

end NexusCore.Probe
