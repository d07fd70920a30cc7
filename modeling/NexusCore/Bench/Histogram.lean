import NexusCore.Bench.Exact

/-!
# How much the synthetic histogram holds

A histogram has one partial slot below the median, a run of slots whose weight falls from the
median to the 99th percentile, and two slots above.  `sum_share` adds up their shares in
closed form.  The number of weighted slots grows with the payload, and for the one-hop target
the shares pass the whole when the percentile passes the middle of its last octave.
-/

namespace NexusCore.Bench

open Foundation.Machine

/-! ### The sum of the shares -/

section Shares

variable {p50 p99 s m : ℕ}

/-- The shares add up to a partial slot, two slots above, and the weighted ones between. -/
theorem sum_share (hs : 2 ^ s < p50) (hs' : p50 ≤ 2 ^ (s + 1)) (hm : 2 ^ m < p99)
    (hm' : p99 ≤ 2 ^ (m + 1)) (hsm : s < m) (hlast : m + 3 ≤ 64) :
    ∑ i ∈ Finset.range 64, share p50 p99 i
      = 0.03 + 0.15 * (((m - s : ℕ) * (p99 : ℚ) - (2 ^ (m + 1) - 2 ^ (s + 1)))
          / (p99 - p50)) := by
  have hpow : ∀ {a b : ℕ}, a ≤ b → 2 ^ a ≤ 2 ^ b := fun h => Nat.pow_le_pow_right (by omega) h
  have hmid : 2 ^ (s + 1) ≤ 2 ^ m := hpow (by omega)
  have hquad : 2 ^ (m + 2) = 2 ^ m * 4 := pow_add 2 m 2
  have hquad' : 2 ^ (m + 3) = 2 ^ (m + 1) * 4 := pow_add 2 (m + 1) 2
  have hbelow : ∑ i ∈ Finset.Ico 0 s, share p50 p99 i = 0 := by
    apply Finset.sum_eq_zero
    intro i hi
    have hle := hpow (Nat.succ_le_of_lt (Finset.mem_Ico.mp hi).2)
    exact if_pos (by omega)
  have hpartial : share p50 p99 s = 0.02 := by
    rw [share, if_neg (by omega), if_neg (by omega), if_pos hs]
  have hweighted : ∑ i ∈ Finset.Ico (s + 1) (m + 1), share p50 p99 i
      = ∑ i ∈ Finset.Ico (s + 1) (m + 1), 0.15 * (((p99 : ℚ) - 2 ^ i) / (p99 - p50)) := by
    apply Finset.sum_congr rfl
    intro i hi
    obtain ⟨hsi, him⟩ := Finset.mem_Ico.mp hi
    have hge := hpow hsi
    have hle := hpow (Nat.le_of_lt_succ him)
    have hsucc : 2 ^ (i + 1) = 2 ^ i * 2 := pow_succ 2 i
    have hne : (p99 : ℚ) - p50 ≠ 0 := sub_ne_zero.mpr (by exact_mod_cast (by omega : p99 ≠ p50))
    rw [share, if_neg (by omega), if_neg (by omega), if_neg (by omega), if_pos (by omega),
      Nat.cast_sub (by omega), Nat.cast_sub (by omega), Nat.cast_pow, Nat.cast_ofNat]
    field_simp
    ring
  have habove : ∑ i ∈ Finset.Ico (m + 1) (m + 3), share p50 p99 i
      = ∑ _i ∈ Finset.Ico (m + 1) (m + 3), (0.005 : ℚ) := by
    apply Finset.sum_congr rfl
    intro i hi
    obtain ⟨hmi, him⟩ := Finset.mem_Ico.mp hi
    have hge := hpow hmi
    have hle := hpow (show i ≤ m + 2 by omega)
    have hsucc : 2 ^ (i + 1) = 2 ^ i * 2 := pow_succ 2 i
    rw [share, if_neg (by omega), if_neg (by omega), if_neg (by omega), if_neg (by omega)]
  have hempty : ∑ i ∈ Finset.Ico (m + 3) 64, share p50 p99 i = 0 := by
    apply Finset.sum_eq_zero
    intro i hi
    have hge := hpow (Finset.mem_Ico.mp hi).1
    have hsucc : 2 ^ (i + 1) = 2 ^ i * 2 := pow_succ 2 i
    rw [share, if_neg (by omega), if_pos (by omega)]
  rw [Finset.range_eq_Ico, ← Finset.sum_Ico_consecutive _ (Nat.zero_le s) (by omega),
    ← Finset.sum_Ico_consecutive _ (Nat.le_succ s) (by omega),
    ← Finset.sum_Ico_consecutive _ (show s + 1 ≤ m + 1 by omega) (by omega),
    ← Finset.sum_Ico_consecutive _ (show m + 1 ≤ m + 3 by omega) hlast,
    hbelow, Nat.Ico_succ_singleton, Finset.sum_singleton, hpartial, hweighted, habove, hempty,
    ← Finset.mul_sum, ← Finset.sum_div, Finset.sum_sub_distrib,
    geom_sum_Ico (by norm_num) (by omega), Finset.sum_const, Finset.sum_const, Nat.card_Ico,
    Nat.card_Ico, Nat.add_sub_add_right, Nat.add_sub_add_left, nsmul_eq_mul, nsmul_eq_mul]
  norm_num
  ring

/-- A number lies in one of the octaves above a power of two. -/
theorem exists_octave {x a : ℕ} (k : ℕ) (hlo : 2 ^ a < x) (hhi : x ≤ 2 ^ (a + k)) :
    ∃ m, a ≤ m ∧ m < a + k ∧ 2 ^ m < x ∧ x ≤ 2 ^ (m + 1) := by
  induction k with
  | zero => exact absurd (Nat.lt_of_lt_of_le hlo hhi) (Nat.lt_irrefl _)
  | succ k ih =>
      by_cases hx : x ≤ 2 ^ (a + k)
      · obtain ⟨m, ham, hmk, hm⟩ := ih hx
        exact ⟨m, ham, by omega, hm⟩
      · exact ⟨a + k, by omega, by omega, Nat.not_le.mp hx, hhi⟩

/-- The shares of a one-hop target, whose median is at 10500 ns. -/
theorem sum_share_oneHop (p99 : ℕ) (hlo : 37500 ≤ p99) (hhi : p99 ≤ 3109500) :
    ∑ i ∈ Finset.range 64, share 10500 p99 i ≤ 1.032 ∧
      (p99 ≤ 2677500 → ∑ i ∈ Finset.range 64, share 10500 p99 i ≤ 1) ∧
      (2689500 ≤ p99 → 1.0007 ≤ ∑ i ∈ Finset.range 64, share 10500 p99 i) := by
  obtain ⟨m, hm15, hm22, hm, hm'⟩ := exists_octave (a := 15) 7 (show 2 ^ 15 < p99 by omega)
    (show p99 ≤ 2 ^ (15 + 7) by omega)
  rw [sum_share (s := 13) (by norm_num) (by norm_num) hm hm' (by omega) (by omega)]
  have hpos : (0 : ℚ) < (p99 : ℚ) - (10500 : ℕ) := by
    rw [sub_pos]
    exact_mod_cast (by omega : 10500 < p99)
  have hlo' : (37500 : ℚ) ≤ p99 := by exact_mod_cast hlo
  have hhi' : (p99 : ℚ) ≤ 3109500 := by exact_mod_cast hhi
  have hm₁ : (2 : ℚ) ^ m < p99 := by exact_mod_cast hm
  have hm₂ : (p99 : ℚ) ≤ 2 ^ (m + 1) := by exact_mod_cast hm'
  refine ⟨?_, ?_, ?_⟩
  · have hweight : ((m - 13 : ℕ) * (p99 : ℚ) - (2 ^ (m + 1) - 2 ^ (13 + 1)))
        / (p99 - (10500 : ℕ)) ≤ 6.68 := by
      rw [div_le_iff₀ hpos]
      interval_cases m <;> norm_num at hm₁ hm₂ ⊢ <;> linarith
    linarith
  · intro hsmall
    have hsmall' : (p99 : ℚ) ≤ 2677500 := by exact_mod_cast hsmall
    have hweight : ((m - 13 : ℕ) * (p99 : ℚ) - (2 ^ (m + 1) - 2 ^ (13 + 1)))
        / (p99 - (10500 : ℕ)) ≤ 6.466 := by
      rw [div_le_iff₀ hpos]
      interval_cases m <;> norm_num at hm₁ hm₂ ⊢ <;> linarith
    linarith
  · intro hlarge
    have hlarge' : (2689500 : ℚ) ≤ p99 := by exact_mod_cast hlarge
    have hweight : 6.4714 ≤ ((m - 13 : ℕ) * (p99 : ℚ) - (2 ^ (m + 1) - 2 ^ (13 + 1)))
        / (p99 - (10500 : ℕ)) := by
      rw [le_div_iff₀ hpos]
      interval_cases m <;> norm_num at hm₁ hm₂ ⊢ <;> linarith
    linarith

/-- The shares of a three-hop target, whose median is at 25800 ns. -/
theorem sum_share_threeHops (p99 : ℕ) (hlo : 106800 ≤ p99) (hhi : p99 ≤ 3178800) :
    ∑ i ∈ Finset.range 64, share 25800 p99 i ≤ 1 := by
  obtain ⟨m, hm16, hm22, hm, hm'⟩ := exists_octave (a := 16) 6 (show 2 ^ 16 < p99 by omega)
    (show p99 ≤ 2 ^ (16 + 6) by omega)
  rw [sum_share (s := 14) (by norm_num) (by norm_num) hm hm' (by omega) (by omega)]
  have hpos : (0 : ℚ) < (p99 : ℚ) - (25800 : ℕ) := by
    rw [sub_pos]
    exact_mod_cast (by omega : 25800 < p99)
  have hlo' : (106800 : ℚ) ≤ p99 := by exact_mod_cast hlo
  have hhi' : (p99 : ℚ) ≤ 3178800 := by exact_mod_cast hhi
  have hm₁ : (2 : ℚ) ^ m < p99 := by exact_mod_cast hm
  have hm₂ : (p99 : ℚ) ≤ 2 ^ (m + 1) := by exact_mod_cast hm'
  have hweight : ((m - 14 : ℕ) * (p99 : ℚ) - (2 ^ (m + 1) - 2 ^ (14 + 1)))
      / (p99 - (25800 : ℕ)) ≤ 6 := by
    rw [div_le_iff₀ hpos]
    interval_cases m <;> norm_num at hm₁ hm₂ ⊢ <;> linarith
  linarith

end Shares

/-! ### The samples of a histogram -/

section Samples

variable (p50 p99 total : ℕ)

theorem histogramOf_pairwise :
    (histogramOf p50 p99 total).Pairwise fun a b => a.1 < b.1 := by
  rw [histogramOf, List.pairwise_filterMap]
  apply List.pairwise_lt_range.imp
  intro i j hij a ha b hb
  split_ifs at ha hb
  cases ha
  cases hb
  exact hij

theorem mem_histogramOf {e : ℕ × ℕ} (he : e ∈ histogramOf p50 p99 total) : e.1 < 64 ∧ 0 < e.2 := by
  obtain ⟨i, hi, hsome⟩ := List.mem_filterMap.mp he
  split_ifs at hsome with hpos
  cases hsome
  exact ⟨List.mem_range.mp hi, hpos⟩

/-- Leaving out what holds nothing does not change a sum. -/
theorem sum_filterMap_pos (f : ℕ → ℕ) (l : List ℕ) :
    ((l.filterMap fun i => if 0 < f i then some (i, f i) else none).map Prod.snd).sum
      = (l.map f).sum := by
  induction l with
  | nil => rfl
  | cons i l ih =>
      rw [List.map_cons, List.sum_cons, ← ih, List.filterMap_cons]
      by_cases hpos : 0 < f i
      · simp only [if_pos hpos, List.map_cons, List.sum_cons]
      · simp only [if_neg hpos]
        omega

theorem sum_histogramOf :
    ((histogramOf p50 p99 total).map Prod.snd).sum
      = ∑ i ∈ Finset.range 64, samples p50 p99 total i :=
  sum_filterMap_pos (samples p50 p99 total) (List.range 64)

theorem sum_samples_le :
    ((∑ i ∈ Finset.range 64, samples p50 p99 total i : ℕ) : ℚ)
      ≤ total * ∑ i ∈ Finset.range 64, share p50 p99 i := by
  rw [Nat.cast_sum, Finset.mul_sum]
  apply Finset.sum_le_sum
  intro i _
  exact Nat.floor_le (mul_nonneg (Nat.cast_nonneg _) (share_nonneg p50 p99 i))

/-- Rounding loses less than one sample a slot. -/
theorem le_sum_samples :
    total * ∑ i ∈ Finset.range 64, share p50 p99 i
      ≤ ((∑ i ∈ Finset.range 64, samples p50 p99 total i : ℕ) : ℚ) + 64 := by
  have hround : ∀ i ∈ Finset.range 64,
      total * share p50 p99 i ≤ (samples p50 p99 total i : ℚ) + 1 := fun i _ =>
    le_of_lt (Nat.lt_floor_add_one _)
  have hsum := Finset.sum_le_sum hround
  rw [← Finset.mul_sum, Finset.sum_add_distrib, Finset.sum_const, Finset.card_range,
    nsmul_eq_mul] at hsum
  rw [Nat.cast_sum]
  exact hsum.trans (by norm_num)

end Samples

/-! ### The histogram of a run -/

/-- The samples that a result holds. -/
def heldSamples (r : BenchResult) : ℕ := (r.histogram.map fun b => b.count.toNat).sum

section Run

variable {cfg : ScenarioConfig} {r : BenchResult} {total : ℕ}

theorem Figures.heldSamples_eq (h : Figures cfg total r) : heldSamples r
    = ∑ i ∈ Finset.range 64, samples (p50Of cfg) (p99Of cfg) total i := by
  rw [← sum_histogramOf, ← h.histogram, List.map_map]
  rfl

/-- The latencies of the one-hop target. -/
theorem latencies_oneHop (h : Valid cfg) (ht : cfg.target = "surrealdb") :
    p50Of cfg = 10500 ∧ p99Of cfg = 37500 + cfg.payloadBytes.toNat / 4096 * 12000 ∧
      cfg.payloadBytes.toNat / 4096 ≤ 256 := by
  have hpayload := h.payload_le
  have hbase : baseAndHops cfg.target = (2500, 1) := by
    rw [ht]
    rfl
  refine ⟨?_, ?_, by omega⟩
  · rw [p50Of, baseOf, hopsOf, hbase]
    rfl
  · rw [p99Of, baseOf, hopsOf, penaltyOf, hbase]
    rfl

/-- The latencies of the three-hop target. -/
theorem latencies_threeHops (h : Valid cfg) (ht : cfg.target = "polyglot") :
    p50Of cfg = 25800 ∧ p99Of cfg = 106800 + cfg.payloadBytes.toNat / 4096 * 12000 ∧
      cfg.payloadBytes.toNat / 4096 ≤ 256 := by
  have hpayload := h.payload_le
  have hbase : baseAndHops cfg.target = (1800, 3) := by
    rw [ht]
    rfl
  refine ⟨?_, ?_, by omega⟩
  · rw [p50Of, baseOf, hopsOf, hbase]
    rfl
  · rw [p99Of, baseOf, hopsOf, penaltyOf, hbase]
    rfl

/-- A bound on the shares is a bound on the samples. -/
theorem Figures.heldSamples_le (h : Figures cfg total r) {c : ℚ}
    (hc : ∑ i ∈ Finset.range 64, share (p50Of cfg) (p99Of cfg) i ≤ c) :
    (heldSamples r : ℚ) ≤ c * total := by
  rw [h.heldSamples_eq, mul_comm]
  exact (sum_samples_le _ _ _).trans (mul_le_mul_of_nonneg_left hc (Nat.cast_nonneg _))

theorem Figures.heldSamples_small (h : Figures cfg total r) (hv : Valid cfg)
    (hsmall : cfg.target = "polyglot" ∨ cfg.payloadBytes.toNat < 905216) :
    heldSamples r ≤ total := by
  have hshares : ∑ i ∈ Finset.range 64, share (p50Of cfg) (p99Of cfg) i ≤ 1 := by
    by_cases ht : cfg.target = "polyglot"
    · obtain ⟨h50, h99, hblocks⟩ := latencies_threeHops hv ht
      rw [h50]
      exact sum_share_threeHops _ (by omega) (by omega)
    · have hpayload := hsmall.resolve_left ht
      obtain ⟨h50, h99, hblocks⟩ := latencies_oneHop hv (hv.target.resolve_right ht)
      rw [h50]
      exact (sum_share_oneHop _ (by omega) (by omega)).2.1 (by omega)
  have hle := h.heldSamples_le hshares
  rw [one_mul] at hle
  exact_mod_cast hle

theorem Figures.heldSamples_bound (h : Figures cfg total r) (hv : Valid cfg) :
    1000 * heldSamples r ≤ 1032 * total := by
  have hshares : ∑ i ∈ Finset.range 64, share (p50Of cfg) (p99Of cfg) i ≤ 1.032 := by
    rcases hv.target with ht | ht
    · obtain ⟨h50, h99, hblocks⟩ := latencies_oneHop hv ht
      rw [h50]
      exact (sum_share_oneHop _ (by omega) (by omega)).1
    · obtain ⟨h50, h99, hblocks⟩ := latencies_threeHops hv ht
      rw [h50]
      exact (sum_share_threeHops _ (by omega) (by omega)).trans (by norm_num)
  have hle := h.heldSamples_le hshares
  have hcast : (1000 * heldSamples r : ℚ) ≤ 1032 * total := by linarith
  exact_mod_cast hcast

/-- **Too much**: with a large payload the one-hop target holds more samples than requests. -/
theorem Figures.heldSamples_large (h : Figures cfg total r) (hv : Valid cfg)
    (ht : cfg.target = "surrealdb") (hpayload : 905216 ≤ cfg.payloadBytes.toNat)
    (htotal : 100000 ≤ total) : total < heldSamples r := by
  obtain ⟨h50, h99, hblocks⟩ := latencies_oneHop hv ht
  have hshares := (sum_share_oneHop (p99Of cfg) (by omega) (by omega)).2.2 (by omega)
  have hround := le_sum_samples (p50Of cfg) (p99Of cfg) total
  rw [← h.heldSamples_eq, h50] at hround
  have htotal' : (100000 : ℚ) ≤ total := by exact_mod_cast htotal
  have hmul := mul_le_mul_of_nonneg_left hshares (Nat.cast_nonneg (α := ℚ) total)
  have hlt : (total : ℚ) < heldSamples r := by linarith
  exact_mod_cast hlt

/-- The slots of a result, in order. -/
theorem Figures.slots (h : Figures cfg total r) :
    r.histogram.Pairwise (fun a b => a.slot.toNat < b.slot.toNat) ∧
      ∀ b ∈ r.histogram, b.slot.toNat < 64 ∧ 0 < b.count.toNat := by
  constructor
  · have hpairs := histogramOf_pairwise (p50Of cfg) (p99Of cfg) total
    rw [← h.histogram, List.pairwise_map] at hpairs
    exact hpairs
  · intro b hb
    have hmem : (b.slot.toNat, b.count.toNat)
        ∈ r.histogram.map fun b => (b.slot.toNat, b.count.toNat) := List.mem_map_of_mem hb
    rw [h.histogram] at hmem
    exact mem_histogramOf _ _ _ hmem

/-- **What the synthetic histogram holds.**  In every run of a valid scenario the slots are
strictly increasing and below 64 and none is empty.  There are no more samples than requests
for the three-hop target, and for the one-hop target up to a payload of 905216 bytes; never
are there 3.3 percent more; and from that payload on, a one-hop run of 100000 requests has
more samples than requests. -/
theorem run_histogram (p : Profile) (cfg : ScenarioConfig) (hvalid : validate cfg = true)
    {total : UInt32} (htotal : requestTotal p cfg = .ok total) :
    ∃ r, run p cfg = .ok r ∧
      r.histogram.Pairwise (fun a b => a.slot.toNat < b.slot.toNat) ∧
      (∀ b ∈ r.histogram, b.slot.toNat < 64 ∧ 0 < b.count.toNat) ∧
      (cfg.target = "polyglot" ∨ cfg.payloadBytes.toNat < 905216 →
        heldSamples r ≤ total.toNat) ∧
      1000 * heldSamples r ≤ 1032 * total.toNat ∧
      (cfg.target = "surrealdb" → 905216 ≤ cfg.payloadBytes.toNat → 100000 ≤ total.toNat →
        total.toNat < heldSamples r) := by
  have hv := valid_of_validate hvalid
  obtain ⟨r, hrun, hfigures⟩ := run_figures p hvalid htotal
  exact ⟨r, hrun, hfigures.slots.1, hfigures.slots.2, hfigures.heldSamples_small hv,
    hfigures.heldSamples_bound hv, hfigures.heldSamples_large hv⟩

theorem run_histogram_small :
    ∃ r, run .dev ⟨"polyglot", 100, 1000, 4096, "mixed"⟩ = .ok r ∧ heldSamples r ≤ 100000 := by
  obtain ⟨r, hrun, -, -, hle, -⟩ := run_histogram .dev ⟨"polyglot", 100, 1000, 4096, "mixed"⟩
    (by decide) (show requestTotal _ _ = .ok 100000 from rfl)
  exact ⟨r, hrun, hle (Or.inl rfl)⟩

/-- One tenant, 100000 requests, the largest payload. -/
theorem run_histogram_exceeds :
    ¬ ∀ p cfg total r, validate cfg = true → requestTotal p cfg = .ok total →
      run p cfg = .ok r → heldSamples r ≤ total.toNat := by
  intro hall
  have hvalid : validate ⟨"surrealdb", 1, 100000, 1048576, "read"⟩ = true := by decide
  have htotal : requestTotal .dev ⟨"surrealdb", 1, 100000, 1048576, "read"⟩ = .ok 100000 := rfl
  obtain ⟨r, hrun, hfigures⟩ := run_figures .dev hvalid htotal
  have hle := hall _ _ _ r hvalid htotal hrun
  have hlt := hfigures.heldSamples_large (valid_of_validate hvalid) rfl (by decide) (by decide)
  omega

end Run

end NexusCore.Bench
