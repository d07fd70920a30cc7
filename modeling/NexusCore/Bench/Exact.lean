import NexusCore.Bench.Model

/-!
# Where the benchmark model computes with exact integers

`Figures` says what a result holds in terms of numbers without a width: latencies, counters
and the histogram, whose slot `i` stands for the latencies from `2 ^ i` to `2 ^ (i + 1)`.
For a valid scenario every operation of `run` is exact but one, the 32-bit product of
requests and tenants (`run_figures`); `exact_iff` says for which scenarios that one is.
-/

namespace NexusCore.Bench

open Foundation.Machine

/-! ### The figures as numbers -/

def hopsOf (cfg : ScenarioConfig) : ℕ := (baseAndHops cfg.target).2.toNat

def baseOf (cfg : ScenarioConfig) : ℕ := (baseAndHops cfg.target).1.toNat

def penaltyOf (cfg : ScenarioConfig) : ℕ := cfg.payloadBytes.toNat / 4096 * 12000

def p50Of (cfg : ScenarioConfig) : ℕ := baseOf cfg + hopsOf cfg * 8000

def p99Of (cfg : ScenarioConfig) : ℕ := baseOf cfg + hopsOf cfg * 35000 + penaltyOf cfg

/-- The requests of all tenants. -/
def requestsOf (cfg : ScenarioConfig) : ℕ := cfg.requestsPerTenant.toNat * cfg.tenantCount.toNat

/-- The share of the requests that goes to slot `i`. -/
def share (p50 p99 i : ℕ) : ℚ :=
  if 2 ^ (i + 1) < p50 then 0
  else if p99 * 4 ≤ 2 ^ i then 0
  else if 2 ^ i < p50 then 0.02
  else if 2 ^ i < p99 then (1 - ((2 ^ i - p50 : ℕ) : ℚ) / ((p99 - p50 : ℕ) : ℚ)) * 0.15
  else 0.005

def samples (p50 p99 total i : ℕ) : ℕ := ⌊(total : ℚ) * share p50 p99 i⌋₊

/-- The slots that hold anything, with what they hold. -/
def histogramOf (p50 p99 total : ℕ) : List (ℕ × ℕ) :=
  (List.range 64).filterMap fun i =>
    if 0 < samples p50 p99 total i then some (i, samples p50 p99 total i) else none

/-- The integers of a result, for a request total. -/
structure Figures (cfg : ScenarioConfig) (total : ℕ) (r : BenchResult) : Prop where
  p50 : r.p50Ns.toNat = p50Of cfg
  p99 : r.p99Ns.toNat = p99Of cfg
  p999 : r.p999Ns.toNat = (baseOf cfg + hopsOf cfg * 35000) * 4 + penaltyOf cfg * 6
  switches : r.contextSwitches.toNat = hopsOf cfg * cfg.tenantCount.toNat * 2
  syscalls : r.syscallCount.toNat
    = hopsOf cfg * cfg.requestsPerTenant.toNat * cfg.tenantCount.toNat
  histogram : r.histogram.map (fun b => (b.slot.toNat, b.count.toNat))
    = histogramOf (p50Of cfg) (p99Of cfg) total

/-! ### One slot -/

theorem share_nonneg (p50 p99 i : ℕ) : 0 ≤ share p50 p99 i := by
  unfold share
  split_ifs with _ _ _ hlt
  · exact le_refl 0
  · exact le_refl 0
  · norm_num
  · have hpos : ((2 ^ i - p50 : ℕ) : ℚ) ≤ ((p99 - p50 : ℕ) : ℚ) :=
      Nat.cast_le.mpr (Nat.sub_le_sub_right (Nat.le_of_lt hlt) p50)
    have hle : ((2 ^ i - p50 : ℕ) : ℚ) / ((p99 - p50 : ℕ) : ℚ) ≤ 1 :=
      div_le_one_of_le₀ hpos (Nat.cast_nonneg _)
    exact mul_nonneg (sub_nonneg.mpr hle) (by norm_num)
  · norm_num

theorem share_le_one (p50 p99 i : ℕ) : share p50 p99 i ≤ 1 := by
  unfold share
  split_ifs
  · exact zero_le_one
  · exact zero_le_one
  · norm_num
  · have hge : 0 ≤ ((2 ^ i - p50 : ℕ) : ℚ) / ((p99 - p50 : ℕ) : ℚ) :=
      div_nonneg (Nat.cast_nonneg _) (Nat.cast_nonneg _)
    linarith
  · norm_num

/-- A slot holds no more than there is. -/
theorem samples_le (p50 p99 total i : ℕ) : samples p50 p99 total i ≤ total := by
  apply Nat.floor_le_of_le
  exact mul_le_of_le_one_right (Nat.cast_nonneg _) (share_le_one p50 p99 i)

/-- The conversion from a share of the total. -/
theorem truncU64_mul_share {p50 p99 i : ℕ} {total : UInt64} {x : ℚ}
    (hx : x = total.toNat * share p50 p99 i) :
    truncU64 x = UInt64.ofNat (samples p50 p99 total.toNat i) := by
  have hle := samples_le p50 p99 total.toNat i
  have htotal := total.toNat_lt
  rw [truncU64, hx, ← samples, Nat.min_eq_left (by omega)]

theorem samples_of_share_eq_zero {p50 p99 i : ℕ} (total : ℕ) (h : share p50 p99 i = 0) :
    samples p50 p99 total i = 0 := by
  rw [samples, h, mul_zero, Nat.floor_zero]

/-- **A slot is counted exactly.**  In the last slot the end of the bucket is shifted out of
its word; the slot is empty either way. -/
theorem slotCount_exact (p : Profile) {p50Ns p99Ns : UInt64} (total : UInt64)
    (hpos : 0 < p50Ns.toNat) (hle : p50Ns.toNat ≤ p99Ns.toNat) (hbig : p99Ns.toNat * 4 ≤ 2 ^ 63)
    {i : ℕ} (hi : i < 64) :
    slotCount p p50Ns p99Ns total (UInt32.ofNat i)
      = .ok (UInt64.ofNat (samples p50Ns.toNat p99Ns.toNat total.toNat i)) := by
  have hslot : (UInt32.ofNat i).toNat = i := by
    rw [UInt32.toNat_ofNat', Nat.mod_eq_of_lt (by omega)]
  obtain ⟨bucketStart, hstart, hstartNat⟩ := p.shl64_exact (a := 1) (n := UInt32.ofNat i)
    (by rw [hslot]; exact hi)
  obtain ⟨bucketEnd, hend, hendNat⟩ := p.shl64_exact (a := bucketStart) (n := 1) (by decide)
  obtain ⟨cutoff, hcutoff, hcutoffNat⟩ := p.mul64_exact (a := p99Ns) (b := 4)
    (show p99Ns.toNat * 4 < 2 ^ 64 by omega)
  have hpow : 2 ^ i ≤ 2 ^ 63 := Nat.pow_le_pow_right (by omega) (by omega)
  have hstartNat : bucketStart.toNat = 2 ^ i := by
    rw [hstartNat, hslot, show (1 : UInt64).toNat = 1 from rfl, one_mul,
      Nat.mod_eq_of_lt (by omega)]
  have hcutoffNat : cutoff.toNat = p99Ns.toNat * 4 := hcutoffNat
  rw [slotCount, hstart, ok_bind, hend, ok_bind]
  by_cases hlast : i = 63
  · have hendNat : bucketEnd.toNat = 0 := by
      rw [hendNat, hstartNat, hlast]
      rfl
    have hzero : share p50Ns.toNat p99Ns.toNat i = 0 := by
      have hlt := p50Ns.toNat_lt
      rw [share, if_neg (by rw [hlast]; omega), if_pos (by rw [hlast]; omega)]
    rw [if_pos (UInt64.lt_iff_toNat_lt.mpr (by omega)), samples_of_share_eq_zero _ hzero]
    rfl
  have hendNat : bucketEnd.toNat = 2 ^ (i + 1) := by
    have hsucc : 2 ^ (i + 1) ≤ 2 ^ 63 := Nat.pow_le_pow_right (by omega) (by omega)
    rw [hendNat, hstartNat, pow_succ]
    exact Nat.mod_eq_of_lt (by rw [pow_succ] at hsucc; show 2 ^ i * 2 < 2 ^ 64; omega)
  by_cases hbelow : 2 ^ (i + 1) < p50Ns.toNat
  · rw [if_pos (UInt64.lt_iff_toNat_lt.mpr (by omega)),
      samples_of_share_eq_zero _ (by rw [share, if_pos hbelow])]
    rfl
  rw [if_neg (mt UInt64.lt_iff_toNat_lt.mp (by omega)), hcutoff, ok_bind]
  by_cases habove : p99Ns.toNat * 4 ≤ 2 ^ i
  · rw [if_pos (UInt64.le_iff_toNat_le.mpr (by omega)),
      samples_of_share_eq_zero _ (by rw [share, if_neg hbelow, if_pos habove])]
    rfl
  rw [if_neg (mt UInt64.le_iff_toNat_le.mp (by omega))]
  by_cases h50 : 2 ^ i < p50Ns.toNat
  · rw [if_pos (UInt64.lt_iff_toNat_lt.mpr (by omega)), truncU64_mul_share]
    rw [share, if_neg hbelow, if_neg habove, if_pos h50]
  rw [if_neg (mt UInt64.lt_iff_toNat_lt.mp (by omega))]
  by_cases h99 : 2 ^ i < p99Ns.toNat
  · obtain ⟨range, hrange, hrangeNat⟩ := p.sub64_exact hle
    obtain ⟨pos, hposOk, hposNat⟩ := p.sub64_exact (a := bucketStart) (b := p50Ns) (by omega)
    rw [if_pos (UInt64.lt_iff_toNat_lt.mpr (by omega)), hrange, ok_bind, hposOk, ok_bind]
    show Except.ok (truncU64 (total.toNat * (1 - pos.toNat / range.toNat) * 0.15)) = _
    rw [truncU64_mul_share]
    rw [share, if_neg hbelow, if_neg habove, if_neg h50, if_pos h99, hrangeNat, hposNat,
      hstartNat, mul_assoc]
  · rw [if_neg (mt UInt64.lt_iff_toNat_lt.mp (by omega)), truncU64_mul_share]
    rw [share, if_neg hbelow, if_neg habove, if_neg h50, if_neg h99]

/-! ### The loop over the slots -/

/-- The bucket of a slot, if it holds anything. -/
def bucketOf (p50 p99 total i : ℕ) : Option LatencyBucket :=
  if 0 < samples p50 p99 total i then
    some ⟨UInt32.ofNat i, UInt64.ofNat (samples p50 p99 total i)⟩
  else none

section Loop

variable {p50Ns p99Ns total : UInt64}

theorem toNat_samples (total : UInt64) (p50 p99 i : ℕ) :
    (UInt64.ofNat (samples p50 p99 total.toNat i)).toNat = samples p50 p99 total.toNat i := by
  have hle := samples_le p50 p99 total.toNat i
  have htotal := total.toNat_lt
  rw [UInt64.toNat_ofNat', Nat.mod_eq_of_lt (by omega)]

theorem fillBuckets_exact (p : Profile) (hpos : 0 < p50Ns.toNat)
    (hle : p50Ns.toNat ≤ p99Ns.toNat) (hbig : p99Ns.toNat * 4 ≤ 2 ^ 63) (slots : List ℕ)
    (hslots : ∀ i ∈ slots, i < 64) (buckets : List LatencyBucket) :
    fillBuckets p p50Ns p99Ns total (slots.map UInt32.ofNat) buckets
      = .ok (buckets ++ slots.filterMap (bucketOf p50Ns.toNat p99Ns.toNat total.toNat)) := by
  induction slots generalizing buckets with
  | nil => rw [List.map_nil, fillBuckets, List.filterMap_nil, List.append_nil]
  | cons i slots ih =>
      have hcount := slotCount_exact p total hpos hle hbig
        (hslots i List.mem_cons_self)
      have hmore : 0 < UInt64.ofNat (samples p50Ns.toNat p99Ns.toNat total.toNat i) ↔
          0 < samples p50Ns.toNat p99Ns.toNat total.toNat i := by
        rw [UInt64.lt_iff_toNat_lt, toNat_samples]
        rfl
      rw [List.map_cons, fillBuckets, hcount, ok_bind,
        ih (fun j hj => hslots j (List.mem_cons_of_mem i hj))]
      by_cases hsome : 0 < samples p50Ns.toNat p99Ns.toNat total.toNat i
      · have hbucket : bucketOf p50Ns.toNat p99Ns.toNat total.toNat i = some _ := if_pos hsome
        rw [if_pos (hmore.mpr hsome), List.filterMap_cons_some hbucket, List.append_assoc,
          List.singleton_append]
      · have hbucket : bucketOf p50Ns.toNat p99Ns.toNat total.toNat i = none := if_neg hsome
        rw [if_neg (mt hmore.mp hsome), List.filterMap_cons_none hbucket]

/-- **The histogram holds the exact number of samples in every slot.** -/
theorem buildLog2Histogram_exact (p : Profile) (p50Ns p99Ns : UInt64) (requests : UInt32)
    (hpos : 0 < p50Ns.toNat) (hle : p50Ns.toNat ≤ p99Ns.toNat)
    (hbig : p99Ns.toNat * 4 ≤ 2 ^ 63) :
    ∃ buckets, buildLog2Histogram p p50Ns p99Ns requests = .ok buckets ∧
      buckets.map (fun b => (b.slot.toNat, b.count.toNat))
        = histogramOf p50Ns.toNat p99Ns.toNat requests.toNat := by
  have hslots : ∀ i ∈ List.range 64, i < 64 := fun i hi => List.mem_range.mp hi
  refine ⟨_, fillBuckets_exact p hpos hle hbig _ hslots [], ?_⟩
  rw [List.nil_append, UInt32.toNat_toUInt64, List.map_filterMap, histogramOf]
  apply List.filterMap_congr
  intro i hi
  by_cases hsome : 0 < samples p50Ns.toNat p99Ns.toNat requests.toNat i
  · have hcount := toNat_samples requests.toUInt64 p50Ns.toNat p99Ns.toNat i
    rw [UInt32.toNat_toUInt64] at hcount
    have hslot := hslots i hi
    rw [bucketOf, if_pos hsome, if_pos hsome, Option.map_some, hcount, UInt32.toNat_ofNat',
      Nat.mod_eq_of_lt (by omega)]
  · rw [bucketOf, if_neg hsome, if_neg hsome, Option.map_none]

end Loop

/-! ### The whole run -/

section Run

variable {cfg : ScenarioConfig}

/-- The two targets have at most three hops, and a small base. -/
theorem Valid.hops (h : Valid cfg) :
    0 < hopsOf cfg ∧ hopsOf cfg ≤ 3 ∧ baseOf cfg ≤ 2500 := by
  unfold hopsOf baseOf
  rcases h.target with ht | ht
  · rw [ht]
    decide
  · rw [ht]
    decide

theorem estimatedP99_exact (p : Profile) (h : Valid cfg) :
    ∃ w, estimatedP99 p cfg = .ok w ∧ w.toNat = baseOf cfg + hopsOf cfg * 35000 := by
  obtain ⟨-, hhops, hbase⟩ := h.hops
  obtain ⟨cost, hcost, hcostNat⟩ :=
    p.mul64_exact (a := (baseAndHops cfg.target).2.toUInt64) (b := 35000)
      (show hopsOf cfg * 35000 < 2 ^ 64 by omega)
  have hcostNat : cost.toNat = hopsOf cfg * 35000 := hcostNat
  obtain ⟨w, hw, hwNat⟩ := p.add64_exact (a := (baseAndHops cfg.target).1) (b := cost)
    (show baseOf cfg + cost.toNat < 2 ^ 64 by omega)
  refine ⟨w, ?_, ?_⟩
  · rw [estimatedP99, hcost, ok_bind, hw]
  · rw [hwNat, hcostNat, baseOf]

theorem estimatedP50_exact (p : Profile) (h : Valid cfg) :
    ∃ w, estimatedP50 p cfg = .ok w ∧ w.toNat = p50Of cfg := by
  obtain ⟨-, hhops, hbase⟩ := h.hops
  obtain ⟨cost, hcost, hcostNat⟩ :=
    p.mul64_exact (a := (baseAndHops cfg.target).2.toUInt64) (b := 8000)
      (show hopsOf cfg * 8000 < 2 ^ 64 by omega)
  have hcostNat : cost.toNat = hopsOf cfg * 8000 := hcostNat
  obtain ⟨w, hw, hwNat⟩ := p.add64_exact (a := (baseAndHops cfg.target).1) (b := cost)
    (show baseOf cfg + cost.toNat < 2 ^ 64 by omega)
  refine ⟨w, ?_, ?_⟩
  · rw [estimatedP50, hcost, ok_bind, hw]
  · rw [hwNat, hcostNat, p50Of, baseOf]

theorem penaltyOf_le (h : Valid cfg) : penaltyOf cfg ≤ 3072000 := by
  have hpayload := h.payload_le
  rw [penaltyOf]
  omega

theorem payloadPenalty_exact (p : Profile) (h : Valid cfg) :
    ∃ w, payloadPenalty p cfg = .ok w ∧ w.toNat = penaltyOf cfg := by
  have hle := penaltyOf_le h
  have hdiv : (cfg.payloadBytes.toUInt64 / 4096).toNat = cfg.payloadBytes.toNat / 4096 := by
    rw [UInt64.toNat_div, UInt32.toNat_toUInt64]
    rfl
  obtain ⟨w, hw, hwNat⟩ :=
    p.mul64_exact (a := cfg.payloadBytes.toUInt64 / 4096) (b := 12000) (by
      rw [hdiv]
      exact Nat.lt_of_le_of_lt hle (by norm_num))
  refine ⟨w, hw, ?_⟩
  rw [hwNat, hdiv]
  rfl

theorem contextSwitches_exact (p : Profile) (h : Valid cfg) :
    ∃ w, contextSwitches p cfg = .ok w ∧
      w.toNat = hopsOf cfg * cfg.tenantCount.toNat * 2 := by
  have hle : hopsOf cfg * cfg.tenantCount.toNat ≤ 3 * 10000 :=
    Nat.mul_le_mul h.hops.2.1 h.tenants_le
  obtain ⟨hopTenants, hmul, hmulNat⟩ := p.mul64_exact
    (a := (baseAndHops cfg.target).2.toUInt64) (b := cfg.tenantCount.toUInt64)
    (show hopsOf cfg * cfg.tenantCount.toNat < 2 ^ 64 by omega)
  have hmulNat : hopTenants.toNat = hopsOf cfg * cfg.tenantCount.toNat := hmulNat
  obtain ⟨w, hw, hwNat⟩ := p.mul64_exact (a := hopTenants) (b := 2)
    (show hopTenants.toNat * 2 < 2 ^ 64 by omega)
  refine ⟨w, ?_, ?_⟩
  · rw [contextSwitches, hmul, ok_bind, hw]
  · rw [hwNat, hmulNat]
    rfl

theorem syscallCount_exact (p : Profile) (h : Valid cfg) :
    ∃ w, syscallCount p cfg = .ok w ∧
      w.toNat = hopsOf cfg * cfg.requestsPerTenant.toNat * cfg.tenantCount.toNat := by
  have hle : hopsOf cfg * cfg.requestsPerTenant.toNat ≤ 3 * 1000000 :=
    Nat.mul_le_mul h.hops.2.1 h.requests_le
  obtain ⟨hopRequests, hmul, hmulNat⟩ := p.mul64_exact
    (a := (baseAndHops cfg.target).2.toUInt64) (b := cfg.requestsPerTenant.toUInt64)
    (show hopsOf cfg * cfg.requestsPerTenant.toNat < 2 ^ 64 by omega)
  have hmulNat : hopRequests.toNat = hopsOf cfg * cfg.requestsPerTenant.toNat := hmulNat
  have hall : hopRequests.toNat * cfg.tenantCount.toNat ≤ 3 * 1000000 * 10000 := by
    rw [hmulNat]
    exact Nat.mul_le_mul hle h.tenants_le
  obtain ⟨w, hw, hwNat⟩ := p.mul64_exact (a := hopRequests) (b := cfg.tenantCount.toUInt64)
    (show hopRequests.toNat * cfg.tenantCount.toNat < 2 ^ 64 by omega)
  refine ⟨w, ?_, ?_⟩
  · rw [syscallCount, hmul, ok_bind, hw]
  · rw [hwNat, hmulNat]
    rfl

/-- **Everything but the request total is exact**: with whatever total the histogram is built,
the result holds the figures for it. -/
theorem run_figures (p : Profile) (hvalid : validate cfg = true) {total : UInt32}
    (htotal : requestTotal p cfg = .ok total) :
    ∃ r, run p cfg = .ok r ∧ Figures cfg total.toNat r := by
  have h := valid_of_validate hvalid
  obtain ⟨hhops0, hhops, hbase⟩ := h.hops
  have hpenalty := penaltyOf_le h
  obtain ⟨p99, hp99, hp99Nat⟩ := estimatedP99_exact p h
  obtain ⟨p50, hp50, hp50Nat⟩ := estimatedP50_exact p h
  obtain ⟨penalty, hpen, hpenNat⟩ := payloadPenalty_exact p h
  obtain ⟨switches, hsw, hswNat⟩ := contextSwitches_exact p h
  obtain ⟨syscalls, hsc, hscNat⟩ := syscallCount_exact p h
  obtain ⟨quad, hquad, hquadNat⟩ := p.mul64_exact (a := p99) (b := 4)
    (show p99.toNat * 4 < 2 ^ 64 by omega)
  obtain ⟨adjusted, hadj, hadjNat⟩ := p.add64_exact (a := p99) (b := penalty) (by omega)
  have hadjNat : adjusted.toNat = p99Of cfg := by rw [hadjNat, hp99Nat, hpenNat, p99Of]
  have hp50Of : p50Of cfg = baseOf cfg + hopsOf cfg * 8000 := rfl
  have hp99Of : p99Of cfg = baseOf cfg + hopsOf cfg * 35000 + penaltyOf cfg := rfl
  obtain ⟨buckets, hbuckets, hhist⟩ := buildLog2Histogram_exact p p50 adjusted total
    (by omega) (by omega) (by omega)
  obtain ⟨penalty6, hpen6, hpen6Nat⟩ := p.mul64_exact (a := penalty) (b := 6)
    (show penalty.toNat * 6 < 2 ^ 64 by omega)
  have hquadNat : quad.toNat = p99.toNat * 4 := hquadNat
  have hpen6Nat : penalty6.toNat = penalty.toNat * 6 := hpen6Nat
  obtain ⟨p999, hp999, hp999Nat⟩ := p.add64_exact (a := quad) (b := penalty6) (by omega)
  refine ⟨⟨cfg.target, p50, adjusted, p999, throughput cfg, switches, syscalls, buckets⟩, ?_, ?_⟩
  · rw [run, if_neg (by rw [hvalid]; exact Bool.noConfusion)]
    simp only [hp99, hp50, hquad, hpen, hadj, htotal, hbuckets, hpen6, hp999, hsw, hsc, ok_bind]
  · exact
      { p50 := hp50Nat
        p99 := hadjNat
        p999 := by rw [hp999Nat, hquadNat, hp99Nat, hpen6Nat, hpenNat]
        switches := hswNat
        syscalls := hscNat
        histogram := by rw [hhist, hp50Nat, hadjNat] }

/-- A total that does not fit its word stops the run, where the build checks for it. -/
theorem run_error {p : Profile} (hvalid : validate cfg = true) {e : Fault}
    (htotal : requestTotal p cfg = .error e) : run p cfg = .error e := by
  have h := valid_of_validate hvalid
  obtain ⟨-, hhops, hbase⟩ := h.hops
  have hpenalty := penaltyOf_le h
  obtain ⟨p99, hp99, hp99Nat⟩ := estimatedP99_exact p h
  obtain ⟨p50, hp50, -⟩ := estimatedP50_exact p h
  obtain ⟨penalty, hpen, hpenNat⟩ := payloadPenalty_exact p h
  obtain ⟨quad, hquad, -⟩ := p.mul64_exact (a := p99) (b := 4)
    (show p99.toNat * 4 < 2 ^ 64 by omega)
  obtain ⟨adjusted, hadj, -⟩ := p.add64_exact (a := p99) (b := penalty) (by omega)
  rw [run, if_neg (by rw [hvalid]; exact Bool.noConfusion)]
  simp only [hp99, hp50, hquad, hpen, hadj, htotal, ok_bind, error_bind]

end Run

/-! ### The request total -/

/-- What is wanted of the arithmetic on a scenario: with overflow checks the run returns, the
histogram is built for all requests of all tenants, and every integer of the result is the
mathematical one.  The requests then are the system calls divided by the hops. -/
structure Exact (cfg : ScenarioConfig) : Prop where
  total : ∃ total, requestTotal .dev cfg = .ok total ∧ total.toNat = requestsOf cfg
  run : ∃ r, run .dev cfg = .ok r ∧ Figures cfg (requestsOf cfg) r ∧
    r.syscallCount.toNat / hopsOf cfg = requestsOf cfg

/-- **The arithmetic is exact for exactly the valid scenarios with fewer than `2 ^ 32` requests
in all.** -/
theorem exact_iff (cfg : ScenarioConfig) (hvalid : validate cfg = true) :
    Exact cfg ↔ cfg.requestsPerTenant.toNat * cfg.tenantCount.toNat < 2 ^ 32 := by
  constructor
  · intro h
    obtain ⟨total, -, htotal⟩ := h.total
    have hlt := total.toNat_lt
    rwa [htotal] at hlt
  · intro hlt
    have htotal : requestTotal .dev cfg = .ok (cfg.requestsPerTenant * cfg.tenantCount) :=
      Profile.mul32_of_lt hlt
    have htotalNat : (cfg.requestsPerTenant * cfg.tenantCount).toNat = requestsOf cfg :=
      toNat_mul32_of_lt hlt
    obtain ⟨r, hrun, hfigures⟩ := run_figures .dev hvalid htotal
    rw [htotalNat] at hfigures
    refine ⟨⟨_, htotal, htotalNat⟩, r, hrun, hfigures, ?_⟩
    have hhops := (valid_of_validate hvalid).hops.1
    rw [hfigures.syscalls, Nat.mul_assoc, Nat.mul_div_cancel_left _ hhops]
    rfl

theorem exact_iff_small :
    Exact ⟨"surrealdb", 100, 1000, 4096, "mixed"⟩ ↔ 1000 * 100 < 2 ^ 32 :=
  exact_iff ⟨"surrealdb", 100, 1000, 4096, "mixed"⟩ (by decide)

/-- The most tenants with the most requests: a checked build stops, and an unchecked one
builds the histogram for 1410065408 requests of 10000000000. -/
theorem not_exact_largest :
    validate ⟨"surrealdb", 10000, 1000000, 16, "read"⟩ = true ∧
      run .dev ⟨"surrealdb", 10000, 1000000, 16, "read"⟩ = .error .overflow ∧
      requestTotal .release ⟨"surrealdb", 10000, 1000000, 16, "read"⟩ = .ok 1410065408 ∧
      ¬ ∀ cfg, validate cfg = true → Exact cfg := by
  have hvalid : validate ⟨"surrealdb", 10000, 1000000, 16, "read"⟩ = true := by decide
  have hrun : run .dev ⟨"surrealdb", 10000, 1000000, 16, "read"⟩ = .error .overflow :=
    run_error hvalid rfl
  refine ⟨hvalid, hrun, rfl, ?_⟩
  intro hall
  obtain ⟨r, hok, -⟩ := (hall _ hvalid).run
  rw [hrun] at hok
  cases hok

end NexusCore.Bench
