import NexusCore.Foundation.Machine

/-!
# The benchmark component

`run` turns a scenario into expected latencies, counters and a synthetic log2 histogram;
`validate` says which scenarios it computes anything for.  Integers are machine words, and an
operation on them that overflows, underflows or shifts too far is a fault where the build
checks for it.  Numbers that the code computes in floating point are exact rationals here.
-/

namespace NexusCore.Bench

open Foundation.Machine

/-- `scenario-config`. -/
structure ScenarioConfig where
  target : String
  tenantCount : UInt32
  requestsPerTenant : UInt32
  payloadBytes : UInt32
  operation : String
  deriving DecidableEq, Repr

/-- `latency-bucket`. -/
structure LatencyBucket where
  slot : UInt32
  count : UInt64
  deriving DecidableEq, Repr

/-- `bench-result`. -/
structure BenchResult where
  target : String
  p50Ns : UInt64
  p99Ns : UInt64
  p999Ns : UInt64
  throughputRps : ℚ
  contextSwitches : UInt64
  syscallCount : UInt64
  histogram : List LatencyBucket
  deriving DecidableEq, Repr

/-! ### Validation -/

/-- `validate`. -/
def validate (cfg : ScenarioConfig) : Bool :=
  if cfg.tenantCount = 0 ∨ 10000 < cfg.tenantCount then false
  else if cfg.requestsPerTenant = 0 ∨ 1000000 < cfg.requestsPerTenant then false
  else if cfg.payloadBytes < 16 ∨ 1048576 < cfg.payloadBytes then false
  else (cfg.target = "surrealdb" ∨ cfg.target = "polyglot") &&
    (cfg.operation = "read" ∨ cfg.operation = "write" ∨ cfg.operation = "mixed")

/-- What validation has checked. -/
structure Valid (cfg : ScenarioConfig) : Prop where
  tenants_pos : 0 < cfg.tenantCount.toNat
  tenants_le : cfg.tenantCount.toNat ≤ 10000
  requests_pos : 0 < cfg.requestsPerTenant.toNat
  requests_le : cfg.requestsPerTenant.toNat ≤ 1000000
  payload_ge : 16 ≤ cfg.payloadBytes.toNat
  payload_le : cfg.payloadBytes.toNat ≤ 1048576
  target : cfg.target = "surrealdb" ∨ cfg.target = "polyglot"
  operation : cfg.operation = "read" ∨ cfg.operation = "write" ∨ cfg.operation = "mixed"

theorem word_pos {a : UInt32} (h : ¬ a = 0) : 0 < a.toNat :=
  Nat.pos_of_ne_zero fun h0 => h (UInt32.toNat_inj.mp h0)

theorem valid_of_validate {cfg : ScenarioConfig} (h : validate cfg = true) : Valid cfg := by
  unfold validate at h
  by_cases htenants : cfg.tenantCount = 0 ∨ 10000 < cfg.tenantCount
  · rw [if_pos htenants] at h
    cases h
  rw [if_neg htenants] at h
  by_cases hrequests : cfg.requestsPerTenant = 0 ∨ 1000000 < cfg.requestsPerTenant
  · rw [if_pos hrequests] at h
    cases h
  rw [if_neg hrequests] at h
  by_cases hpayload : cfg.payloadBytes < 16 ∨ 1048576 < cfg.payloadBytes
  · rw [if_pos hpayload] at h
    cases h
  rw [if_neg hpayload, Bool.and_eq_true, decide_eq_true_eq, decide_eq_true_eq] at h
  obtain ⟨htenants0, htenants⟩ := not_or.mp htenants
  obtain ⟨hrequests0, hrequests⟩ := not_or.mp hrequests
  obtain ⟨hpayload16, hpayload⟩ := not_or.mp hpayload
  exact
    { tenants_pos := word_pos htenants0
      tenants_le := UInt32.le_iff_toNat_le.mp (UInt32.not_lt.mp htenants)
      requests_pos := word_pos hrequests0
      requests_le := UInt32.le_iff_toNat_le.mp (UInt32.not_lt.mp hrequests)
      payload_ge := UInt32.le_iff_toNat_le.mp (UInt32.not_lt.mp hpayload16)
      payload_le := UInt32.le_iff_toNat_le.mp (UInt32.not_lt.mp hpayload)
      target := h.1
      operation := h.2 }

/-! ### The histogram -/

/-- `x as u64`: towards zero, and the largest word for what is too large. -/
def truncU64 (x : ℚ) : UInt64 := UInt64.ofNat (min ⌊x⌋₊ (2 ^ 64 - 1))

/-- The `count` of one slot in `build_log2_histogram`. -/
def slotCount (p : Profile) (p50Ns p99Ns total : UInt64) (slot : UInt32) : Checked UInt64 := do
  let bucketStart ← p.shl64 1 slot
  let bucketEnd ← p.shl64 bucketStart 1
  if bucketEnd < p50Ns then .ok 0
  else do
    let cutoff ← p.mul64 p99Ns 4
    if cutoff ≤ bucketStart then .ok 0
    else if bucketStart < p50Ns then .ok (truncU64 (total.toNat * 0.02))
    else if bucketStart < p99Ns then do
      let range ← p.sub64 p99Ns p50Ns
      let pos ← p.sub64 bucketStart p50Ns
      let frac : ℚ := 1 - pos.toNat / range.toNat
      .ok (truncU64 (total.toNat * frac * 0.15))
    else .ok (truncU64 (total.toNat * 0.005))

/-- The loop of `build_log2_histogram` over the slots that are left. -/
def fillBuckets (p : Profile) (p50Ns p99Ns total : UInt64) :
    List UInt32 → List LatencyBucket → Checked (List LatencyBucket)
  | [], buckets => .ok buckets
  | slot :: slots, buckets => do
      let count ← slotCount p p50Ns p99Ns total slot
      fillBuckets p p50Ns p99Ns total slots
        (if 0 < count then buckets ++ [⟨slot, count⟩] else buckets)

/-- `build_log2_histogram`. -/
def buildLog2Histogram (p : Profile) (p50Ns p99Ns : UInt64) (totalRequests : UInt32) :
    Checked (List LatencyBucket) :=
  fillBuckets p p50Ns p99Ns totalRequests.toUInt64 ((List.range 64).map UInt32.ofNat) []

/-! ### The calibration model -/

/-- `(base_ns, hops)` of a target. -/
def baseAndHops (target : String) : UInt64 × UInt32 :=
  if target = "surrealdb" then (2500, 1)
  else if target = "polyglot" then (1800, 3)
  else (5000, 2)

/-- `estimated_p99`. -/
def estimatedP99 (p : Profile) (cfg : ScenarioConfig) : Checked UInt64 := do
  let hopCost ← p.mul64 (baseAndHops cfg.target).2.toUInt64 35000
  p.add64 (baseAndHops cfg.target).1 hopCost

/-- `estimated_p50`. -/
def estimatedP50 (p : Profile) (cfg : ScenarioConfig) : Checked UInt64 := do
  let hopCost ← p.mul64 (baseAndHops cfg.target).2.toUInt64 8000
  p.add64 (baseAndHops cfg.target).1 hopCost

/-- `payload_penalty`. -/
def payloadPenalty (p : Profile) (cfg : ScenarioConfig) : Checked UInt64 :=
  p.mul64 (cfg.payloadBytes.toUInt64 / 4096) 12000

/-- The request total that `run` passes to `build_log2_histogram`: a product of 32-bit words. -/
def requestTotal (p : Profile) (cfg : ScenarioConfig) : Checked UInt32 :=
  p.mul32 cfg.requestsPerTenant cfg.tenantCount

/-- `context_switches`. -/
def contextSwitches (p : Profile) (cfg : ScenarioConfig) : Checked UInt64 := do
  let hopTenants ← p.mul64 (baseAndHops cfg.target).2.toUInt64 cfg.tenantCount.toUInt64
  p.mul64 hopTenants 2

/-- `syscall_count`. -/
def syscallCount (p : Profile) (cfg : ScenarioConfig) : Checked UInt64 := do
  let hopRequests ← p.mul64 (baseAndHops cfg.target).2.toUInt64 cfg.requestsPerTenant.toUInt64
  p.mul64 hopRequests cfg.tenantCount.toUInt64

/-- `throughput`: the speedup of the tenants, bounded by the share of the hops. -/
def throughput (cfg : ScenarioConfig) : ℚ :=
  let serialFraction : ℚ := 0.05 * (baseAndHops cfg.target).2.toNat
  let maxSpeedup := 1 / (serialFraction + (1 - serialFraction) / cfg.tenantCount.toNat)
  min (45000 * maxSpeedup) 250000

/-- `run`. -/
def run (p : Profile) (cfg : ScenarioConfig) : Checked BenchResult :=
  if validate cfg = false then .ok ⟨cfg.target, 0, 0, 0, 0, 0, 0, []⟩
  else do
    let p99 ← estimatedP99 p cfg
    let p50 ← estimatedP50 p cfg
    let p999 ← p.mul64 p99 4
    let penalty ← payloadPenalty p cfg
    let adjusted ← p.add64 p99 penalty
    let total ← requestTotal p cfg
    let histogram ← buildLog2Histogram p p50 adjusted total
    let penalty6 ← p.mul64 penalty 6
    let p999 ← p.add64 p999 penalty6
    let switches ← contextSwitches p cfg
    let syscalls ← syscallCount p cfg
    .ok ⟨cfg.target, p50, adjusted, p999, throughput cfg, switches, syscalls, histogram⟩

end NexusCore.Bench
