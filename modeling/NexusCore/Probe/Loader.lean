import NexusCore.Foundation.Rounding
import NexusCore.Probe.Model

/-!
# The loader's histogram reports

Every five seconds `reportHistogram` reads each per-CPU histogram slot by slot, adds the
counters of a slot over the CPUs, and derives three percentiles from the sums.

`Lookup` is a parameter: it delivers the slices of a slot, one for each CPU, or an error.  A
Go map is the list of its entries, and the order in which `range` visits them is a parameter,
too.  So is `midpoint`, the float that `math.Pow(2, slot + 0.5)` returns, cut to an integer, and
the rounding of the quotients that are compared with the targets.
-/

namespace NexusCore.Probe

open Foundation

/-- What one `Lookup` of a per-CPU array delivers. -/
abbrev PerCPUValues := List (List UInt64)

abbrev Lookup := UInt32 → Option PerCPUValues

/-- The entries of a `map[uint32]uint64`. -/
abbrev BucketMap := List (UInt32 × UInt64)

/-- The time stamp is kept as the text it is printed as. -/
structure HistogramReport where
  timestamp : String
  stack : String
  operation : String
  p50NS : UInt64
  p99NS : UInt64
  p999NS : UInt64
  totalCount : UInt64
  buckets : BucketMap
  deriving DecidableEq, Repr

/-- The slots both loops go over. -/
def slotsFrom (first count : ℕ) : List UInt32 := (List.range' first count).map UInt32.ofNat

/-! ### Percentiles -/

def targets : List ℚ := [1 / 2, 99 / 100, 999 / 1000]

/-- The count of a slot, zero when the map has no entry. -/
def bucketAt (buckets : BucketMap) (slot : UInt32) : UInt64 := (buckets.lookup slot).getD 0

/-- `float64(cum)/float64(total) >= target`. -/
def Reaches (r : Rounding) (cum total : UInt64) (target : ℚ) : Prop :=
  r.round target ≤ r.round (r.round cum.toNat / r.round total.toNat)

instance (r : Rounding) (cum total : UInt64) : DecidablePred (Reaches r cum total) := fun _ =>
  inferInstanceAs (Decidable (_ ≤ _))

/-- The inner loop.  `todo` are the targets from `idx` on, and `results` the entries before
`idx`; those after it are still zero. -/
def fillReached (r : Rounding) (mid cum total : UInt64) :
    List ℚ → List UInt64 → List ℚ × List UInt64
  | [], results => ([], results)
  | target :: todo, results =>
      if Reaches r cum total target then fillReached r mid cum total todo (results ++ [mid])
      else (target :: todo, results)

/-- The outer loop, which ends with the last slot or the last target. -/
def scanSlots (r : Rounding) (midpoint : UInt32 → UInt64) (buckets : BucketMap) (total : UInt64) :
    List UInt32 → UInt64 → List ℚ → List UInt64 → List UInt64
  | [], _, _, results => results
  | _ :: _, _, [], results => results
  | slot :: slots, cum, target :: todo, results =>
      let cum := cum + bucketAt buckets slot
      let filled := fillReached r (midpoint slot) cum total (target :: todo) results
      scanSlots r midpoint buckets total slots cum filled.1 filled.2

structure Percentiles where
  p50 : UInt64
  p99 : UInt64
  p999 : UInt64
  total : UInt64
  deriving DecidableEq, Repr

/-- The sum over the entries as `range` visits them. -/
def totalOf (entries : BucketMap) : UInt64 := entries.foldl (fun total e => total + e.2) 0

def computePercentiles (r : Rounding) (midpoint : UInt32 → UInt64)
    (range : BucketMap → BucketMap) (buckets : BucketMap) : Percentiles :=
  let total := totalOf (range buckets)
  if total = 0 then ⟨0, 0, 0, 0⟩ else
    let results := scanSlots r midpoint buckets total (slotsFrom 0 64) 0 targets []
    ⟨results.getD 0 0, results.getD 1 0, results.getD 2 0, total⟩

/-! ### Reports -/

/-- The sum over the CPUs; an empty slice is passed over. -/
def sumCPUs (perCPUValues : PerCPUValues) : UInt64 :=
  perCPUValues.foldl (fun sum cpuVal =>
    match cpuVal with
    | [] => sum
    | v :: _ => sum + v) 0

/-- The slots with a count; a failed `Lookup` ends the loop. -/
def combineSlots (lookup : Lookup) : List UInt32 → BucketMap
  | [] => []
  | slot :: slots =>
      match lookup slot with
      | none => []
      | some perCPUValues =>
          let sum := sumCPUs perCPUValues
          if 0 < sum then (slot, sum) :: combineSlots lookup slots else combineSlots lookup slots

/-- The report, or `none` when nothing has been counted and nothing is printed. -/
def reportHistogram (r : Rounding) (midpoint : UInt32 → UInt64) (range : BucketMap → BucketMap)
    (now : String) (stack op : String) (lookup : Lookup) : Option HistogramReport :=
  let combined := combineSlots lookup (slotsFrom 0 64)
  if combined = [] then none else
    let p := computePercentiles r midpoint range combined
    some ⟨now, stack, op, p.p50, p.p99, p.p999, p.total, combined⟩

end NexusCore.Probe
