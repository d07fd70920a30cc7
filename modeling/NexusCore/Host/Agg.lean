import NexusCore.Foundation.CappedLog

/-!
# The metrics of the Day 3 host

`Agg` is what the host measures: the latest latencies, the times at which the tenant slots were
last active, and counters.  The worker calls `recordQuery` for each query; `metricsJson` calls
`pruneSlots` and `rollQpsWindow`.  All of them hold the mutex, so a run is a sequence of calls.

`World` has the counts of the closed windows besides.  `run_measures` says that no query is
lost or counted twice, and which latencies are kept.
-/

namespace NexusCore.Host

open Foundation.CappedLog

/-! ### The calls -/

/-- Nanoseconds on the monotonic clock. -/
abbrev Instant := ℤ

def tenantPool : UInt32 := 256

def latSamplesCap : ℕ := 12288

/-- `Duration::from_secs(1)`. -/
def second : ℤ := 1000000000

/-- The counters wrap, as they do in a release build.  The mean is in exact arithmetic: a rational
number where the source rounds every step to an `f64`. -/
structure Agg where
  latNs : List UInt64
  slotLast : UInt8 → Option Instant
  queriesTotal : UInt64
  qpsWindowStart : Instant
  qpsWindowCount : UInt64
  lastMeanDocs : ℚ

/-- `Agg::default`, at a time. -/
def Agg.init (start : Instant) : Agg := ⟨[], fun _ => none, 0, start, 0, 0⟩

/-- `tenant_id % TENANT_POOL` as a byte. -/
def slotOf (tenantId : UInt32) : UInt8 := (tenantId % tenantPool).toUInt8

/-- `Agg::record_query`, at a time; the mean exactly. -/
def Agg.recordQuery (a : Agg) (tenantId : UInt32) (latNs docsReturned : UInt64) (now : Instant) :
    Agg :=
  let kept :=
    if latSamplesCap ≤ a.latNs.length then a.latNs.drop (a.latNs.length / 4) else a.latNs
  let alpha : ℚ := 5 / 100
  { a with
    latNs := kept ++ [latNs]
    slotLast := Function.update a.slotLast (slotOf tenantId) (some now)
    queriesTotal := a.queriesTotal + 1
    qpsWindowCount := a.qpsWindowCount + 1
    lastMeanDocs := a.lastMeanDocs * (1 - alpha) + docsReturned.toNat * alpha }

/-- `Agg::prune_slots`, at a time. -/
def Agg.pruneSlots (a : Agg) (now : Instant) : Agg :=
  let cutoff := now - second
  { a with slotLast := fun slot => (a.slotLast slot).filter fun t => cutoff < t }

/-- The seconds since the window began, a millisecond at least. -/
def Agg.elapsed (a : Agg) (now : Instant) : ℚ :=
  max ((max (now - a.qpsWindowStart) 0 : ℤ) / second) (1 / 1000)

/-- `Agg::roll_qps_window`, at a time. -/
def Agg.rollQpsWindow (a : Agg) (now : Instant) : ℚ × Agg :=
  let elapsed := a.elapsed now
  if 1 ≤ elapsed then
    (a.qpsWindowCount.toNat / elapsed, { a with qpsWindowStart := now, qpsWindowCount := 0 })
  else (a.qpsWindowCount.toNat / elapsed, a)

/-! ### Runs -/

inductive Call
  | recordQuery (tenantId : UInt32) (latNs docsReturned : UInt64) (now : Instant)
  | pruneSlots (now : Instant)
  | rollQpsWindow (now : Instant)

def Call.now : Call → Instant
  | .recordQuery _ _ _ now => now
  | .pruneSlots now => now
  | .rollQpsWindow now => now

/-- What `metrics_json` calls, one after the other. -/
def metricsJson (now now' : Instant) : List Call := [.pruneSlots now, .rollQpsWindow now']

/-- A recorded query. -/
structure Query where
  tenantId : UInt32
  latNs : UInt64
  now : Instant
  deriving DecidableEq, Repr

def Call.query : Call → Option Query
  | .recordQuery tenantId latNs _ now => some ⟨tenantId, latNs, now⟩
  | _ => none

/-- The queries of a run. -/
def queries (calls : List Call) : List Query := calls.filterMap Call.query

/-- The measurements, and the counts of the windows that have been closed. -/
structure World where
  agg : Agg
  closed : List UInt64

def World.init (start : Instant) : World := ⟨Agg.init start, []⟩

def World.step (w : World) : Call → World
  | .recordQuery tenantId latNs docsReturned now =>
      { w with agg := w.agg.recordQuery tenantId latNs docsReturned now }
  | .pruneSlots now => { w with agg := w.agg.pruneSlots now }
  | .rollQpsWindow now =>
      { agg := (w.agg.rollQpsWindow now).2
        closed := if 1 ≤ w.agg.elapsed now then w.closed ++ [w.agg.qpsWindowCount] else w.closed }

/-- The calls one after the other. -/
def World.run (start : Instant) (calls : List Call) : World :=
  calls.foldl World.step (World.init start)

variable {start : Instant} {w : World}

theorem run_concat (start : Instant) (calls : List Call) (c : Call) :
    World.run start (calls ++ [c]) = (World.run start calls).step c :=
  List.foldl_concat _ _ _ _

theorem queries_concat (calls : List Call) (c : Call) :
    queries (calls ++ [c]) = queries calls ++ c.query.toList := by
  rw [queries, List.filterMap_append]
  cases c <;> rfl

theorem queries_pruneSlots (calls : List Call) (now : Instant) :
    queries (calls ++ [Call.pruneSlots now]) = queries calls := by
  rw [queries_concat]
  exact List.append_nil _

theorem queries_rollQpsWindow (calls : List Call) (now : Instant) :
    queries (calls ++ [Call.rollQpsWindow now]) = queries calls := by
  rw [queries_concat]
  exact List.append_nil _

/-- A roll closes the window or leaves everything alone. -/
theorem step_roll (w : World) (now : Instant) :
    w.step (.rollQpsWindow now) = w ∨
      w.step (.rollQpsWindow now) =
        { agg := { w.agg with qpsWindowStart := now, qpsWindowCount := 0 }
          closed := w.closed ++ [w.agg.qpsWindowCount] } := by
  rw [World.step, Agg.rollQpsWindow]
  by_cases helapsed : 1 ≤ w.agg.elapsed now
  · rw [if_pos helapsed, if_pos helapsed]
    exact Or.inr rfl
  · rw [if_neg helapsed, if_neg helapsed]
    exact Or.inl rfl

/-! ### The counters and the latencies -/

/-- The queries of the closed windows. -/
def World.closedQueries (w : World) : ℕ := (w.closed.map UInt64.toNat).sum

/-- What the measurements say about the queries recorded. -/
structure Measures (w : World) (qs : List Query) : Prop where
  total : w.agg.queriesTotal = UInt64.ofNat qs.length
  windows : UInt64.ofNat w.closedQueries + w.agg.qpsWindowCount = w.agg.queriesTotal
  /-- as long as the numbers fit, none of them wraps -/
  exact : qs.length < 2 ^ 64 → w.agg.queriesTotal.toNat = qs.length ∧
    w.closedQueries + w.agg.qpsWindowCount.toNat = qs.length
  suffix : w.agg.latNs <:+ qs.map Query.latNs
  short : qs.length ≤ 12288 → w.agg.latNs.length = qs.length
  long : 12288 < qs.length → 9217 ≤ w.agg.latNs.length ∧ w.agg.latNs.length ≤ 12288

theorem closedQueries_close (w : World) (now : Instant) :
    World.closedQueries
        { agg := { w.agg with qpsWindowStart := now, qpsWindowCount := 0 }
          closed := w.closed ++ [w.agg.qpsWindowCount] }
      = w.closedQueries + w.agg.qpsWindowCount.toNat := by
  rw [World.closedQueries, List.map_append, List.sum_append]
  rfl

theorem total_run (start : Instant) (calls : List Call) :
    (World.run start calls).agg.queriesTotal = UInt64.ofNat (queries calls).length := by
  induction calls using List.reverseRecOn with
  | nil => rfl
  | append_singleton calls c ih =>
      rw [run_concat, queries_concat, List.length_append]
      cases c with
      | recordQuery tenantId latNs docsReturned now =>
          show (World.run start calls).agg.queriesTotal + 1 = UInt64.ofNat (_ + 1)
          rw [ih, UInt64.ofNat_add]
          rfl
      | pruneSlots now => exact ih
      | rollQpsWindow now =>
          rcases step_roll (World.run start calls) now with hstep | hstep
          · rw [hstep]
            exact ih
          · rw [hstep]
            exact ih

theorem windows_run (start : Instant) (calls : List Call) :
    UInt64.ofNat (World.run start calls).closedQueries
        + (World.run start calls).agg.qpsWindowCount
      = (World.run start calls).agg.queriesTotal := by
  induction calls using List.reverseRecOn with
  | nil => rfl
  | append_singleton calls c ih =>
      rw [run_concat]
      cases c with
      | recordQuery tenantId latNs docsReturned now =>
          show UInt64.ofNat (World.run start calls).closedQueries
              + ((World.run start calls).agg.qpsWindowCount + 1)
            = (World.run start calls).agg.queriesTotal + 1
          rw [← UInt64.add_assoc, ih]
      | pruneSlots now => exact ih
      | rollQpsWindow now =>
          rcases step_roll (World.run start calls) now with hstep | hstep
          · rw [hstep]
            exact ih
          · rw [hstep, closedQueries_close]
            show UInt64.ofNat (_ + _) + 0 = (World.run start calls).agg.queriesTotal
            rw [UInt64.ofNat_add, UInt64.ofNat_toNat, UInt64.add_zero]
            exact ih

/-- While fewer queries were recorded than a counter has values, the windows add up. -/
theorem windows_exact (start : Instant) (calls : List Call)
    (hfits : (queries calls).length < 2 ^ 64) :
    (World.run start calls).closedQueries + (World.run start calls).agg.qpsWindowCount.toNat
      = (queries calls).length := by
  induction calls using List.reverseRecOn with
  | nil => rfl
  | append_singleton calls c ih =>
      rw [queries_concat, List.length_append] at hfits
      have hprev := ih (by omega)
      rw [run_concat, queries_concat, List.length_append]
      cases c with
      | recordQuery tenantId latNs docsReturned now =>
          show (World.run start calls).closedQueries
              + ((World.run start calls).agg.qpsWindowCount + 1).toNat
            = (queries calls).length + 1
          have hlt : (queries calls).length + 1 < 2 ^ 64 := hfits
          rw [UInt64.toNat_add, UInt64.toNat_one, Nat.mod_eq_of_lt (by omega), ← hprev,
            Nat.add_assoc]
      | pruneSlots now => exact hprev
      | rollQpsWindow now =>
          rcases step_roll (World.run start calls) now with hstep | hstep
          · rw [hstep]
            exact hprev
          · rw [hstep, closedQueries_close]
            exact hprev

/-- **The latencies** are kept as a log that drops its oldest quarter when it is full. -/
theorem keeps_run (start : Instant) (calls : List Call) :
    Keeps latSamplesCap (· / 4) (World.run start calls).agg.latNs
      ((queries calls).map Query.latNs) := by
  induction calls using List.reverseRecOn with
  | nil => exact Keeps.nil _ _
  | append_singleton calls c ih =>
      rw [run_concat]
      cases c with
      | recordQuery tenantId latNs docsReturned now =>
          rw [queries_concat, List.map_append]
          exact ih.push (by decide) (by decide) latNs
      | pruneSlots now =>
          rw [queries_pruneSlots]
          exact ih
      | rollQpsWindow now =>
          rw [queries_rollQpsWindow]
          rcases step_roll (World.run start calls) now with hstep | hstep
          · rw [hstep]
            exact ih
          · rw [hstep]
            exact ih

/-- **The counts and the latency window are true over any run**, whatever the order of the calls
is and whatever the clock says. -/
theorem run_measures (start : Instant) (calls : List Call) :
    Measures (World.run start calls) (queries calls) := by
  have hkeeps := keeps_run start calls
  have hlength : ((queries calls).map Query.latNs).length = (queries calls).length :=
    List.length_map _
  refine ⟨total_run start calls, windows_run start calls, ?_, hkeeps.suffix, ?_, ?_⟩
  · intro hfits
    refine ⟨?_, windows_exact start calls hfits⟩
    rw [total_run, UInt64.toNat_ofNat_of_lt' hfits]
  · intro hshort
    rw [hkeeps.whole (by rwa [hlength]), hlength]
  · intro hlong
    exact ⟨hkeeps.least (by rwa [hlength]), hkeeps.most⟩

end NexusCore.Host
