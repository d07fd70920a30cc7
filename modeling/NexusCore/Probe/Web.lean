import NexusCore.Foundation.KeyedTable
import NexusCore.Probe.Dashboard

/-!
# The web dashboard

`ingestHistogram` puts a report in the place of the one with the same stack and operation, or
at the end of the list.  The handler holds the write lock, so a list is always the result of a
sequence of requests, `ingestAll`, from the list that the server starts with.

The list is a keyed table (`ingestHistogram_eq_upsert`), and `ingestAll_lastWriteWins` says
what becomes of it.  The page makes the id of a chart from the place of its report, and
`chartIds_isPrefix` says that the ids stay.
-/

namespace NexusCore.Probe.Dashboard

open Foundation.KeyedTable

/-! ### The list of reports -/

/-- The handler, under the write lock. -/
def ingestHistogram (list : List HistogramReport) (report : HistogramReport) :
    List HistogramReport :=
  match list.findIdx? fun r => r.stack == report.stack && r.op == report.op with
  | some i => list.set i report
  | none => list ++ [report]

/-- The requests, in the order in which they get the lock. -/
def ingestAll (list : List HistogramReport) (reports : List HistogramReport) :
    List HistogramReport :=
  reports.foldl ingestHistogram list

/-- The insertions into the map of the buckets. -/
def bucketsOf (entries : List (String × UInt64)) : String → Option UInt64 :=
  entries.foldl (fun buckets kv => Function.update buckets kv.1 (some kv.2)) fun _ => none

/-- What the server starts with; `now` is the time in the form of RFC 3339. -/
def lessonDefaultHistograms (now : String) : List HistogramReport :=
  [{ ts := now
     stack := "surrealdb"
     op := "vfs_read"
     p50Ns := 18432
     p99Ns := 72800
     p999Ns := 215000
     totalCount := 50000
     buckets := bucketsOf [("14", 120), ("15", 8200), ("16", 22000), ("17", 12000), ("18", 5000),
       ("19", 2000), ("20", 680)] },
   { ts := now
     stack := "polyglot"
     op := "vfs_read"
     p50Ns := 22100
     p99Ns := 91000
     p999Ns := 280000
     totalCount := 42000
     buckets := bucketsOf [("15", 400), ("16", 6000), ("17", 18000), ("18", 9000), ("19", 6000),
       ("20", 2800)] },
   { ts := now
     stack := "combined"
     op := "tcp_sendmsg"
     p50Ns := 9500
     p99Ns := 45200
     p999Ns := 132000
     totalCount := 31000
     buckets := bucketsOf [("13", 200), ("14", 5000), ("15", 12000), ("16", 8000), ("17", 3500),
       ("18", 2300)] }]

/-- The id of the chart at a place of the list. -/
def chartId (i : ℕ) (h : HistogramReport) : String := h.stack ++ "-" ++ h.op ++ "-" ++ toString i

/-- The ids that the page gives to the charts. -/
def chartIds (list : List HistogramReport) : List String := list.mapIdx chartId

/-! ### The list is a keyed table -/

/-- What tells the reports of a list apart. -/
def reportKey (r : HistogramReport) : String × String := (r.stack, r.op)

theorem lessonDefaultHistograms_distinct (now : String) :
    Distinct reportKey (lessonDefaultHistograms now) := by
  show [("surrealdb", "vfs_read"), ("polyglot", "vfs_read"), ("combined", "tcp_sendmsg")].Nodup
  decide

theorem ingestHistogram_eq_upsert (list : List HistogramReport) (report : HistogramReport) :
    ingestHistogram list report = upsert reportKey list report := by
  have hsame : (fun r : HistogramReport => r.stack == report.stack && r.op == report.op)
      = fun r => decide (reportKey r = reportKey report) := by
    funext r
    rw [Bool.eq_iff_iff, Bool.and_eq_true, beq_iff_eq, beq_iff_eq, decide_eq_true_iff]
    exact Prod.mk.injEq _ _ _ _ ▸ Iff.rfl
  rw [ingestHistogram, hsame]
  rfl

theorem ingestAll_eq_replay (list reports : List HistogramReport) :
    ingestAll list reports = replay reportKey list reports := by
  have hstep : ingestHistogram = upsert reportKey := by
    funext list report
    exact ingestHistogram_eq_upsert list report
  rw [ingestAll, hstep, replay]

/-! ### Runs -/

variable {initial : List HistogramReport}

theorem ingestAll_append (initial before after : List HistogramReport) :
    ingestAll initial (before ++ after) = ingestAll (ingestAll initial before) after :=
  List.foldl_append

/-- The keys of a list are those of any later one, with new ones after them. -/
theorem keys_isPrefix (initial before after : List HistogramReport) :
    (ingestAll initial before).map reportKey
      <+: (ingestAll initial (before ++ after)).map reportKey := by
  rw [ingestAll_append, ingestAll_eq_replay _ after, keys_replay]
  exact List.prefix_append _ _

/-- **The page keeps its charts**: an id stays with its stack and operation. -/
theorem chartIds_isPrefix (initial before after : List HistogramReport) :
    chartIds (ingestAll initial before) <+: chartIds (ingestAll initial (before ++ after)) := by
  have hids : ∀ list, chartIds list
      = (list.map reportKey).mapIdx fun i k => k.1 ++ "-" ++ k.2 ++ "-" ++ toString i := by
    intro list
    apply List.ext_getElem?
    intro i
    rw [chartIds, List.getElem?_mapIdx, List.getElem?_mapIdx, List.getElem?_map, Option.map_map]
    rfl
  obtain ⟨new, hnew⟩ := keys_isPrefix initial before after
  rw [hids, hids, ← hnew, List.mapIdx_append]
  exact List.prefix_append _ _

/-- **Last write wins.**  From a list with distinct keys, whatever the requests are:

* the keys are distinct;
* the report of a key is the last one ingested for it, or else the one it had at first;
* a report stays in its place, unless a later one for its key takes it;
* new keys are appended in the order of their first reports;
* the result is the same for requests in another order, if those for one key keep theirs
  and the keys come for the first time in the same order. -/
theorem ingestAll_lastWriteWins (hinitial : Distinct reportKey initial)
    (reports : List HistogramReport) :
    Distinct reportKey (ingestAll initial reports) ∧
    (∀ k, entry reportKey (ingestAll initial reports) k
      = (latest reportKey reports k).or (entry reportKey initial k)) ∧
    (∀ before after : List HistogramReport, reports = before ++ after →
      ∀ (i : ℕ) (r : HistogramReport), (ingestAll initial before)[i]? = some r →
        (ingestAll initial reports)[i]?
          = some ((latest reportKey after (reportKey r)).getD r)) ∧
    (ingestAll initial reports).map reportKey
      = initial.map reportKey ++ newKeys reportKey initial reports ∧
    ∀ reports', (∀ k, (reports'.filter fun r => reportKey r = k)
        = reports.filter fun r => reportKey r = k) →
      firstKeys reportKey reports' = firstKeys reportKey reports →
      ingestAll initial reports' = ingestAll initial reports := by
  refine ⟨?_, ?_, ?_, ?_, ?_⟩
  · rw [ingestAll_eq_replay]
    exact distinct_replay hinitial reports
  · intro k
    rw [ingestAll_eq_replay]
    exact entry_replay reportKey initial reports k
  · rintro before after rfl i r hr
    have hbefore : Distinct reportKey (ingestAll initial before) := by
      rw [ingestAll_eq_replay]
      exact distinct_replay hinitial before
    rw [ingestAll_append, ingestAll_eq_replay _ after]
    exact getElem?_replay hbefore after hr
  · rw [ingestAll_eq_replay]
    exact keys_replay reportKey initial reports
  · intro reports' hsame hfirst
    rw [ingestAll_eq_replay, ingestAll_eq_replay]
    refine replay_congr hinitial (fun k => ?_) hfirst
    rw [latest, latest, hsame k]

/-- A report that the probe could have made. -/
def sampleReport (ts stack op : String) : HistogramReport :=
  ⟨ts, stack, op, 1024, 4096, 8192, 10, bucketsOf [("10", 10)]⟩

theorem ingestAll_lesson :
    (ingestAll (lessonDefaultHistograms "t0") [sampleReport "t1" "surrealdb" "tcp_sendmsg",
        sampleReport "t2" "polyglot" "vfs_read", sampleReport "t3" "surrealdb" "tcp_sendmsg"]).map
        reportKey
      = [("surrealdb", "vfs_read"), ("polyglot", "vfs_read"), ("combined", "tcp_sendmsg"),
          ("surrealdb", "tcp_sendmsg")] :=
  (ingestAll_lastWriteWins (lessonDefaultHistograms_distinct "t0") _).2.2.2.1.trans (by decide)

end NexusCore.Probe.Dashboard
