import NexusCore.Foundation.Smoothing
import NexusCore.Blob.Generated
import NexusCore.Host.Agg

/-!
# The Day 3 host as a whole

The ingest task draws queries and sends them over a channel with room for 8192 of them; the worker
takes one after the other, runs `bfs_posts` and records it; `metrics_json` reads the measurements.
A query that panics ends the worker, and the channel with it: from then on every `send` fails, and
the ingest task does not look.

A `Pipeline` is the state of all three, and an `Event` what one of them does between two points at
which another may come in.  `sent`, `answered` and `rates` are kept for the statements only.
-/

namespace NexusCore.Host

open Blob Foundation.Loop Foundation.Machine Foundation.Smoothing

/-! ### The tasks and the channel -/

structure QueryTask where
  tenantId : UInt32
  rootNodeId : UInt32
  maxDepth : UInt8
  deriving DecidableEq, Repr

/-- The size of the channel. -/
def queueCap : ℕ := 8192

def maxResultsPerQuery : UInt32 := 64

/-- The greatest root that is drawn. -/
def maxRoot : Option GraphEngine → UInt32
  | none => 0
  | some g => max g.nNodes 1 - 1

/-- What `gen_range` may draw. -/
def Drawn (graph : Option GraphEngine) (task : QueryTask) : Prop :=
  task.tenantId < 50000 ∧ task.rootNodeId ≤ maxRoot graph ∧ 1 ≤ task.maxDepth ∧ task.maxDepth ≤ 4

instance (graph : Option GraphEngine) : DecidablePred (Drawn graph) := fun task =>
  inferInstanceAs (Decidable (task.tenantId < 50000 ∧ _ ∧ _ ∧ _))

/-- `waiting` is a task whose `send` has found no room yet, `inHand` the one that the worker has
received, and `alive` tells whether the worker still runs.  `avgQpsSmoothed` is in exact arithmetic:
a rational number where the source rounds every step to an `f64`. -/
structure Pipeline where
  waiting : Option QueryTask
  queue : List QueryTask
  inHand : Option QueryTask
  alive : Bool
  metrics : World
  avgQpsSmoothed : ℚ
  sent : List QueryTask
  answered : List (QueryTask × ℕ)
  rates : List ℚ

def Pipeline.init (start : Instant) : Pipeline :=
  ⟨none, [], none, true, World.init start, 0, [], [], []⟩

inductive Event
  | send (task : QueryTask)
  /-- the `send` that waits finds room -/
  | resume
  | recv
  | answer (latNs : UInt64) (now : Instant)
  | poll (now now' : Instant)

/-- The query of the worker. -/
def query (p : Profile) (g : GraphEngine) (task : QueryTask) : Checked (List (List UInt8)) :=
  bfsPosts p g task.rootNodeId (min task.maxDepth 8) maxResultsPerQuery

def Pipeline.send (h : Pipeline) (task : QueryTask) : Pipeline :=
  if h.alive then
    if h.queue.length < queueCap then
      { h with queue := h.queue ++ [task], sent := h.sent ++ [task] }
    else { h with waiting := some task, sent := h.sent ++ [task] }
  else h

def Pipeline.record (h : Pipeline) (task : QueryTask) (latNs : UInt64) (docs : ℕ)
    (now : Instant) : Pipeline :=
  { h with
    inHand := none
    metrics := h.metrics.step (.recordQuery task.tenantId latNs (UInt64.ofNat docs) now)
    answered := h.answered ++ [(task, docs)] }

/-- The worker panics: its task is dropped, the channel closes, and a waiting `send` fails. -/
def Pipeline.die (h : Pipeline) : Pipeline :=
  { h with waiting := none, queue := [], inHand := none, alive := false }

def Pipeline.answer (p : Profile) (graph : Option GraphEngine) (h : Pipeline) (task : QueryTask)
    (latNs : UInt64) (now : Instant) : Pipeline :=
  match graph with
  | none => h.record task 0 0 now
  | some g =>
      match query p g task with
      | .ok docs => h.record task latNs docs.length now
      | .error _ => h.die

/-- `metrics_json`, under the lock; the smoothed rate exactly. -/
def Pipeline.poll (h : Pipeline) (now now' : Instant) : Pipeline :=
  let pruned := h.metrics.step (.pruneSlots now)
  let rawQps := (pruned.agg.rollQpsWindow now').1
  { h with
    metrics := pruned.step (.rollQpsWindow now')
    avgQpsSmoothed := h.avgQpsSmoothed * (7 / 10) + rawQps * (3 / 10)
    rates := h.rates ++ [rawQps] }

def Pipeline.step (p : Profile) (graph : Option GraphEngine) (h : Pipeline) : Event →
    Option Pipeline
  | .send task =>
      if Drawn graph task ∧ h.waiting = none then some (h.send task) else none
  | .resume =>
      match h.waiting with
      | none => none
      | some task =>
          if h.queue.length < queueCap then
            some { h with waiting := none, queue := h.queue ++ [task] }
          else none
  | .recv =>
      match h.inHand, h.queue with
      | none, task :: queue => some { h with inHand := some task, queue := queue }
      | _, _ => none
  | .answer latNs now =>
      match h.inHand with
      | none => none
      | some task => some (h.answer p graph task latNs now)
  | .poll now now' => some (h.poll now now')

variable {p : Profile} {g : GraphEngine} {graph : Option GraphEngine} {limit : UInt32}
  {start : Instant} {h h' : Pipeline} {task : QueryTask}

/-- **What an event does.** -/
theorem Pipeline.step_cases {event : Event} (hstep : h.step p graph event = some h') :
    (∃ task, event = .send task ∧ Drawn graph task ∧ h.waiting = none ∧ h' = h.send task) ∨
    (∃ task, event = .resume ∧ h.waiting = some task ∧ h.queue.length < queueCap ∧
      h' = { h with waiting := none, queue := h.queue ++ [task] }) ∨
    (∃ task queue, event = .recv ∧ h.inHand = none ∧ h.queue = task :: queue ∧
      h' = { h with inHand := some task, queue := queue }) ∨
    (∃ task latNs now, event = .answer latNs now ∧ h.inHand = some task ∧
      h' = h.answer p graph task latNs now) ∨
    ∃ now now', event = .poll now now' ∧ h' = h.poll now now' := by
  unfold Pipeline.step at hstep
  cases event with
  | send task =>
      simp only at hstep
      split at hstep
      · next hguard =>
          cases hstep
          exact .inl ⟨task, rfl, hguard.1, hguard.2, rfl⟩
      · cases hstep
  | resume =>
      cases hwait : h.waiting with
      | none =>
          simp only [hwait] at hstep
          cases hstep
      | some task =>
          simp only [hwait] at hstep
          split at hstep
          · next hroom =>
              cases hstep
              exact .inr (.inl ⟨task, rfl, rfl, hroom, rfl⟩)
          · cases hstep
  | recv =>
      cases hhand : h.inHand with
      | some task =>
          simp only [hhand] at hstep
          cases hstep
      | none =>
          cases hqueue : h.queue with
          | nil =>
              simp only [hhand, hqueue] at hstep
              cases hstep
          | cons task queue =>
              simp only [hhand, hqueue] at hstep
              cases hstep
              exact .inr (.inr (.inl ⟨task, queue, rfl, rfl, rfl, rfl⟩))
  | answer latNs now =>
      cases hhand : h.inHand with
      | none =>
          simp only [hhand] at hstep
          cases hstep
      | some task =>
          simp only [hhand] at hstep
          cases hstep
          exact .inr (.inr (.inr (.inl ⟨task, latNs, now, rfl, rfl, rfl⟩)))
  | poll now now' =>
      cases hstep
      exact .inr (.inr (.inr (.inr ⟨now, now', rfl, rfl⟩)))

/-! ### No more documents than asked for -/

theorem length_pushDoc {packed : UInt64} {results results' : List (List UInt8)}
    (h : pushDoc g packed results = .ok results') : results'.length ≤ results.length + 1 := by
  by_cases hin : docOffset packed + docLen packed ≤ g.arena.length
  · simp only [pushDoc, if_pos hin, slice_of_le (Nat.le_add_right _ _) hin, ok_bind] at h
    cases h
    rw [List.length_append, List.length_singleton]
  · simp only [pushDoc, if_neg hin] at h
    cases h
    exact Nat.le_succ _

/-- A query that goes on has fewer results than the limit, one that ends no more. -/
def WithinLimit (limit : UInt32) : BfsState ⊕ List (List UInt8) → Prop
  | .inl s => s.results.length < limit.toNat
  | .inr docs => docs.length ≤ limit.toNat

theorem withinLimit_scanRow {depth : UInt8} {k i : ℕ} {s : BfsState}
    {r : BfsState ⊕ List (List UInt8)} (hlim : s.results.length < limit.toNat)
    (h : scanRow p g limit depth k i s = .ok r) : WithinLimit limit r := by
  induction k generalizing i s with
  | zero =>
      cases h
      exact hlim
  | succ k ih =>
      obtain ⟨neighbor, -, h⟩ := bind_eq_ok.mp h
      obtain ⟨packed, -, h⟩ := bind_eq_ok.mp h
      obtain ⟨results, hpush, h⟩ := bind_eq_ok.mp h
      have hlength := length_pushDoc hpush
      have hword := limit.toNat_lt
      split at h
      · cases h
        exact Nat.le_trans hlength hlim
      · next hbelow =>
          rw [UInt32.le_iff_toNat_le, UInt32.toNat_ofNat', Nat.mod_eq_of_lt (by omega)] at hbelow
          obtain ⟨next, -, h⟩ := bind_eq_ok.mp h
          exact ih (Nat.not_le.mp hbelow) h

theorem withinLimit_bfsStep {maxDepth : UInt8} {s : BfsState} {r : BfsState ⊕ List (List UInt8)}
    (hlim : s.results.length < limit.toNat) (h : bfsStep p g maxDepth limit s = .ok r) :
    WithinLimit limit r := by
  unfold bfsStep at h
  split at h
  · cases h
    exact Nat.le_of_lt hlim
  · split at h
    · cases h
      exact hlim
    · simp only at h
      split at h
      · cases h
        exact hlim
      · obtain ⟨start, -, h⟩ := bind_eq_ok.mp h
        obtain ⟨stop, -, h⟩ := bind_eq_ok.mp h
        refine withinLimit_scanRow ?_ h
        exact hlim

/-- **An answer is within its limit**, on whatever arrays. -/
theorem length_bfsPosts {root : UInt32} {maxDepth : UInt8} {maxResults : UInt32}
    {docs : List (List UInt8)} (h : bfsPosts p g root maxDepth maxResults = .ok docs) :
    docs.length ≤ (limitOf maxResults).toNat := by
  have hrun := run_bfsPosts p g root maxDepth maxResults
  rw [h] at hrun
  refine ok_of_run (I := fun s => s.results.length < (limitOf maxResults).toNat)
    (Q := fun docs => docs.length ≤ (limitOf maxResults).toNat) ?_ ?_ (limitOf_pos maxResults) hrun
  · exact fun s s' hs hstep => withinLimit_bfsStep hs hstep
  · exact fun s docs hs hstep => withinLimit_bfsStep hs hstep

theorem length_query {task : QueryTask} {docs : List (List UInt8)}
    (h : query p g task = .ok docs) : docs.length ≤ 64 := length_bfsPosts h

/-! ### What every step keeps -/

/-- The state of a pipeline against what was sent and answered. -/
structure Accounts (start : Instant) (h : Pipeline) : Prop where
  room : h.queue.length ≤ queueCap
  /-- while the worker runs, every task that was sent is answered, in its hand, in the channel or
  waiting, in this order -/
  order : h.alive = true →
    h.sent = h.answered.map Prod.fst ++ (h.inHand.toList ++ h.queue ++ h.waiting.toList)
  answered_isPrefix : h.answered.map Prod.fst <+: h.sent
  dead : h.alive = false → h.inHand = none ∧ h.queue = [] ∧ h.waiting = none
  calls : ∃ calls, h.metrics = World.run start calls ∧
    (queries calls).map Query.tenantId = h.answered.map fun a => a.1.tenantId
  docs : ∀ a ∈ h.answered, a.2 ≤ 64
  mean : h.metrics.agg.lastMeanDocs
    = smoothAll (5 / 100) 0 (h.answered.map fun a => (a.2 : ℚ))
  qps : h.avgQpsSmoothed = smoothAll (3 / 10) 0 h.rates
  rates : ∀ rate ∈ h.rates, 0 ≤ rate

theorem Accounts.init (start : Instant) : Accounts start (Pipeline.init start) where
  room := Nat.zero_le _
  order := fun _ => rfl
  answered_isPrefix := List.prefix_refl _
  dead := fun hdead => by cases hdead
  calls := ⟨[], rfl, rfl⟩
  docs := fun _ ha => absurd ha List.not_mem_nil
  mean := rfl
  qps := rfl
  rates := fun _ hr => absurd hr List.not_mem_nil

theorem Accounts.send (hacc : Accounts start h) (hfree : h.waiting = none) (task : QueryTask) :
    Accounts start (h.send task) := by
  unfold Pipeline.send
  by_cases halive : h.alive = true
  · have horder := hacc.order halive
    rw [hfree, Option.toList_none, List.append_nil] at horder
    have hprefix : h.answered.map Prod.fst <+: h.sent ++ [task] :=
      hacc.answered_isPrefix.trans (List.prefix_append _ _)
    have hdead : ¬ h.alive = false := by rw [halive]; exact Bool.noConfusion
    rw [if_pos halive]
    split
    · next hroom =>
        refine { hacc with
          room := ?_, order := ?_, answered_isPrefix := hprefix, dead := fun hd => absurd hd hdead }
        · rw [List.length_append]
          exact hroom
        · intro _
          show h.sent ++ [task] = _ ++ (_ ++ (h.queue ++ [task]) ++ h.waiting.toList)
          rw [hfree, horder, Option.toList_none, List.append_nil, List.append_assoc,
            List.append_assoc]
    · refine { hacc with
        order := ?_, answered_isPrefix := hprefix, dead := fun hd => absurd hd hdead }
      intro _
      show h.sent ++ [task] = _ ++ (_ ++ h.queue ++ [task])
      rw [horder, List.append_assoc]
  · rw [if_neg halive]
    exact hacc

theorem Accounts.alive_of_waiting (hacc : Accounts start h) (hwait : h.waiting = some task) :
    h.alive = true := by
  by_contra hdead
  have hnone := (hacc.dead (Bool.eq_false_of_not_eq_true hdead)).2.2
  rw [hwait] at hnone
  cases hnone

theorem Accounts.resume (hacc : Accounts start h) (hwait : h.waiting = some task)
    (hroom : h.queue.length < queueCap) :
    Accounts start { h with waiting := none, queue := h.queue ++ [task] } := by
  have halive := hacc.alive_of_waiting hwait
  refine { hacc with room := ?_, order := ?_, dead := ?_ }
  · rw [List.length_append]
    exact hroom
  · intro _
    have horder := hacc.order halive
    rw [hwait] at horder
    show h.sent = _ ++ (_ ++ (h.queue ++ [task]) ++ [])
    rw [horder, List.append_nil, ← List.append_assoc _ h.queue]
    rfl
  · intro hdead
    rw [halive] at hdead
    cases hdead

theorem Accounts.recv (hacc : Accounts start h) {queue : List QueryTask} (hidle : h.inHand = none)
    (hqueue : h.queue = task :: queue) :
    Accounts start { h with inHand := some task, queue := queue } := by
  have hroom := hacc.room
  rw [hqueue] at hroom
  refine { hacc with room := Nat.le_of_succ_le hroom, order := ?_, dead := ?_ }
  · intro halive
    have horder := hacc.order halive
    rw [hidle, hqueue] at horder
    exact horder
  · intro hdead
    have hempty := (hacc.dead hdead).2.1
    rw [hqueue] at hempty
    cases hempty

theorem Accounts.record (hacc : Accounts start h) (hhand : h.inHand = some task) (latNs : UInt64)
    {docs : ℕ} (hdocs : docs ≤ 64) (now : Instant) :
    Accounts start (h.record task latNs docs now) := by
  have halive : h.alive = true := by
    by_contra hdead
    have hnone := (hacc.dead (Bool.eq_false_of_not_eq_true hdead)).1
    rw [hhand] at hnone
    cases hnone
  have horder := hacc.order halive
  rw [hhand, Option.toList_some, List.singleton_append, List.cons_append] at horder
  have hsent : h.sent
      = (h.answered ++ [(task, docs)]).map Prod.fst ++ (h.queue ++ h.waiting.toList) := by
    rw [List.map_append, List.append_assoc]
    exact horder
  refine ⟨hacc.room, fun _ => hsent, ?_, ?_, ?_, ?_, ?_, hacc.qps, hacc.rates⟩
  · show (h.answered ++ [(task, docs)]).map Prod.fst <+: h.sent
    rw [hsent]
    exact List.prefix_append _ _
  · intro hdead
    exact absurd hdead (by rw [show (h.record task latNs docs now).alive = h.alive from rfl, halive]
                           exact Bool.noConfusion)
  · obtain ⟨calls, hmetrics, htenants⟩ := hacc.calls
    refine ⟨calls ++ [.recordQuery task.tenantId latNs (UInt64.ofNat docs) now], ?_, ?_⟩
    · rw [run_concat, ← hmetrics]
      rfl
    · rw [queries_concat, List.map_append, htenants]
      show _ = (h.answered ++ [(task, docs)]).map fun a => a.1.tenantId
      rw [List.map_append]
      rfl
  · intro a ha
    rcases List.mem_append.mp ha with hold | hnew
    · exact hacc.docs a hold
    · rw [List.mem_singleton.mp hnew]
      exact hdocs
  · have hword : (UInt64.ofNat docs).toNat = docs :=
      UInt64.toNat_ofNat_of_lt' (Nat.lt_of_le_of_lt hdocs (by decide))
    show h.metrics.agg.lastMeanDocs * (1 - 5 / 100) + ((UInt64.ofNat docs).toNat : ℚ) * (5 / 100)
      = smoothAll (5 / 100) 0 ((h.answered ++ [(task, docs)]).map fun a => (a.2 : ℚ))
    rw [List.map_append, List.map_singleton, smoothAll_concat, ← hacc.mean, hword]
    rfl

/-- A worker that dies leaves the measurements as they are. -/
theorem Accounts.die (hacc : Accounts start h) : Accounts start h.die := by
  refine { hacc with room := Nat.zero_le _, order := ?_, dead := fun _ => ⟨rfl, rfl, rfl⟩ }
  intro halive
  cases halive

theorem Accounts.answer (hacc : Accounts start h) (hhand : h.inHand = some task)
    (p : Profile) (graph : Option GraphEngine) (latNs : UInt64) (now : Instant) :
    Accounts start (h.answer p graph task latNs now) := by
  unfold Pipeline.answer
  cases graph with
  | none => exact hacc.record hhand 0 (Nat.zero_le _) now
  | some g =>
      cases hquery : query p g task with
      | ok docs =>
          simp only [hquery]
          exact hacc.record hhand latNs (length_query hquery) now
      | error e =>
          simp only [hquery]
          exact hacc.die

theorem rollQpsWindow_nonneg (a : Agg) (now : Instant) : 0 ≤ (a.rollQpsWindow now).1 := by
  have helapsed : 0 ≤ a.elapsed now := le_max_of_le_right (by norm_num)
  have hrate : 0 ≤ (a.qpsWindowCount.toNat : ℚ) / a.elapsed now :=
    div_nonneg (Nat.cast_nonneg _) helapsed
  unfold Agg.rollQpsWindow
  by_cases hroll : 1 ≤ a.elapsed now
  · simp only [if_pos hroll]
    exact hrate
  · simp only [if_neg hroll]
    exact hrate

theorem Accounts.poll (hacc : Accounts start h) (now now' : Instant) :
    Accounts start (h.poll now now') := by
  refine { hacc with calls := ?_, mean := ?_, qps := ?_, rates := ?_ }
  · obtain ⟨calls, hmetrics, htenants⟩ := hacc.calls
    refine ⟨calls ++ [.pruneSlots now] ++ [.rollQpsWindow now'], ?_, ?_⟩
    · rw [run_concat, run_concat, ← hmetrics]
      rfl
    · rw [queries_rollQpsWindow, queries_pruneSlots]
      exact htenants
  · refine Eq.trans ?_ hacc.mean
    rcases step_roll (h.metrics.step (.pruneSlots now)) now' with hroll | hroll
    · exact congrArg (fun w => w.agg.lastMeanDocs) hroll
    · exact congrArg (fun w => w.agg.lastMeanDocs) hroll
  · show h.avgQpsSmoothed * (7 / 10) + _ * (3 / 10) = smoothAll (3 / 10) 0 (h.rates ++ [_])
    rw [smoothAll_concat, ← hacc.qps, smooth]
    norm_num
  · intro rate hrate
    rcases List.mem_append.mp hrate with hold | hnew
    · exact hacc.rates rate hold
    · rw [List.mem_singleton.mp hnew]
      exact rollQpsWindow_nonneg _ _

/-- **One event.** -/
theorem Accounts.step (hacc : Accounts start h) {event : Event}
    (hstep : h.step p graph event = some h') : Accounts start h' := by
  rcases h.step_cases hstep with ⟨task, -, -, hfree, rfl⟩ | ⟨task, -, hwait, hroom, rfl⟩
    | ⟨task, queue, -, hhand, hqueue, rfl⟩ | ⟨task, latNs, now, -, hhand, rfl⟩
    | ⟨now, now', -, rfl⟩
  · exact hacc.send hfree task
  · exact hacc.resume hwait hroom
  · exact hacc.recv hhand hqueue
  · exact hacc.answer hhand p graph latNs now
  · exact hacc.poll now now'

end NexusCore.Host
