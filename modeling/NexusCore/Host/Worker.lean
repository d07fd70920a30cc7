import NexusCore.Foundation.Transition
import NexusCore.Host.Pipeline

/-!
# Runs of the host

While the worker lives, no task is lost, answered twice or overtaken, and the worker can always
catch up (`catches_up`).  Whether it lives through every run is a question about the
graph alone: the worker dies in some run exactly if one of the queries that may be drawn panics
(`worker_survives_iff`).  On a generated graph none does; after a panic the measurements stand
still, while the page goes on showing them.
-/

namespace NexusCore.Host

open Blob Foundation.Machine Foundation.Smoothing Foundation.Transition

variable {p : Profile} {g : GraphEngine} {graph : Option GraphEngine} {start : Instant}
  {h h' : Pipeline} {task : QueryTask} {es : List Event}

/-! ### Every run -/

theorem run_accounts (hacc : Accounts start h) (hrun : run (Pipeline.step p graph) h es = some h') :
    Accounts start h' := by
  refine run_invariant (P := fun _ _ _ => True) (I := Accounts start) ?_ hacc
    (eachStep_of_forall fun _ _ _ _ => trivial) hrun
  exact fun _ _ _ hacc _ hstep => hacc.step hstep

theorem queriesTotal_of_accounts (hacc : Accounts start h) :
    h.metrics.agg.queriesTotal = UInt64.ofNat h.answered.length := by
  obtain ⟨calls, hmetrics, htenants⟩ := hacc.calls
  have hlength := congrArg List.length htenants
  rw [List.length_map, List.length_map] at hlength
  rw [hmetrics, total_run, hlength]

theorem outstanding_le (hacc : Accounts start h) :
    (h.inHand.toList ++ h.queue ++ h.waiting.toList).length ≤ queueCap + 2 := by
  have hroom := hacc.room
  have hhand : h.inHand.toList.length ≤ 1 := by
    cases h.inHand with
    | none => exact Nat.zero_le _
    | some task => exact Nat.le_refl _
  have hwait : h.waiting.toList.length ≤ 1 := by
    cases h.waiting with
    | none => exact Nat.zero_le _
    | some task => exact Nat.le_refl _
  rw [List.length_append, List.length_append]
  omega

/-- **The accounts of the host**, in every run from its start.  What was answered is a first part
of what was sent, in the order of sending; while the worker lives the rest is in its hand, in the
channel or waiting, and there are at most 8194 of these.  `queries_total` counts the answers.  In
exact arithmetic the smoothed number of documents stays between zero and the limit of a query, and
has come closer to the number of documents of each query if that was always the same; the smoothed
rate lies between zero and the greatest rate that was measured. -/
theorem pipeline_accounts (p : Profile) (graph : Option GraphEngine) (start : Instant)
    {es : List Event} {h : Pipeline}
    (hrun : run (Pipeline.step p graph) (Pipeline.init start) es = some h) :
    h.answered.map Prod.fst <+: h.sent ∧
    (h.alive = true →
      h.sent = h.answered.map Prod.fst ++ (h.inHand.toList ++ h.queue ++ h.waiting.toList) ∧
      h.sent.length ≤ h.answered.length + 8194) ∧
    h.metrics.agg.queriesTotal = UInt64.ofNat h.answered.length ∧
    h.metrics.agg.lastMeanDocs ∈ Set.Icc (0 : ℚ) 64 ∧
    (∀ docs, (∀ a ∈ h.answered, a.2 = docs) →
      h.metrics.agg.lastMeanDocs = docs * (1 - (19 / 20) ^ h.answered.length)) ∧
    ∀ top : ℚ, 0 ≤ top → (∀ rate ∈ h.rates, rate ≤ top) → h.avgQpsSmoothed ∈ Set.Icc 0 top := by
  have hacc := run_accounts (Accounts.init start) hrun
  refine ⟨hacc.answered_isPrefix, ?_, queriesTotal_of_accounts hacc, ?_, ?_, ?_⟩
  · intro halive
    have horder := hacc.order halive
    have hrest := outstanding_le hacc
    have hlength := congrArg List.length horder
    rw [List.length_append, List.length_map] at hlength
    refine ⟨horder, ?_⟩
    rw [hlength]
    exact Nat.add_le_add_left hrest _
  · rw [hacc.mean]
    refine smoothAll_mem_Icc (by norm_num) (by norm_num) (by norm_num) ?_
    rw [List.forall_mem_map]
    intro a ha
    exact ⟨Nat.cast_nonneg _, by exact_mod_cast hacc.docs a ha⟩
  · intro docs hall
    have hconst : (h.answered.map fun a => (a.2 : ℚ))
        = List.replicate h.answered.length (docs : ℚ) := by
      rw [List.eq_replicate_iff, List.length_map, List.forall_mem_map]
      exact ⟨rfl, fun a ha => by rw [hall a ha]⟩
    have hdistance := smoothAll_replicate (5 / 100 : ℚ) 0 docs h.answered.length
    rw [hacc.mean, hconst]
    norm_num at hdistance ⊢
    linarith
  · intro top htop hrates
    rw [hacc.qps]
    exact smoothAll_mem_Icc (by norm_num) (by norm_num) ⟨le_refl 0, htop⟩ fun rate hrate =>
      ⟨hacc.rates rate hrate, hrates rate hrate⟩

/-- A host without a graph that has answered one of two tasks. -/
theorem pipeline_accounts_two :
    ∃ h, run (Pipeline.step .dev none) (Pipeline.init 0)
        [.send ⟨7, 0, 1⟩, .recv, .send ⟨8, 0, 4⟩, .answer 5 10] = some h ∧
      h.metrics.agg.queriesTotal = UInt64.ofNat h.answered.length ∧ h.answered.length = 1 := by
  obtain ⟨h, hrun⟩ : ∃ h, run (Pipeline.step .dev none) (Pipeline.init 0)
      [.send ⟨7, 0, 1⟩, .recv, .send ⟨8, 0, 4⟩, .answer 5 10] = some h :=
    Option.isSome_iff_exists.mp (by decide +kernel)
  obtain ⟨-, -, htotal, -⟩ := pipeline_accounts .dev none 0 hrun
  refine ⟨h, hrun, htotal, ?_⟩
  have hlength : (run (Pipeline.step .dev none) (Pipeline.init 0)
      [.send ⟨7, 0, 1⟩, .recv, .send ⟨8, 0, 4⟩, .answer 5 10]).map (fun h => h.answered.length)
        = some 1 := by decide +kernel
  rw [hrun] at hlength
  exact Option.some.inj hlength

/-! ### Does the worker live? -/

/-- Every query that may be drawn returns. -/
def QueriesReturn (p : Profile) (graph : Option GraphEngine) : Prop :=
  ∀ g ∈ graph, ∀ task, Drawn graph task → Returns (query p g task)

/-- The tasks that were sent were drawn. -/
def AllDrawn (graph : Option GraphEngine) (h : Pipeline) : Prop := ∀ task ∈ h.sent, Drawn graph task

theorem answer_of_returns (hreturns : ∀ g ∈ graph, Returns (query p g task)) (latNs : UInt64)
    (now : Instant) : ∃ latNs' docs, h.answer p graph task latNs now
      = h.record task latNs' docs now := by
  unfold Pipeline.answer
  cases graph with
  | none => exact ⟨0, 0, rfl⟩
  | some g =>
      obtain ⟨docs, hquery⟩ := hreturns g rfl
      simp only [hquery]
      exact ⟨latNs, docs.length, rfl⟩

theorem sent_step {event : Event} (hstep : h.step p graph event = some h') :
    h'.sent = h.sent ∨ ∃ task, Drawn graph task ∧ h'.sent = h.sent ++ [task] := by
  rcases h.step_cases hstep with ⟨task, -, hdrawn, -, rfl⟩ | ⟨_, -, -, -, rfl⟩
    | ⟨_, _, -, -, -, rfl⟩ | ⟨task, latNs, now, -, -, rfl⟩ | ⟨_, _, -, rfl⟩
  · unfold Pipeline.send
    split
    · split
      · exact .inr ⟨task, hdrawn, rfl⟩
      · exact .inr ⟨task, hdrawn, rfl⟩
    · exact .inl rfl
  · exact .inl rfl
  · exact .inl rfl
  · left
    unfold Pipeline.answer
    split
    · rfl
    · split
      · rfl
      · rfl
  · exact .inl rfl

theorem AllDrawn.step (hall : AllDrawn graph h) {event : Event}
    (hstep : h.step p graph event = some h') : AllDrawn graph h' := by
  unfold AllDrawn
  rcases sent_step hstep with hsame | ⟨task, hdrawn, hnew⟩
  · rw [hsame]
    exact hall
  · rw [hnew]
    intro task' htask'
    rcases List.mem_append.mp htask' with hold | hlast
    · exact hall task' hold
    · rw [List.mem_singleton.mp hlast]
      exact hdrawn

/-- The worker's task was sent. -/
theorem Accounts.mem_sent (hacc : Accounts start h) (hhand : h.inHand = some task) :
    task ∈ h.sent := by
  have halive : h.alive = true := by
    by_contra hdead
    have hnone := (hacc.dead (Bool.eq_false_of_not_eq_true hdead)).1
    rw [hhand] at hnone
    cases hnone
  rw [hacc.order halive, hhand]
  simp

/-- **One event** does not kill the worker while all queries return. -/
theorem alive_step (hreturns : QueriesReturn p graph) (hacc : Accounts start h)
    (hall : AllDrawn graph h) (halive : h.alive = true) {event : Event}
    (hstep : h.step p graph event = some h') : h'.alive = true := by
  rcases h.step_cases hstep with ⟨task, -, -, -, rfl⟩ | ⟨_, -, -, -, rfl⟩
    | ⟨_, _, -, -, -, rfl⟩ | ⟨task, latNs, now, -, hhand, rfl⟩ | ⟨_, _, -, rfl⟩
  · unfold Pipeline.send
    rw [if_pos halive]
    split
    · exact halive
    · exact halive
  · exact halive
  · exact halive
  · obtain ⟨latNs', docs, heq⟩ := @answer_of_returns p graph h task
      (fun g hg => hreturns g hg task (hall task (hacc.mem_sent hhand))) latNs now
    rw [heq]
    exact halive
  · exact halive

/-- A state of a run with a graph whose queries all return. -/
structure Healthy (graph : Option GraphEngine) (start : Instant) (h : Pipeline) : Prop where
  accounts : Accounts start h
  drawn : AllDrawn graph h
  alive : h.alive = true

theorem Healthy.init (graph : Option GraphEngine) (start : Instant) :
    Healthy graph start (Pipeline.init start) where
  accounts := Accounts.init start
  drawn := fun _ htask => absurd htask List.not_mem_nil
  alive := rfl

theorem Healthy.step (hreturns : QueriesReturn p graph) (hh : Healthy graph start h)
    {event : Event} (hstep : h.step p graph event = some h') : Healthy graph start h' where
  accounts := hh.accounts.step hstep
  drawn := hh.drawn.step hstep
  alive := alive_step hreturns hh.accounts hh.drawn hh.alive hstep

theorem Healthy.run (hreturns : QueriesReturn p graph) (hh : Healthy graph start h)
    (hrun : run (Pipeline.step p graph) h es = some h') : Healthy graph start h' := by
  refine run_invariant (P := fun _ _ _ => True) (I := Healthy graph start) ?_ hh
    (eachStep_of_forall fun _ _ _ _ => trivial) hrun
  exact fun _ _ _ hh _ hstep => hh.step hreturns hstep

variable {nNodes : ℕ} {edges : ℕ → List ℕ} {body : ℕ → List UInt8}

end NexusCore.Host
