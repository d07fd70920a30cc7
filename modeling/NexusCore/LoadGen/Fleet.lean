import NexusCore.Foundation.Rotation
import NexusCore.Foundation.Simulation
import NexusCore.LoadGen.Workers

/-!
# All workers of the load generator

A `Fleet` is the clock, the workers that `main` has started and the two atomic counters, which
all workers share.  A worker's own steps are those of its `Lane`, whatever the others do
(`shows_lane`), so each worker is paced (`Fleet.paced`).

* `fleet_paced`: no worker is ahead of its rate, and how many requests a fleet can send;
* `fleet_accounts`: the counters and the report, and the tenants' shares;
* `fleet_can_report`: the report is in reach from every state that is far from the end of what an
  `Instant` holds.
-/

namespace NexusCore.LoadGen

open Foundation.Simulation Foundation.Transition Foundation.Rotation

structure Fleet (n : ℕ) where
  clock : ℕ
  workers : Fin n → Worker
  totalRequests : UInt64
  totalErrors : UInt64

def Fleet.init (n clock : ℕ) : Fleet n := ⟨clock, fun _ => Worker.init, 0, 0⟩

/-- What the counters gain by a step. -/
def Act.succeeded : Act → UInt64
  | .finish true => 1
  | _ => 0

def Act.failed : Act → UInt64
  | .finish false => 1
  | _ => 0

inductive FleetEvent (n : ℕ)
  | tick (d : ℕ)
  | act (i : Fin n) (a : Act)
  deriving DecidableEq, Repr

/-- No worker has panicked. -/
def Fleet.Alive {n : ℕ} (f : Fleet n) : Prop := ∀ i, (f.workers i).phase ≠ .panicked

instance {n : ℕ} (f : Fleet n) : Decidable f.Alive :=
  inferInstanceAs (Decidable (∀ i, (f.workers i).phase ≠ .panicked))

/-- The release profile aborts the process at a panic, so no worker goes on after one. -/
def Fleet.step {n : ℕ} (p : Plan) (f : Fleet n) : FleetEvent n → Option (Fleet n)
  | .tick d => if f.clock + d < instantLimit then some { f with clock := f.clock + d } else none
  | .act i a =>
      if f.Alive then
        ((f.workers i).step p f.clock a).map fun w =>
          { f with
            workers := Function.update f.workers i w
            totalRequests := f.totalRequests + a.succeeded
            totalErrors := f.totalErrors + a.failed }
      else none

/-- The counts of the report. -/
structure MetricsReport where
  targetRps : UInt64
  totalRequests : UInt64
  errors : UInt64
  deriving DecidableEq, Repr

/-- `main` reports once it has joined every worker. -/
def Fleet.report {n : ℕ} (args : Args) (f : Fleet n) : Option MetricsReport :=
  if ∀ i, (f.workers i).phase = .done then some ⟨args.rps, f.totalRequests, f.totalErrors⟩
  else none

/-! ### Each worker on its own -/

variable {n : ℕ} {p : Plan} {f f' : Fleet n} {e : FleetEvent n} {es : List (FleetEvent n)}

def Fleet.lane (i : Fin n) (f : Fleet n) : Lane := ⟨f.clock, f.workers i⟩

/-- What a worker sees of an event: its own steps, and time. -/
def FleetEvent.seen (i : Fin n) : FleetEvent n → Option LaneEvent
  | .tick d => some (.tick d)
  | .act j a => if j = i then some (.act a) else none

theorem step_act {i : Fin n} {a : Act} (h : f.step p (.act i a) = some f') :
    ∃ w, (f.workers i).step p f.clock a = some w ∧
      f' = { f with
        workers := Function.update f.workers i w
        totalRequests := f.totalRequests + a.succeeded
        totalErrors := f.totalErrors + a.failed } := by
  obtain ⟨-, hstep⟩ := Option.ite_none_right_eq_some.mp h
  obtain ⟨w, hw, hf⟩ := Option.map_eq_some_iff.mp hstep
  exact ⟨w, hw, hf.symm⟩

theorem step_tick {d : ℕ} (h : f.step p (.tick d) = some f') :
    f.clock + d < instantLimit ∧ f' = { f with clock := f.clock + d } := by
  obtain ⟨hlt, heq⟩ := Option.ite_none_right_eq_some.mp h
  exact ⟨hlt, (Option.some.inj heq).symm⟩

theorem shows_lane (i : Fin n) :
    Shows (Fleet.step p) (Lane.step p) (Fleet.lane i) (FleetEvent.seen i) where
  seen := by
    intro f e e' f' hstep hsee
    cases e with
    | tick d =>
        cases hsee
        obtain ⟨hlt, rfl⟩ := step_tick hstep
        exact if_pos hlt
    | act j a =>
        obtain ⟨w, hw, rfl⟩ := step_act hstep
        by_cases hj : j = i
        · rw [FleetEvent.seen, if_pos hj] at hsee
          cases hsee
          subst hj
          show ((f.workers j).step p f.clock a).map _ = _
          rw [hw]
          simp [Fleet.lane]
        · rw [FleetEvent.seen, if_neg hj] at hsee
          cases hsee
  unseen := by
    intro f e f' hstep hsee
    cases e with
    | tick d => cases hsee
    | act j a =>
        obtain ⟨w, -, rfl⟩ := step_act hstep
        by_cases hj : j = i
        · rw [FleetEvent.seen, if_pos hj] at hsee
          cases hsee
        · show (⟨f.clock, Function.update f.workers j w i⟩ : Lane) = ⟨f.clock, f.workers i⟩
          rw [Function.update_of_ne (Ne.symm hj)]

/-- **A worker is paced, whatever the others do.** -/
theorem Fleet.paced {clock : ℕ} (hrun : run (Fleet.step p) (Fleet.init n clock) es = some f)
    (i : Fin n) : Paced p (f.lane i) :=
  run_invariant (P := fun _ _ _ => True) (fun _ _ _ h _ hstep => h.step hstep) (Paced.init clock)
    (eachStep_of_forall fun _ _ _ _ => trivial) ((shows_lane i).run hrun)

/-! ### How many requests there can be -/

/-- The plan of a worker, as `main` computes it. -/
theorem plan_spec {ncpus : ℕ} {args : Args} (hp : args.plan ncpus = some p) :
    0 < workerCount ncpus args ∧ p.duration = args.duration ∧ p.tenants = args.tenants ∧
      p.rps.toNat = max (args.rps.toNat / workerCount ncpus args) 1 := by
  obtain ⟨rps, hrps, rfl⟩ := Option.map_eq_some_iff.mp hp
  rw [rpsPerWorker] at hrps
  by_cases hzero : workerCount ncpus args = 0
  · rw [if_pos hzero] at hrps
    cases hrps
  · rw [if_neg hzero] at hrps
    cases hrps
    have hlt : workerCount ncpus args < 2 ^ 64 :=
      Nat.lt_of_le_of_lt (Nat.min_le_right _ _)
        (Nat.lt_trans args.tenants.toNat_lt (by norm_num))
    have hcount : (UInt64.ofNat (workerCount ncpus args)).toNat = workerCount ncpus args := by
      rw [UInt64.toNat_ofNat', Nat.mod_eq_of_lt hlt]
    refine ⟨Nat.pos_of_ne_zero hzero, rfl, rfl, ?_⟩
    have hdiv := UInt64.toNat_div args.rps (UInt64.ofNat (workerCount ncpus args))
    rw [hcount] at hdiv
    rw [← hdiv]
    show (if _ ≤ _ then _ else _ : UInt64).toNat = _
    split
    · next hle =>
        rw [UInt64.le_iff_toNat_le] at hle
        exact (Nat.max_eq_right hle).symm
    · next hle =>
        rw [UInt64.le_iff_toNat_le] at hle
        exact (Nat.max_eq_left (Nat.le_of_lt (Nat.not_le.mp hle))).symm

/-- `main` panics exactly if there are no tenants. -/
theorem plan_eq_none_iff (cpuinfo : List (List Char)) (args : Args) :
    args.plan (numCpus cpuinfo) = none ↔ args.tenants = 0 := by
  have hcpus : 0 < numCpus cpuinfo := Nat.lt_of_lt_of_le Nat.zero_lt_one (Nat.le_max_right _ _)
  have hcount : workerCount (numCpus cpuinfo) args = 0 ↔ args.tenants = 0 := by
    rw [workerCount, Nat.min_eq_zero_iff, ← UInt32.toNat_inj]
    exact or_iff_right (Nat.ne_of_gt hcpus)
  rw [← hcount, Args.plan, Option.map_eq_none_iff, rpsPerWorker]
  by_cases hzero : workerCount (numCpus cpuinfo) args = 0
  · rw [if_pos hzero]
    exact iff_of_true rfl hzero
  · rw [if_neg hzero]
    exact iff_of_false (Option.some_ne_none _) hzero

variable {l : Lane}

/-- **No worker is ahead of its rate.** -/
theorem Paced.sent_by (h : Paced p l) (hinterval : 0 < p.interval) (t : ℕ) :
    l.worker.requests.countP (fun r => r.1 ≤ t) ≤ (t - l.worker.began) / p.interval + 1 := by
  refine countP_le_of_index fun k r hr hle => ?_
  have htick := (h.onTick k r hr).1
  have hle' : r.1 ≤ t := by simpa using hle
  have hk : k * p.interval ≤ t - l.worker.began := by omega
  exact Nat.lt_succ_of_le ((Nat.le_div_iff_mul_le hinterval).mpr hk)

/-- The last tick of a worker's requests is within the duration. -/
theorem Paced.last_tick (h : Paced p l) :
    l.worker.requests = [] ∨ (l.worker.requests.length - 1) * p.interval < p.nanos := by
  by_cases hnil : l.worker.requests = []
  · exact Or.inl hnil
  · have hdeadline := h.deadline_began (Or.inl hnil)
    have hlast := List.getLast?_eq_some_getLast hnil
    rw [List.getLast?_eq_getElem?] at hlast
    have htick := (h.onTick _ _ hlast).2.2
    exact Or.inr (by omega)

/-- **What a worker can send until its deadline.** -/
theorem Paced.sent_le (h : Paced p l) (hinterval : 0 < p.interval) :
    l.worker.requests.length ≤ (p.nanos + p.interval - 1) / p.interval := by
  rw [Nat.le_div_iff_mul_le hinterval]
  rcases h.last_tick with hnil | hlast
  · rw [hnil, List.length_nil, Nat.zero_mul]
    exact Nat.zero_le _
  · have hlen : l.worker.requests.length * p.interval
        ≤ (l.worker.requests.length - 1) * p.interval + p.interval := by
      rw [← Nat.succ_mul]
      exact Nat.mul_le_mul_right _ (by omega)
    omega

/-- **A rate that divides a second is kept exactly.** -/
theorem Paced.sent_le_of_dvd (h : Paced p l) (hdvd : p.rps.toNat ∣ 1000000000) :
    l.worker.requests.length ≤ p.rps.toNat * p.duration.toNat := by
  rcases h.last_tick with hnil | hlast
  · rw [hnil]
    exact Nat.zero_le _
  · obtain ⟨c, hc⟩ := hdvd
    have hrps : 0 < p.rps.toNat := Nat.pos_of_ne_zero fun hzero => by
      rw [hzero, Nat.zero_mul] at hc
      omega
    have hinterval : p.interval = c := by
      rw [Plan.interval, UInt64.toNat_div]
      show 1000000000 / p.rps.toNat = c
      rw [hc, Nat.mul_div_cancel_left c hrps]
    have hnanos : p.nanos = p.rps.toNat * p.duration.toNat * c := by
      rw [Plan.nanos, hc]
      ring
    rw [hinterval, hnanos] at hlast
    have hlt := Nat.lt_of_mul_lt_mul_right hlast
    omega

/-- All requests of a fleet. -/
def Fleet.sent (f : Fleet n) : ℕ := ∑ i, (f.workers i).requests.length

/-- **The pace of a fleet.** -/
theorem fleet_paced {ncpus clock : ℕ} {args : Args} {f : Fleet (workerCount ncpus args)}
    {es : List (FleetEvent (workerCount ncpus args))} (hp : args.plan ncpus = some p)
    (hrun : run (Fleet.step p) (Fleet.init _ clock) es = some f) :
    (∀ i k r, (f.workers i).requests[k]? = some r →
        OnTick p (f.workers i).began (f.workers i).deadline k r ∧
          (f.workers i).deadline ≤ (f.workers i).began + p.nanos) ∧
      (0 < p.interval → ∀ i t, (f.workers i).requests.countP (fun r => r.1 ≤ t)
        ≤ (t - (f.workers i).began) / p.interval + 1) ∧
      (0 < p.interval →
        f.sent ≤ workerCount ncpus args * ((p.nanos + p.interval - 1) / p.interval)) ∧
      (p.rps.toNat ∣ 1000000000 → workerCount ncpus args ≤ args.rps.toNat →
        f.sent ≤ args.rps.toNat * args.duration.toNat) := by
  have hpaced := Fleet.paced hrun
  refine ⟨fun i k r hr => ⟨(hpaced i).onTick k r hr, ?_⟩,
    fun hinterval i => (hpaced i).sent_by hinterval, ?_, ?_⟩
  · refine (hpaced i).deadline_began (Or.inl fun hnil => ?_)
    have hnil' : (f.workers i).requests = [] := hnil
    rw [hnil'] at hr
    cases hr
  · intro hinterval
    calc f.sent ≤ ∑ _i : Fin (workerCount ncpus args),
          (p.nanos + p.interval - 1) / p.interval :=
          Finset.sum_le_sum fun i _ => (hpaced i).sent_le hinterval
      _ = workerCount ncpus args * ((p.nanos + p.interval - 1) / p.interval) := by
          rw [Finset.sum_const, Finset.card_univ, Fintype.card_fin, smul_eq_mul]
  · intro hdvd hworkers
    obtain ⟨hpos, hduration, -, hrps⟩ := plan_spec hp
    have hshare : workerCount ncpus args * p.rps.toNat ≤ args.rps.toNat := by
      have hone : 1 ≤ args.rps.toNat / workerCount ncpus args :=
        (Nat.le_div_iff_mul_le hpos).mpr (by omega)
      rw [hrps, Nat.max_eq_left hone]
      exact Nat.mul_div_le _ _
    calc f.sent ≤ ∑ _i : Fin (workerCount ncpus args), p.rps.toNat * p.duration.toNat :=
          Finset.sum_le_sum fun i _ => (hpaced i).sent_le_of_dvd hdvd
      _ = workerCount ncpus args * p.rps.toNat * args.duration.toNat := by
          rw [Finset.sum_const, Finset.card_univ, Fintype.card_fin, smul_eq_mul, hduration,
            Nat.mul_assoc]
      _ ≤ args.rps.toNat * args.duration.toNat := Nat.mul_le_mul_right _ hshare

/-- Two CPUs and three tenants, two requests per second in all: one for each worker. -/
def twoCpus : Args := ⟨2, 3, 1, 512, "mixed"⟩

/-- The first worker sends, answers and stops at its deadline, the second one meets an error. -/
def twoWorkers : List (FleetEvent 2) :=
  [.act 0 .start, .act 0 .arm, .act 1 .start, .tick 5, .act 1 .arm, .act 0 .check, .act 1 .check,
    .act 0 .send, .act 1 .send, .act 1 (.finish false), .tick 7, .act 0 (.finish true),
    .tick 1000000000, .act 0 .wake, .act 0 .check, .act 1 .wake, .act 1 .check]

theorem run_twoWorkers :
    ∃ f : Fleet 2, run (Fleet.step ⟨1, 1, 3⟩) (Fleet.init 2 0) twoWorkers = some f ∧
      f.report twoCpus = some ⟨2, 1, 1⟩ ∧ f.sent = 2 := by
  have hreport : (run (Fleet.step ⟨1, 1, 3⟩) (Fleet.init 2 0) twoWorkers).map
      (fun f => (f.report twoCpus, f.sent)) = some (some ⟨2, 1, 1⟩, 2) := by decide +kernel
  obtain ⟨f, hf, hpair⟩ := Option.map_eq_some_iff.mp hreport
  exact ⟨f, hf, congrArg Prod.fst hpair, congrArg Prod.snd hpair⟩

theorem fleet_paced_two :
    ∃ f : Fleet (workerCount 2 twoCpus), twoCpus.plan 2 = some ⟨1, 1, 3⟩ ∧
      run (Fleet.step ⟨1, 1, 3⟩) (Fleet.init _ 0) twoWorkers = some f ∧ f.sent ≤ 2 * 1 := by
  have hp : twoCpus.plan 2 = some ⟨1, 1, 3⟩ := by decide
  obtain ⟨f, hf, -⟩ := run_twoWorkers
  obtain ⟨-, -, -, htotal⟩ := @fleet_paced _ 2 _ twoCpus _ _ hp hf
  exact ⟨f, hp, hf, htotal (by decide) (by decide)⟩

/-! ### The counters and the shares -/

/-- What the counters of a fleet say of its workers. -/
structure Counted (f : Fleet n) : Prop where
  requests : f.totalRequests
    = UInt64.ofNat (∑ i, (f.workers i).outcomes.count true)
  errors : f.totalErrors = UInt64.ofNat (∑ i, (f.workers i).outcomes.count false)

theorem Counted.init (clock : ℕ) : Counted (Fleet.init n clock) where
  requests := by simp [Fleet.init, Worker.init]
  errors := by simp [Fleet.init, Worker.init]

/-- What one step does to the outcomes of its worker. -/
theorem outcomes_step {now : ℕ} {w w' : Worker} {a : Act} (h : w.step p now a = some w') :
    UInt64.ofNat (w'.outcomes.count true) = UInt64.ofNat (w.outcomes.count true) + a.succeeded ∧
      UInt64.ofNat (w'.outcomes.count false)
        = UInt64.ofNat (w.outcomes.count false) + a.failed := by
  cases a with
  | start | arm | check | send | wake =>
      obtain ⟨-, rfl⟩ := step_of_phase h
      exact ⟨(UInt64.add_zero _).symm, (UInt64.add_zero _).symm⟩
  | finish success =>
      obtain ⟨-, rfl⟩ := step_of_phase h
      cases success with
      | true => simp [Act.succeeded, Act.failed, List.count_append, UInt64.ofNat_add]
      | false => simp [Act.succeeded, Act.failed, List.count_append, UInt64.ofNat_add]

theorem ofNat_sum_update (f : Fleet n) (i : Fin n) (w : Worker) (g : Worker → ℕ) (gain : UInt64)
    (h : UInt64.ofNat (g w) = UInt64.ofNat (g (f.workers i)) + gain) :
    UInt64.ofNat (∑ j, g (f.workers j)) + gain
      = UInt64.ofNat (∑ j, g (Function.update f.workers i w j)) := by
  have hsum := congrArg UInt64.ofNat (sum_update_add f.workers i w g)
  rw [UInt64.ofNat_add, UInt64.ofNat_add, h, UInt64.add_comm _ gain, ← UInt64.add_assoc] at hsum
  exact (UInt64.add_left_inj _).mp hsum.symm

/-- **One step keeps the counters right.** -/
theorem Counted.step (h : Counted f) (hf : f.step p e = some f') : Counted f' := by
  cases e with
  | tick d =>
      obtain ⟨-, rfl⟩ := step_tick hf
      exact ⟨h.requests, h.errors⟩
  | act i a =>
      obtain ⟨w, hw, rfl⟩ := step_act hf
      obtain ⟨htrue, hfalse⟩ := outcomes_step hw
      constructor
      · show f.totalRequests + a.succeeded = _
        rw [h.requests]
        exact ofNat_sum_update f i w (fun w => w.outcomes.count true) _ htrue
      · show f.totalErrors + a.failed = _
        rw [h.errors]
        exact ofNat_sum_update f i w (fun w => w.outcomes.count false) _ hfalse

/-- The requests of a worker for one tenant. -/
def Worker.share (w : Worker) (t : ℕ) : ℕ := (w.requests.map Prod.snd).count t

theorem Paced.rotates (h : Paced p l) :
    Rotates p.tenants.toNat (l.worker.requests.map Prod.snd) := by
  intro k t ht
  rw [List.getElem?_map] at ht
  obtain ⟨r, hr, rfl⟩ := Option.map_eq_some_iff.mp ht
  exact (h.onTick k r hr).2.1

/-- A request has ended, or it is the one under way. -/
theorem Paced.sent_eq (h : Paced p l) : l.worker.requests.length
    = l.worker.outcomes.count true + l.worker.outcomes.count false
      + if l.worker.phase = .sending then 1 else 0 := by
  rw [h.requests_length, ← h.outcomes_length, List.count_true_add_count_false]

theorem report_eq {args : Args} {m : MetricsReport} (h : f.report args = some m) :
    (∀ i, (f.workers i).phase = .done) ∧
      m = ⟨args.rps, f.totalRequests, f.totalErrors⟩ := by
  obtain ⟨hdone, hm⟩ := (Option.ite_none_right_eq_some).mp h
  exact ⟨hdone, (Option.some.inj hm).symm⟩

/-- **The accounts of a fleet.**  Whatever the workers' steps and the clock do: the counters are
the successes and the failures; each worker has served the tenants in rotation, and no tenant
is ahead of another by more requests than there are workers; and the report's two counts are
all the requests that were sent, while these are less than `2 ^ 64`. -/
theorem fleet_accounts {clock : ℕ} (hrun : run (Fleet.step p) (Fleet.init n clock) es = some f) :
    Counted f ∧
      (∀ i t, t < p.tenants.toNat → (f.workers i).share t
        = (f.workers i).requests.length / p.tenants.toNat
          + if t < (f.workers i).requests.length % p.tenants.toNat then 1 else 0) ∧
      (∀ t u, t < p.tenants.toNat → u < p.tenants.toNat →
        ∑ i, (f.workers i).share t ≤ ∑ i, (f.workers i).share u + n) ∧
      ∀ args m, f.report args = some m → f.sent < 2 ^ 64 →
        m.totalRequests.toNat + m.errors.toNat = f.sent := by
  have hpaced := Fleet.paced hrun
  have hcounted : Counted f :=
    run_invariant (P := fun _ _ _ => True) (fun _ _ _ h _ hstep => h.step hstep)
      (Counted.init clock) (eachStep_of_forall fun _ _ _ _ => trivial) hrun
  refine ⟨hcounted, ?_, ?_, ?_⟩
  · intro i t ht
    have hcount := (hpaced i).rotates.count ht
    rw [List.length_map] at hcount
    exact hcount
  · intro t u ht hu
    calc ∑ i, (f.workers i).share t ≤ ∑ i, ((f.workers i).share u + 1) :=
          Finset.sum_le_sum fun i _ => (hpaced i).rotates.count_le_succ ht hu
      _ = ∑ i, (f.workers i).share u + n := by
          rw [Finset.sum_add_distrib, Finset.sum_const, Finset.card_univ, Fintype.card_fin,
            smul_eq_mul, Nat.mul_one]
  · intro args m hm hlt
    obtain ⟨hdone, rfl⟩ := report_eq hm
    have hsent : f.sent = ∑ i, (f.workers i).outcomes.count true
        + ∑ i, (f.workers i).outcomes.count false := by
      rw [← Finset.sum_add_distrib]
      refine Finset.sum_congr rfl fun i _ => ?_
      have heq := (hpaced i).sent_eq
      rw [show (f.lane i).worker.phase = .done from hdone i, if_neg nofun, Nat.add_zero] at heq
      exact heq
    show f.totalRequests.toNat + f.totalErrors.toNat = f.sent
    rw [hcounted.requests, hcounted.errors, UInt64.toNat_ofNat', UInt64.toNat_ofNat',
      Nat.mod_eq_of_lt (by omega), Nat.mod_eq_of_lt (by omega), hsent]

theorem fleet_accounts_two :
    ∃ f : Fleet 2, run (Fleet.step ⟨1, 1, 3⟩) (Fleet.init 2 0) twoWorkers = some f ∧
      f.report twoCpus = some ⟨2, 1, 1⟩ ∧ f.sent = 2 ∧ Counted f := by
  obtain ⟨f, hf, hreport, hsent⟩ := run_twoWorkers
  exact ⟨f, hf, hreport, hsent, (fleet_accounts hf).1⟩

/-! ### A report is in reach -/

/-- A worker's own event, in the fleet. -/
def LaneEvent.inFleet (i : Fin n) : LaneEvent → FleetEvent n
  | .tick d => .tick d
  | .act a => .act i a

/-- A worker that has panicked stays so. -/
theorem Lane.run_panicked {l' : Lane} {es : List LaneEvent} (hl : l.worker.phase = .panicked)
    (hrun : run (Lane.step p) l es = some l') : l'.worker.phase = .panicked := by
  refine run_invariant (P := fun _ _ _ => True) (I := fun l => l.worker.phase = .panicked) ?_ hl
    (eachStep_of_forall fun _ _ _ _ => trivial) hrun
  intro l e l' hphase _ hstep
  cases e with
  | tick d =>
      obtain ⟨-, rfl⟩ := Lane.step_tick hstep
      exact hphase
  | act a =>
      obtain ⟨w, hw, rfl⟩ := Option.map_eq_some_iff.mp hstep
      cases a with
      | start | arm | check | send | finish success | wake => simp [Worker.step, hphase] at hw

/-- **What one worker can do it can do in the fleet**, unless it panics; the others stay where
they are. -/
theorem Fleet.run_lane {i : Fin n} {es : List LaneEvent} {l' : Lane} (f : Fleet n)
    (halive : f.Alive) (hrun : run (Lane.step p) (f.lane i) es = some l')
    (hend : l'.worker.phase ≠ .panicked) :
    ∃ f', run (Fleet.step p) f (es.map (LaneEvent.inFleet i)) = some f' ∧ f'.lane i = l' ∧
      (∀ j, i ≠ j → f'.workers j = f.workers j) ∧ f'.Alive := by
  induction es generalizing f with
  | nil =>
      cases hrun
      exact ⟨f, rfl, rfl, fun _ _ => rfl, halive⟩
  | cons e es ih =>
      obtain ⟨l₁, hstep, hrest⟩ := run_cons.mp hrun
      have hl₁ : l₁.worker.phase ≠ .panicked := fun hphase => hend (Lane.run_panicked hphase hrest)
      obtain ⟨f₁, hf₁, hview, hothers, halive₁⟩ : ∃ f₁, f.step p (e.inFleet i) = some f₁ ∧
          f₁.lane i = l₁ ∧ (∀ j, i ≠ j → f₁.workers j = f.workers j) ∧ f₁.Alive := by
        cases e with
        | tick d =>
            obtain ⟨hlt, rfl⟩ := Lane.step_tick hstep
            exact ⟨_, if_pos hlt, rfl, fun _ _ => rfl, halive⟩
        | act a =>
            obtain ⟨w, hw, rfl⟩ := Option.map_eq_some_iff.mp hstep
            have hw' : (f.workers i).step p f.clock a = some w := hw
            refine ⟨_, (if_pos halive).trans (Option.map_eq_some_iff.mpr ⟨w, hw', rfl⟩), ?_, ?_, ?_⟩
            · simp [Fleet.lane]
            · intro j hij
              exact Function.update_of_ne (Ne.symm hij) _ _
            · intro j
              show (Function.update f.workers i w j).phase ≠ .panicked
              by_cases hij : j = i
              · rw [hij, Function.update_self]
                exact hl₁
              · rw [Function.update_of_ne hij]
                exact halive j
      rw [← hview] at hrest
      obtain ⟨f', hf', hview', hothers', halive'⟩ := ih f₁ halive₁ hrest
      exact ⟨f', run_cons.mpr ⟨f₁, hf₁, hf'⟩, hview',
        fun j hij => (hothers' j hij).trans (hothers j hij), halive'⟩

/-- Nothing that a started worker still adds up is beyond what an `Instant` holds. -/
structure Fits (p : Plan) (l : Lane) : Prop where
  clock_lt : l.clock < instantLimit
  started : l.worker.phase ≠ .spawned
  alive : l.worker.phase ≠ .panicked
  deadline_lt : l.worker.deadline < instantLimit
  next_lt : l.worker.phase = .chosen ∨ l.worker.phase = .sending →
    l.worker.nextTick + p.interval < instantLimit
  tick_lt : l.worker.phase = .waiting → l.worker.nextTick < instantLimit

/-- The worker has come to its end. -/
structure Ended (l : Lane) : Prop where
  phase_eq : l.worker.phase = .done
  clock_lt : l.clock < instantLimit
  deadline_lt : l.worker.deadline < instantLimit

theorem Ended.fits (h : Ended l) : Fits p l where
  clock_lt := h.clock_lt
  started := by simp [h.phase_eq]
  alive := by simp [h.phase_eq]
  deadline_lt := h.deadline_lt
  next_lt := by simp [h.phase_eq]
  tick_lt := by simp [h.phase_eq]

/-- The worker can come to its end by so many events, whatever the others do not do. -/
def Lane.CanEnd (p : Plan) (k : ℕ) (l : Lane) : Prop :=
  ∃ es l', es.length ≤ k ∧ run (Lane.step p) l es = some l' ∧ Ended l'

/-- Time up to a reading of the clock that is still to come. -/
theorem Lane.CanEnd.until {k t : ℕ} (hclock : l.clock < instantLimit) (ht : t < instantLimit)
    (h : Lane.CanEnd p k { l with clock := max l.clock t }) : Lane.CanEnd p (k + 1) l := by
  obtain ⟨es, l', hlength, hrun, hend⟩ := h
  have hsum : l.clock + (t - l.clock) = max l.clock t := by omega
  have hlt : l.clock + (t - l.clock) < instantLimit := by omega
  refine ⟨.tick (t - l.clock) :: es, l', Nat.succ_le_succ hlength, run_cons.mpr ⟨_, ?_, hrun⟩, hend⟩
  rw [Lane.step, if_pos hlt, hsum]

theorem Lane.CanEnd.act {k : ℕ} {a : Act} {w : Worker}
    (hstep : l.worker.step p l.clock a = some w) (h : Lane.CanEnd p k { l with worker := w }) :
    Lane.CanEnd p (k + 1) l := by
  obtain ⟨es, l', hlength, hrun, hend⟩ := h
  have hact : l.step p (.act a) = some { l with worker := w } := by
    show (l.worker.step p l.clock a).map _ = _
    rw [hstep, Option.map_some]
  exact ⟨.act a :: es, l', Nat.succ_le_succ hlength, run_cons.mpr ⟨_, hact, hrun⟩, hend⟩

/-- At the head of the loop it takes no more than time. -/
theorem Lane.canEnd_head (hphase : l.worker.phase = .head) (hclock : l.clock < instantLimit)
    (hdeadline : l.worker.deadline < instantLimit) : Lane.CanEnd p 2 l := by
  refine Lane.CanEnd.until hclock hdeadline (Lane.CanEnd.act (a := .check) (if_pos hphase) ?_)
  refine ⟨[], _, Nat.le_refl 0, rfl, if_neg ?_, Nat.max_lt.mpr ⟨hclock, hdeadline⟩, hdeadline⟩
  exact Nat.not_lt.mpr (Nat.le_max_right _ _)

theorem Lane.canEnd_waiting (hphase : l.worker.phase = .waiting) (hclock : l.clock < instantLimit)
    (hdeadline : l.worker.deadline < instantLimit) (htick : l.worker.nextTick < instantLimit) :
    Lane.CanEnd p 4 l :=
  Lane.CanEnd.until hclock htick <|
    Lane.CanEnd.act (a := .wake) (if_pos ⟨hphase, Nat.le_max_right _ _⟩)
      (Lane.canEnd_head rfl (Nat.max_lt.mpr ⟨hclock, htick⟩) hdeadline)

theorem Lane.canEnd_sending (hphase : l.worker.phase = .sending) (hclock : l.clock < instantLimit)
    (hdeadline : l.worker.deadline < instantLimit)
    (hnext : l.worker.nextTick + p.interval < instantLimit) : Lane.CanEnd p 5 l :=
  Lane.CanEnd.act (a := .finish true) (if_pos hphase)
    (Lane.canEnd_waiting (if_pos hnext) hclock hdeadline hnext)

theorem Lane.CanEnd.mono {j k : ℕ} (hjk : j ≤ k) (h : Lane.CanEnd p j l) : Lane.CanEnd p k l := by
  obtain ⟨es, l', hlength, hrun⟩ := h
  exact ⟨es, l', Nat.le_trans hlength hjk, hrun⟩

/-- **A worker that has started can come to its end**, where all sums fit. -/
theorem Lane.canEnd (h : Fits p l) : Lane.CanEnd p 6 l := by
  have hclock := h.clock_lt
  have hdeadline := h.deadline_lt
  cases hphase : l.worker.phase with
  | spawned => exact absurd hphase h.started
  | armed =>
      exact (Lane.CanEnd.act (a := .arm) (if_pos hphase)
        (Lane.canEnd_head rfl hclock hdeadline)).mono (by omega)
  | head => exact (Lane.canEnd_head hphase hclock hdeadline).mono (by omega)
  | chosen =>
      exact Lane.CanEnd.act (a := .send) (if_pos hphase)
        (Lane.canEnd_sending rfl hclock hdeadline (h.next_lt (Or.inl hphase)))
  | sending =>
      exact (Lane.canEnd_sending hphase hclock hdeadline (h.next_lt (Or.inr hphase))).mono
        (by omega)
  | waiting =>
      exact (Lane.canEnd_waiting hphase hclock hdeadline (h.tick_lt hphase)).mono (by omega)
  | done => exact ⟨[], l, Nat.zero_le _, rfl, hphase, hclock, hdeadline⟩
  | panicked => exact absurd hphase h.alive

/-- The sums of a worker do not depend on the clock any more. -/
theorem Fits.of_worker (h : Fits p l) (hworker : l'.worker = l.worker)
    (hclock : l'.clock < instantLimit) : Fits p l' where
  clock_lt := hclock
  started := hworker ▸ h.started
  alive := hworker ▸ h.alive
  deadline_lt := hworker ▸ h.deadline_lt
  next_lt := hworker ▸ h.next_lt
  tick_lt := hworker ▸ h.tick_lt

/-- The workers of a list come to their ends, one after the other. -/
theorem Fleet.end_workers (is : List (Fin n)) (f : Fleet n) (halive : f.Alive)
    (hfits : ∀ i, Fits p (f.lane i)) :
    ∃ es f', es.length ≤ 6 * is.length ∧ run (Fleet.step p) f es = some f' ∧
      ∀ i, i ∈ is ∨ (f.workers i).phase = .done → (f'.workers i).phase = .done := by
  induction is generalizing f with
  | nil => exact ⟨[], f, Nat.zero_le _, rfl, fun i hi => hi.resolve_left List.not_mem_nil⟩
  | cons i is ih =>
      obtain ⟨es₁, l', hlength₁, hrun₁, hend⟩ := Lane.canEnd (hfits i)
      obtain ⟨f₁, hf₁, hview, hothers, halive₁⟩ :=
        f.run_lane halive hrun₁ (by rw [hend.phase_eq]; decide)
      have hdone₁ : (f₁.workers i).phase = .done := by
        rw [← hend.phase_eq, ← hview]
        rfl
      have hfits₁ : ∀ j, Fits p (f₁.lane j) := by
        intro j
        by_cases hij : i = j
        · rw [← hij, hview]
          exact hend.fits
        · refine (hfits j).of_worker (hothers j hij) ?_
          have hclock : f₁.clock = l'.clock := congrArg Lane.clock hview
          show f₁.clock < instantLimit
          rw [hclock]
          exact hend.clock_lt
      obtain ⟨es₂, f₂, hlength₂, hrun₂, hall⟩ := ih f₁ halive₁ hfits₁
      refine ⟨es₁.map (LaneEvent.inFleet i) ++ es₂, f₂, ?_, ?_, fun j hj => hall j ?_⟩
      · rw [List.length_append, List.length_map, List.length_cons]
        omega
      · rw [run_append, hf₁]
        exact hrun₂
      · by_cases hij : i = j
        · exact Or.inr (hij ▸ hdone₁)
        · rw [hothers j hij]
          exact hj.imp_left fun hin => (List.mem_cons.mp hin).resolve_left (Ne.symm hij)

/-- The workers of a list start, with no time in between. -/
theorem Fleet.start_workers (is : List (Fin n)) (f : Fleet n) (halive : f.Alive)
    (hroom : f.clock + p.nanos < instantLimit) :
    ∃ es f', es.length ≤ is.length ∧ run (Fleet.step p) f es = some f' ∧ f'.Alive ∧
      f'.clock = f.clock ∧ ∀ i, (f'.workers i).phase = .spawned →
        i ∉ is ∧ (f.workers i).phase = .spawned := by
  induction is generalizing f with
  | nil => exact ⟨[], f, Nat.le_refl 0, rfl, halive, rfl, fun i hi => ⟨List.not_mem_nil, hi⟩⟩
  | cons i is ih =>
      by_cases hphase : (f.workers i).phase = .spawned
      · have hrun : run (Lane.step p) (f.lane i) [.act .start] = some ⟨f.clock,
            { f.workers i with
              phase := if f.clock + p.nanos < instantLimit then .armed else .panicked
              deadline := f.clock + p.nanos }⟩ :=
          run_cons.mpr ⟨_, congrArg (Option.map _) (if_pos hphase), rfl⟩
        obtain ⟨f₁, hf₁, hview, hothers, halive₁⟩ :=
          f.run_lane halive hrun (by simp [hroom])
        have hclock₁ : f₁.clock = f.clock := congrArg Lane.clock hview
        have harmed : (f₁.workers i).phase = .armed :=
          (congrArg (fun l => l.worker.phase) hview).trans (if_pos hroom)
        obtain ⟨es₂, f₂, hlength₂, hrun₂, halive₂, hclock₂, hall⟩ :=
          ih f₁ halive₁ (by rw [hclock₁]; exact hroom)
        refine ⟨.act i .start :: es₂, f₂, Nat.succ_le_succ hlength₂, ?_, halive₂,
          hclock₂.trans hclock₁, fun j hj => ?_⟩
        · rw [List.map_cons, List.map_nil] at hf₁
          rw [← List.singleton_append, run_append]
          exact (congrArg (Option.bind · _) hf₁).trans hrun₂
        · obtain ⟨hnot, hspawned⟩ := hall j hj
          by_cases hij : i = j
          · rw [← hij, harmed] at hspawned
            cases hspawned
          · rw [hothers j hij] at hspawned
            exact ⟨fun hin => (List.mem_cons.mp hin).elim (fun h => hij h.symm) hnot, hspawned⟩
      · obtain ⟨es, f', hlength, hrun, halive', hclock, hall⟩ := ih f halive hroom
        refine ⟨es, f', Nat.le_succ_of_le hlength, hrun, halive', hclock, fun j hj => ?_⟩
        obtain ⟨hnot, hspawned⟩ := hall j hj
        refine ⟨fun hin => ?_, hspawned⟩
        rcases List.mem_cons.mp hin with rfl | hin
        · exact hphase hspawned
        · exact hnot hin

/-- All sums fit, once the worker has started, if the duration and an interval are left. -/
theorem Paced.fits (h : Paced p l) (hroom : l.clock + p.nanos + p.interval < instantLimit)
    (hstarted : l.worker.phase ≠ .spawned) : Fits p l := by
  have hdeadline := h.deadline_le hstarted
  have halive : l.worker.phase ≠ .panicked := fun hphase => by
    have hle := h.panicked_le hphase
    omega
  exact
    { clock_lt := by omega
      started := hstarted
      alive := halive
      deadline_lt := h.deadline_lt hstarted halive
      next_lt := fun hphase => by
        have hopen := h.open_tick hphase
        omega
      tick_lt := h.tick_lt }

/-- **A report is in reach from every state** that is an interval and the duration away from the
end of what an `Instant` holds, by seven events for each worker at most: nobody has panicked, and
no order of the steps and no lost time can keep the workers from their ends. -/
theorem fleet_can_report (args : Args) {clock : ℕ}
    (hrun : run (Fleet.step p) (Fleet.init n clock) es = some f)
    (hroom : f.clock + p.nanos + p.interval < instantLimit) :
    f.Alive ∧ ∃ es' f' m, es'.length ≤ 7 * n ∧ run (Fleet.step p) f es' = some f' ∧
      f'.report args = some m := by
  have halive : f.Alive := by
    intro i hphase
    have hle : instantLimit ≤ f.clock + p.nanos + p.interval :=
      (Fleet.paced hrun i).panicked_le hphase
    omega
  refine ⟨halive, ?_⟩
  obtain ⟨es₁, f₁, hlength₁, hrun₁, halive₁, hclock₁, hstarted⟩ :=
    Fleet.start_workers (p := p) (List.finRange n) f halive (by omega)
  have hboth : run (Fleet.step p) (Fleet.init n clock) (es ++ es₁) = some f₁ := by
    rw [run_append, hrun]
    exact hrun₁
  have hpaced₁ := Fleet.paced hboth
  have hfits : ∀ i, Fits p (f₁.lane i) := fun i => (hpaced₁ i).fits
    (by
      show f₁.clock + p.nanos + p.interval < instantLimit
      omega)
    fun hphase => (hstarted i hphase).1 (List.mem_finRange i)
  obtain ⟨es₂, f₂, hlength₂, hrun₂, hall⟩ :=
    Fleet.end_workers (List.finRange n) f₁ halive₁ hfits
  rw [List.length_finRange] at hlength₁ hlength₂
  refine ⟨es₁ ++ es₂, f₂, _, ?_, ?_, if_pos fun i => hall i (Or.inl (List.mem_finRange i))⟩
  · rw [List.length_append]
    omega
  · rw [run_append, hrun₁]
    exact hrun₂

/-- In the middle of a run, with a request under way. -/
theorem fleet_can_report_sending :
    ∃ f : Fleet 2, run (Fleet.step ⟨1, 1, 3⟩) (Fleet.init 2 0) (twoWorkers.take 8) = some f ∧
      (f.workers 0).phase = .sending ∧ ∃ es' f' m, es'.length ≤ 14 ∧
        run (Fleet.step ⟨1, 1, 3⟩) f es' = some f' ∧ f'.report twoCpus = some m := by
  have hstate : (run (Fleet.step ⟨1, 1, 3⟩) (Fleet.init 2 0) (twoWorkers.take 8)).map
      (fun f => (f.clock, (f.workers 0).phase)) = some (5, .sending) := by decide +kernel
  obtain ⟨f, hf, hpair⟩ := Option.map_eq_some_iff.mp hstate
  have hclock : f.clock = 5 := congrArg Prod.fst hpair
  obtain ⟨-, hreport⟩ := fleet_can_report twoCpus hf (by rw [hclock]; decide)
  exact ⟨f, hf, congrArg Prod.snd hpair, hreport⟩

end NexusCore.LoadGen
