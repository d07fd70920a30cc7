import Mathlib

/-!
# The load generator's workers

`main` starts one worker for each CPU, at most as many as there are tenants, and shares the
requests per second among them.  A worker sends to its tenants in turn until its deadline; after
each request it moves its next tick by one interval and waits for it, so a request that takes
long is made up for.

A `Lane` is the clock and one worker.  The times are nanoseconds of one monotonic clock; any
amount of it may pass between two steps, up to what an `Instant` holds, and a sum of an
`Instant` and a `Duration` that is beyond it panics.  `Paced` is what holds of a worker in every
state, of its `k`-th request in particular: `Paced.step` is the step lemma.
-/

namespace NexusCore.LoadGen

/-! ### The command line -/

structure Args where
  rps : UInt64
  tenants : UInt32
  duration : UInt64
  payloadBytes : ℕ
  operation : String
  deriving DecidableEq, Repr

/-- The lines of `/proc/cpuinfo` that begin with `processor`, one at least. -/
def numCpus (cpuinfo : List (List Char)) : ℕ :=
  max (cpuinfo.countP fun l => "processor".toList.isPrefixOf l) 1

def workerCount (ncpus : ℕ) (args : Args) : ℕ := min ncpus args.tenants.toNat

/-- `None` where the division by the number of workers panics. -/
def rpsPerWorker (ncpus : ℕ) (args : Args) : Option UInt64 :=
  if workerCount ncpus args = 0 then none
  else some (max (args.rps / UInt64.ofNat (workerCount ncpus args)) 1)

/-- What `main` gives to each `run_worker`. -/
structure Plan where
  rps : UInt64
  duration : UInt64
  tenants : UInt32
  deriving DecidableEq, Repr

def Args.plan (ncpus : ℕ) (args : Args) : Option Plan :=
  (rpsPerWorker ncpus args).map fun rps => ⟨rps, args.duration, args.tenants⟩

/-- `Duration::from_nanos(1_000_000_000 / rps)`. -/
def Plan.interval (p : Plan) : ℕ := (1000000000 / p.rps).toNat

/-- `Duration::from_secs`, in nanoseconds. -/
def Plan.nanos (p : Plan) : ℕ := p.duration.toNat * 1000000000

/-- An `Instant` holds its seconds in an `i64`: `2 ^ 63` seconds are too many. -/
def instantLimit : ℕ := 9223372036854775808000000000

/-! ### One worker -/

inductive Phase
  | spawned
  /-- the deadline is set, the first tick is not -/
  | armed
  /-- at the head of the loop -/
  | head
  /-- within the loop, before the request -/
  | chosen
  /-- the request is under way -/
  | sending
  /-- until the next tick -/
  | waiting
  | done
  /-- a sum of an `Instant` and a `Duration` was beyond what an `Instant` holds -/
  | panicked
  deriving DecidableEq, Repr

/-- `began` is the first tick, `requests` lists the requests with their start and tenant, and
`outcomes` says of those that ended whether they succeeded; these are kept for the statements. -/
structure Worker where
  phase : Phase
  deadline : ℕ
  nextTick : ℕ
  reqCount : ℕ
  began : ℕ
  requests : List (ℕ × ℕ)
  outcomes : List Bool
  deriving DecidableEq, Repr

def Worker.init : Worker := ⟨.spawned, 0, 0, 0, 0, [], []⟩

inductive Act
  /-- `Instant::now() + duration` -/
  | start
  /-- the first `next_tick` -/
  | arm
  /-- the test of the loop -/
  | check
  /-- `t0`, and the request -/
  | send
  /-- the answer to the request, or its failure -/
  | finish (success : Bool)
  /-- a reading of the clock that is not before the next tick -/
  | wake
  deriving DecidableEq, Repr

def Worker.step (p : Plan) (now : ℕ) (w : Worker) : Act → Option Worker
  | .start =>
      if w.phase = .spawned then
        some { w with
          phase := if now + p.nanos < instantLimit then .armed else .panicked
          deadline := now + p.nanos }
      else none
  | .arm =>
      if w.phase = .armed then some { w with phase := .head, nextTick := now, began := now }
      else none
  | .check =>
      if w.phase = .head then
        some { w with phase := if now < w.deadline then .chosen else .done }
      else none
  | .send =>
      if w.phase = .chosen then
        some { w with
          phase := .sending
          requests := w.requests ++ [(now, w.reqCount % p.tenants.toNat)] }
      else none
  | .finish success =>
      if w.phase = .sending then
        -- the counters have gone up by the time `next_tick += interval` can panic
        some { w with
          phase := if w.nextTick + p.interval < instantLimit then .waiting else .panicked
          reqCount := w.reqCount + 1
          nextTick := w.nextTick + p.interval
          outcomes := w.outcomes ++ [success] }
      else none
  | .wake =>
      if w.phase = .waiting ∧ w.nextTick ≤ now then some { w with phase := .head } else none

/-- What concerns one worker. -/
inductive LaneEvent
  | tick (d : ℕ)
  | act (a : Act)
  deriving DecidableEq, Repr

/-- The clock, and one worker. -/
structure Lane where
  clock : ℕ
  worker : Worker

def Lane.step (p : Plan) (l : Lane) : LaneEvent → Option Lane
  | .tick d => if l.clock + d < instantLimit then some { l with clock := l.clock + d } else none
  | .act a => (l.worker.step p l.clock a).map fun w => { l with worker := w }

/-! ### A worker keeps to its ticks -/

/-- The `k`-th request: not before its tick, to the `k`-th tenant in turn, and its tick is
before the deadline. -/
def OnTick (p : Plan) (began deadline k : ℕ) (r : ℕ × ℕ) : Prop :=
  began + k * p.interval ≤ r.1 ∧ r.2 = k % p.tenants.toNat ∧ began + k * p.interval < deadline

/-- A worker whose first tick is set. -/
def Worker.Begun (w : Worker) : Prop :=
  w.requests ≠ [] ∨ w.phase ≠ .spawned ∧ w.phase ≠ .armed ∧ w.phase ≠ .panicked

/-- What holds of a worker in every state. -/
structure Paced (p : Plan) (l : Lane) : Prop where
  deadline_le : l.worker.phase ≠ .spawned → l.worker.deadline ≤ l.clock + p.nanos
  deadline_lt : l.worker.phase ≠ .spawned → l.worker.phase ≠ .panicked →
    l.worker.deadline < instantLimit
  deadline_began : l.worker.Begun → l.worker.deadline ≤ l.worker.began + p.nanos
  tick_eq : l.worker.nextTick = l.worker.began + l.worker.reqCount * p.interval
  due : l.worker.phase = .head ∨ l.worker.phase = .chosen → l.worker.nextTick ≤ l.clock
  open_tick : l.worker.phase = .chosen ∨ l.worker.phase = .sending →
    l.worker.nextTick < l.worker.deadline
  tick_lt : l.worker.phase = .waiting → l.worker.nextTick < instantLimit
  panicked_le : l.worker.phase = .panicked → instantLimit ≤ l.clock + p.nanos + p.interval
  outcomes_length : l.worker.outcomes.length = l.worker.reqCount
  requests_length : l.worker.requests.length
    = l.worker.reqCount + if l.worker.phase = .sending then 1 else 0
  onTick : ∀ k r, l.worker.requests[k]? = some r →
    OnTick p l.worker.began l.worker.deadline k r
  unbegun : l.worker.phase = .spawned ∨ l.worker.phase = .armed →
    l.worker.reqCount = 0 ∧ l.worker.nextTick = 0 ∧ l.worker.began = 0

variable {p : Plan} {l l' : Lane} {e : LaneEvent} {w w' : Worker} {now : ℕ}

theorem Paced.init (clock : ℕ) : Paced p ⟨clock, Worker.init⟩ where
  deadline_le := fun h => absurd rfl h
  deadline_lt := fun h => absurd rfl h
  deadline_began := by
    rintro (hreq | hphase)
    · exact absurd rfl hreq
    · exact absurd rfl hphase.1
  tick_eq := by simp [Worker.init]
  due := by simp [Worker.init]
  open_tick := by simp [Worker.init]
  tick_lt := nofun
  panicked_le := nofun
  outcomes_length := rfl
  requests_length := rfl
  onTick := by simp [Worker.init]
  unbegun := fun _ => ⟨rfl, rfl, rfl⟩

/-- Time passes. -/
theorem Paced.tick (h : Paced p l) (d : ℕ) : Paced p { l with clock := l.clock + d } :=
  { h with
    deadline_le := fun hphase => Nat.le_trans (h.deadline_le hphase) (by
      show l.clock + p.nanos ≤ l.clock + d + p.nanos
      omega)
    panicked_le := fun hphase => Nat.le_trans (h.panicked_le hphase) (by
      show l.clock + p.nanos + p.interval ≤ l.clock + d + p.nanos + p.interval
      omega)
    due := fun hphase => Nat.le_trans (h.due hphase) (Nat.le_add_right _ _) }

/-- A step taken in one phase. -/
theorem step_of_phase {c : Prop} [Decidable c] (h : (if c then some w' else none) = some w) :
    c ∧ w = w' := by
  by_cases hc : c
  · rw [if_pos hc] at h
    exact ⟨hc, (Option.some.inj h).symm⟩
  · rw [if_neg hc] at h
    cases h

/-- A worker that has not begun has sent nothing. -/
theorem Paced.requests_nil (h : Paced p l)
    (hphase : l.worker.phase = .spawned ∨ l.worker.phase = .armed) : l.worker.requests = [] := by
  have hlength := h.requests_length
  rw [(h.unbegun hphase).1] at hlength
  rcases hphase with hphase | hphase
  · rw [hphase] at hlength
    exact List.length_eq_zero_iff.mp hlength
  · rw [hphase] at hlength
    exact List.length_eq_zero_iff.mp hlength

theorem Paced.start (h : Paced p l) (hphase : l.worker.phase = .spawned) :
    Paced p { l with worker := { l.worker with
      phase := if l.clock + p.nanos < instantLimit then .armed else .panicked
      deadline := l.clock + p.nanos } } := by
  have hnil := h.requests_nil (Or.inl hphase)
  obtain ⟨hcount, hnext, hbegan⟩ := h.unbegun (Or.inl hphase)
  by_cases hfits : l.clock + p.nanos < instantLimit
  · rw [if_pos hfits]
    exact
      { deadline_le := fun _ => Nat.le_refl _
        deadline_lt := fun _ _ => hfits
        deadline_began := by
          rintro (hreq | hne)
          · exact absurd hnil hreq
          · exact absurd rfl hne.2.1
        tick_eq := h.tick_eq
        due := by simp
        open_tick := by simp
        tick_lt := nofun
        panicked_le := nofun
        outcomes_length := h.outcomes_length
        requests_length := by simp [hnil, hcount]
        onTick := by simp [hnil]
        unbegun := fun _ => ⟨hcount, hnext, hbegan⟩ }
  · rw [if_neg hfits]
    exact
      { deadline_le := fun _ => Nat.le_refl _
        deadline_lt := fun _ hne => absurd rfl hne
        deadline_began := by
          rintro (hreq | hne)
          · exact absurd hnil hreq
          · exact absurd rfl hne.2.2
        tick_eq := h.tick_eq
        due := by simp
        open_tick := by simp
        tick_lt := nofun
        panicked_le := fun _ => Nat.le_trans (Nat.not_lt.mp hfits) (Nat.le_add_right _ _)
        outcomes_length := h.outcomes_length
        requests_length := by simp [hnil, hcount]
        onTick := by simp [hnil]
        unbegun := by simp }

theorem Paced.arm (h : Paced p l) (hphase : l.worker.phase = .armed) :
    Paced p { l with worker :=
      { l.worker with phase := .head, nextTick := l.clock, began := l.clock } } := by
  have hnil := h.requests_nil (Or.inr hphase)
  have hcount := (h.unbegun (Or.inr hphase)).1
  exact
    { deadline_le := fun _ => h.deadline_le (by simp [hphase])
      deadline_lt := fun _ _ => h.deadline_lt (by simp [hphase]) (by simp [hphase])
      deadline_began := fun _ => h.deadline_le (by simp [hphase])
      tick_eq := by simp [hcount]
      due := fun _ => Nat.le_refl _
      open_tick := by simp
      tick_lt := nofun
      panicked_le := nofun
      outcomes_length := h.outcomes_length
      requests_length := by simp [hnil, hcount]
      onTick := by simp [hnil]
      unbegun := by simp }

theorem Paced.check (h : Paced p l) (hphase : l.worker.phase = .head) :
    Paced p { l with worker :=
      { l.worker with phase := if l.clock < l.worker.deadline then .chosen else .done } } := by
  have hlength := h.requests_length
  have hle := h.deadline_le (by simp [hphase])
  have hlt := h.deadline_lt (by simp [hphase]) (by simp [hphase])
  have hbegan := h.deadline_began (by simp [Worker.Begun, hphase])
  have hdue := h.due (Or.inl hphase)
  rw [hphase] at hlength
  by_cases hopen : l.clock < l.worker.deadline
  · rw [if_pos hopen]
    exact
      { deadline_le := fun _ => hle
        deadline_lt := fun _ _ => hlt
        deadline_began := fun _ => hbegan
        tick_eq := h.tick_eq
        due := fun _ => hdue
        open_tick := fun _ => Nat.lt_of_le_of_lt hdue hopen
        tick_lt := nofun
        panicked_le := nofun
        outcomes_length := h.outcomes_length
        requests_length := hlength
        onTick := h.onTick
        unbegun := by simp }
  · rw [if_neg hopen]
    exact
      { deadline_le := fun _ => hle
        deadline_lt := fun _ _ => hlt
        deadline_began := fun _ => hbegan
        tick_eq := h.tick_eq
        due := by simp
        open_tick := by simp
        tick_lt := nofun
        panicked_le := nofun
        outcomes_length := h.outcomes_length
        requests_length := hlength
        onTick := h.onTick
        unbegun := by simp }

/-- **A request is on its tick.** -/
theorem Paced.send (h : Paced p l) (hphase : l.worker.phase = .chosen) :
    Paced p { l with worker := { l.worker with
      phase := .sending
      requests := l.worker.requests ++ [(l.clock, l.worker.reqCount % p.tenants.toNat)] } } := by
  have hlength := h.requests_length
  have hdue := h.due (Or.inr hphase)
  have hopen := h.open_tick (Or.inl hphase)
  have htick := h.tick_eq
  rw [hphase] at hlength
  have hlength' : l.worker.requests.length = l.worker.reqCount := hlength
  exact
    { deadline_le := fun _ => h.deadline_le (by simp [hphase])
      deadline_lt := fun _ _ => h.deadline_lt (by simp [hphase]) (by simp [hphase])
      deadline_began := fun _ => h.deadline_began (by simp [Worker.Begun, hphase])
      tick_eq := htick
      due := by simp
      open_tick := fun _ => hopen
      tick_lt := nofun
      panicked_le := nofun
      outcomes_length := h.outcomes_length
      requests_length := by
        show (l.worker.requests ++ [_]).length = l.worker.reqCount + 1
        rw [List.length_append, hlength', List.length_singleton]
      onTick := by
        intro k r hr
        by_cases hk : k < l.worker.requests.length
        · rw [List.getElem?_append_left hk] at hr
          exact h.onTick k r hr
        · rw [List.getElem?_append_right (Nat.not_lt.mp hk)] at hr
          have hlast : k = l.worker.reqCount := by
            have hin := (List.getElem?_eq_some_iff.mp hr).1
            rw [List.length_singleton] at hin
            omega
          rw [hlast, hlength', Nat.sub_self, List.getElem?_cons_zero] at hr
          cases hr
          rw [hlast]
          refine ⟨?_, rfl, ?_⟩
          · show l.worker.began + l.worker.reqCount * p.interval ≤ l.clock
            omega
          · show l.worker.began + l.worker.reqCount * p.interval < l.worker.deadline
            omega
      unbegun := by simp }

theorem Paced.finish (h : Paced p l) (hphase : l.worker.phase = .sending) (success : Bool) :
    Paced p { l with worker := { l.worker with
      phase := if l.worker.nextTick + p.interval < instantLimit then .waiting else .panicked
      reqCount := l.worker.reqCount + 1
      nextTick := l.worker.nextTick + p.interval
      outcomes := l.worker.outcomes ++ [success] } } := by
  have hlength := h.requests_length
  have hle := h.deadline_le (by simp [hphase])
  have hlt := h.deadline_lt (by simp [hphase]) (by simp [hphase])
  have hbegan := h.deadline_began (by simp [Worker.Begun, hphase])
  have hopen := h.open_tick (Or.inr hphase)
  have htick : l.worker.nextTick + p.interval
      = l.worker.began + (l.worker.reqCount + 1) * p.interval := by
    rw [Nat.succ_mul, h.tick_eq, Nat.add_assoc]
  have houtcomes : (l.worker.outcomes ++ [success]).length = l.worker.reqCount + 1 := by
    rw [List.length_append, h.outcomes_length, List.length_singleton]
  rw [hphase] at hlength
  by_cases hfits : l.worker.nextTick + p.interval < instantLimit
  · rw [if_pos hfits]
    exact
      { deadline_le := fun _ => hle
        deadline_lt := fun _ _ => hlt
        deadline_began := fun _ => hbegan
        tick_eq := htick
        due := by simp
        open_tick := by simp
        tick_lt := fun _ => hfits
        panicked_le := nofun
        outcomes_length := houtcomes
        requests_length := hlength
        onTick := h.onTick
        unbegun := by simp }
  · rw [if_neg hfits]
    exact
      { deadline_le := fun _ => hle
        deadline_lt := fun _ hne => absurd rfl hne
        deadline_began := fun _ => hbegan
        tick_eq := htick
        due := by simp
        open_tick := by simp
        tick_lt := nofun
        panicked_le := fun _ => by
          show instantLimit ≤ l.clock + p.nanos + p.interval
          omega
        outcomes_length := houtcomes
        requests_length := hlength
        onTick := h.onTick
        unbegun := by simp }

theorem Paced.wake (h : Paced p l) (hphase : l.worker.phase = .waiting)
    (hnow : l.worker.nextTick ≤ l.clock) :
    Paced p { l with worker := { l.worker with phase := .head } } := by
  have hlength := h.requests_length
  rw [hphase] at hlength
  exact
    { deadline_le := fun _ => h.deadline_le (by simp [hphase])
      deadline_lt := fun _ _ => h.deadline_lt (by simp [hphase]) (by simp [hphase])
      deadline_began := fun _ => h.deadline_began (by simp [Worker.Begun, hphase])
      tick_eq := h.tick_eq
      due := fun _ => hnow
      open_tick := by simp
      tick_lt := nofun
      panicked_le := nofun
      outcomes_length := h.outcomes_length
      requests_length := hlength
      onTick := h.onTick
      unbegun := by simp }

/-- Time that passes, as long as the clock can be read. -/
theorem Lane.step_tick {d : ℕ} (hl : l.step p (.tick d) = some l') :
    l.clock + d < instantLimit ∧ l' = { l with clock := l.clock + d } := by
  obtain ⟨hlt, heq⟩ := Option.ite_none_right_eq_some.mp hl
  exact ⟨hlt, (Option.some.inj heq).symm⟩

/-- **One step keeps the pace.** -/
theorem Paced.step (h : Paced p l) (hl : l.step p e = some l') : Paced p l' := by
  cases e with
  | tick d =>
      obtain ⟨-, rfl⟩ := Lane.step_tick hl
      exact h.tick d
  | act a =>
      obtain ⟨w, hw, rfl⟩ := Option.map_eq_some_iff.mp hl
      cases a with
      | start =>
          obtain ⟨hphase, rfl⟩ := step_of_phase hw
          exact h.start hphase
      | arm =>
          obtain ⟨hphase, rfl⟩ := step_of_phase hw
          exact h.arm hphase
      | check =>
          obtain ⟨hphase, rfl⟩ := step_of_phase hw
          exact h.check hphase
      | send =>
          obtain ⟨hphase, rfl⟩ := step_of_phase hw
          exact h.send hphase
      | finish success =>
          obtain ⟨hphase, rfl⟩ := step_of_phase hw
          exact h.finish hphase success
      | wake =>
          obtain ⟨⟨hphase, hnow⟩, rfl⟩ := step_of_phase hw
          exact h.wake hphase hnow

end NexusCore.LoadGen
