import Mathlib

/-!
# The Day 5 latency probes

Four probes are attached to the entry and the return of `vfs_read` and `tcp_sendmsg`.  An
entry probe puts the time into `start_ts`; a return probe takes it out again, counts the
difference in a per-CPU histogram of power-of-two buckets and, for `vfs_read`, sends an event
through the ring buffer.  Both look up the process in `target_pids` first, and every map is
keyed by the process id, the upper half of `pid_tgid`.

`target_pids` does not change while the probes run; only its processes get an entry in
`start_ts`, which has the same capacity, so an update of `start_ts` never fails.
-/

namespace NexusCore.Probe

/-! ### The maps -/

/-- The number of slots of a histogram. -/
def maxBuckets : UInt32 := 64

def stackSurreal : UInt8 := 0

def opVfsRead : UInt8 := 0

/-- The per-CPU histograms. -/
inductive HistName
  | surrealRead
  | polyglotRead
  | tcpSend
  deriving DecidableEq, Repr

/-- A raw event of the ring buffer. -/
structure Event where
  pid : UInt32
  stack : UInt8
  op : UInt8
  pad : UInt16
  latencyNs : UInt64
  bytes : UInt64
  deriving DecidableEq, Repr

/-- The histogram counters by name, CPU and slot; the entry times by process; and the events
submitted so far. -/
structure Maps where
  hist : HistName → ℕ → UInt32 → UInt64
  startTs : UInt32 → Option UInt64
  events : List Event

/-- The maps as they are loaded. -/
def Maps.init : Maps := ⟨fun _ _ _ => 0, fun _ => none, []⟩

/-- The process filter: which processes are probed, and which stack each belongs to. -/
abbrev TargetPids := UInt32 → Option UInt8

/-- The process id of a thread. -/
def pidOf (pidTgid : UInt64) : UInt32 := (pidTgid >>> 32).toUInt32

/-! ### Histogram updates -/

/-- One unrolled stage of the logarithm: if the value reaches bit `k`, count `k` and shift. -/
def log2Stage (k : UInt64) (rv : UInt32 × UInt64) : UInt32 × UInt64 :=
  if (1 : UInt64) <<< k ≤ rv.2 then (rv.1 + k.toUInt32, rv.2 >>> k) else rv

def log2Bucket (v : UInt64) : UInt32 :=
  if v = 0 then 0 else
    let rv := log2Stage 2 (log2Stage 4 (log2Stage 8 (log2Stage 16 (log2Stage 32 (0, v)))))
    let r := if (1 : UInt64) <<< 1 ≤ rv.2 then rv.1 + 1 else rv.1
    if r < maxBuckets then r else maxBuckets - 1

/-- The counters with one of them increased. -/
def bump (hist : HistName → ℕ → UInt32 → UInt64) (name : HistName) (cpu : ℕ) (slot : UInt32) :
    HistName → ℕ → UInt32 → UInt64 := fun name' cpu' slot' =>
  if name' = name ∧ cpu' = cpu ∧ slot' = slot then hist name' cpu' slot' + 1
  else hist name' cpu' slot'

/-- An array map has an element for the slots below its size only. -/
def histUpdate (m : Maps) (name : HistName) (cpu : ℕ) (latencyNs : UInt64) : Maps :=
  let slot := log2Bucket latencyNs
  if slot < maxBuckets then { m with hist := bump m.hist name cpu slot } else m

theorem clamp_lt (r : UInt32) : (if r < maxBuckets then r else maxBuckets - 1) < maxBuckets := by
  by_cases h : r < maxBuckets
  · rwa [if_pos h]
  · rw [if_neg h]
    decide

theorem log2Bucket_lt (v : UInt64) : log2Bucket v < maxBuckets := by
  unfold log2Bucket
  by_cases hv : v = 0
  · rw [if_pos hv]
    decide
  · rw [if_neg hv]
    exact clamp_lt _

/-- The bucket always exists, so every update counts. -/
theorem histUpdate_eq (m : Maps) (name : HistName) (cpu : ℕ) (latencyNs : UInt64) :
    histUpdate m name cpu latencyNs
      = { m with hist := bump m.hist name cpu (log2Bucket latencyNs) } :=
  if_pos (log2Bucket_lt latencyNs)

/-- An update is seen in the counters. -/
theorem bump_ne (hist : HistName → ℕ → UInt32 → UInt64) (name : HistName) (cpu : ℕ)
    (slot : UInt32) : bump hist name cpu slot ≠ hist := by
  intro h
  have hslot : hist name cpu slot + 1 = hist name cpu slot := by
    have hat := congrFun (congrFun (congrFun h name) cpu) slot
    rwa [bump, if_pos ⟨rfl, rfl, rfl⟩] at hat
  exact absurd (UInt64.add_eq_left.mp hslot) (by decide)

/-! ### The probes -/

/-- What both entry probes do. -/
def probeEnter (targets : TargetPids) (m : Maps) (pidTgid ts : UInt64) : Maps :=
  let pid := pidOf pidTgid
  match targets pid with
  | none => m
  | some _ => { m with startTs := Function.update m.startTs pid (some ts) }

def probeVfsReadEnter : TargetPids → Maps → UInt64 → UInt64 → Maps := probeEnter

def probeTcpSendmsgEnter : TargetPids → Maps → UInt64 → UInt64 → Maps := probeEnter

/-- What both return probes do before they record the latency. -/
def probeExit (targets : TargetPids) (m : Maps) (pidTgid now : UInt64)
    (record : Maps → UInt32 → UInt8 → UInt64 → Maps) : Maps :=
  let pid := pidOf pidTgid
  match targets pid with
  | none => m
  | some stackType =>
      match m.startTs pid with
      | none => m
      | some start =>
          record { m with startTs := Function.update m.startTs pid none } pid stackType
            (now - start)

/-- The histogram of a `vfs_read`. -/
def readHist (stackType : UInt8) : HistName :=
  if stackType = stackSurreal then .surrealRead else .polyglotRead

/-- The event of a `vfs_read`. -/
def readEvent (pid : UInt32) (stackType : UInt8) (latency : UInt64) (ret : Int64) : Event :=
  ⟨pid, stackType, opVfsRead, 0, latency, if 0 < ret then ret.toUInt64 else 0⟩

/-- `reserved` says whether the ring buffer had room. -/
def probeVfsReadExit (targets : TargetPids) (m : Maps) (cpu : ℕ) (pidTgid now : UInt64)
    (ret : Int64) (reserved : Bool) : Maps :=
  probeExit targets m pidTgid now fun m pid stackType latency =>
    let m := histUpdate m (readHist stackType) cpu latency
    if reserved then { m with events := m.events ++ [readEvent pid stackType latency ret] } else m

def probeTcpSendmsgExit (targets : TargetPids) (m : Maps) (cpu : ℕ) (pidTgid now : UInt64) : Maps :=
  probeExit targets m pidTgid now fun m _ _ latency => histUpdate m .tcpSend cpu latency

end NexusCore.Probe
