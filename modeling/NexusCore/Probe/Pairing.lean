import NexusCore.Foundation.Transition
import NexusCore.Probe.Model

/-!
# Booking a latency to its call

Threads enter and leave the probed functions in any order.  A `World` holds the maps of the
probes and, as the truth to compare them with, the calls that are open.  A `Hit` is one
firing of a probe; a return is possible only for the innermost open call of its thread, and
the clock does not go back.

`BooksOwnCall` says of one step that a return is recorded once, with the time since the entry
of its own call, and that nothing else is recorded.  `start_ts` has one slot for a process, so
this is so when each call of a process is entered while no other one is open
(`EntersAlone`), and in runs in which every call returns it is so only then
(`probes_book_own_call`).
-/

namespace NexusCore.Probe

open Foundation.Transition

/-! ### The system -/

/-- The functions that are probed. -/
inductive ProbedFn
  | vfsRead
  | tcpSendmsg
  deriving DecidableEq, Repr

/-- A call that was entered and has not returned. -/
structure OpenCall where
  pidTgid : UInt64
  fn : ProbedFn
  entered : UInt64
  deriving DecidableEq, Repr

inductive Site
  | enter
  /-- the value returned, and whether the ring buffer has room for an event -/
  | exit (ret : Int64) (reserved : Bool)
  deriving DecidableEq

/-- A probe fires on a CPU, in a thread, at a time. -/
structure Hit where
  cpu : ℕ
  pidTgid : UInt64
  time : UInt64
  fn : ProbedFn
  site : Site

/-- The maps, the time of the last hit, and the open calls, the newest first. -/
structure World where
  maps : Maps
  clock : UInt64
  calls : List OpenCall

def World.init : World := ⟨Maps.init, 0, []⟩

/-- The innermost open call of a thread. -/
def World.innermost (w : World) (pidTgid : UInt64) : Option OpenCall :=
  w.calls.find? fun c => c.pidTgid = pidTgid

/-- The open calls of a process. -/
def World.openCalls (w : World) (pid : UInt32) : List OpenCall :=
  w.calls.filter fun c => pidOf c.pidTgid = pid

/-- The probe at the entry of a function. -/
def enterProbe : ProbedFn → TargetPids → Maps → UInt64 → UInt64 → Maps
  | .vfsRead => probeVfsReadEnter
  | .tcpSendmsg => probeTcpSendmsgEnter

/-- The probe at the return of a function. -/
def exitProbe (targets : TargetPids) (m : Maps) (e : Hit) (ret : Int64) (reserved : Bool) : Maps :=
  match e.fn with
  | .vfsRead => probeVfsReadExit targets m e.cpu e.pidTgid e.time ret reserved
  | .tcpSendmsg => probeTcpSendmsgExit targets m e.cpu e.pidTgid e.time

/-- A hit that the calls and the clock allow. -/
def World.step (targets : TargetPids) (w : World) (e : Hit) : Option World :=
  if e.time < w.clock then none else
    match e.site with
    | .enter => some
        { maps := enterProbe e.fn targets w.maps e.pidTgid e.time
          clock := e.time
          calls := ⟨e.pidTgid, e.fn, e.time⟩ :: w.calls }
    | .exit ret reserved =>
        match w.innermost e.pidTgid with
        | none => none
        | some call =>
            if call.fn = e.fn then some
              { maps := exitProbe targets w.maps e ret reserved
                clock := e.time
                calls := w.calls.eraseP fun c => c.pidTgid = e.pidTgid }
            else none

/-! ### The property and the condition -/

variable {targets : TargetPids} {w w' : World} {e : Hit} {ret : Int64} {reserved : Bool}

/-- The histogram in which the calls of a function are counted. -/
def histOf (stackType : UInt8) : ProbedFn → HistName
  | .vfsRead => readHist stackType
  | .tcpSendmsg => .tcpSend

/-- The events that a call gives rise to. -/
def ownEvents (pid : UInt32) (stackType : UInt8) (latency : UInt64) (ret : Int64)
    (reserved : Bool) : ProbedFn → List Event
  | .vfsRead => if reserved then [readEvent pid stackType latency ret] else []
  | .tcpSendmsg => []

/-- The maps record one call of the given latency, and only that. -/
def Records (m m' : Maps) (e : Hit) (stackType : UInt8) (latency : UInt64) (ret : Int64)
    (reserved : Bool) : Prop :=
  m'.hist = bump m.hist (histOf stackType e.fn) e.cpu (log2Bucket latency) ∧
  m'.events = m.events ++ ownEvents (pidOf e.pidTgid) stackType latency ret reserved e.fn

/-- A return in a target process is recorded once, with the time since its own call was
entered; no other hit is recorded. -/
def BooksOwnCall (targets : TargetPids) (w : World) (e : Hit) (w' : World) : Prop :=
  match e.site, targets (pidOf e.pidTgid) with
  | .exit ret reserved, some stackType =>
      ∃ call, w.innermost e.pidTgid = some call ∧ call.fn = e.fn ∧ call.entered ≤ e.time ∧
        Records w.maps w'.maps e stackType (e.time - call.entered) ret reserved
  | _, _ => w'.maps.hist = w.maps.hist ∧ w'.maps.events = w.maps.events

/-- A call of a target process is entered while no other call of the process is open. -/
def EntersAlone (targets : TargetPids) (w : World) (e : Hit) (_ : World) : Prop :=
  e.site = .enter → (targets (pidOf e.pidTgid)).isSome → w.openCalls (pidOf e.pidTgid) = []

instance : Decidable (EntersAlone targets w e w') := inferInstanceAs (Decidable (_ → _ → _))

/-! ### What one hit does -/

theorem World.step_enter (hsite : e.site = .enter) (h : w.step targets e = some w') :
    w.clock ≤ e.time ∧ w' =
      { maps := probeEnter targets w.maps e.pidTgid e.time
        clock := e.time
        calls := ⟨e.pidTgid, e.fn, e.time⟩ :: w.calls } := by
  have hprobe : enterProbe e.fn targets w.maps e.pidTgid e.time
      = probeEnter targets w.maps e.pidTgid e.time := by cases e.fn <;> rfl
  rw [World.step] at h
  by_cases hclock : e.time < w.clock
  · rw [if_pos hclock] at h
    cases h
  · rw [if_neg hclock, hsite, hprobe] at h
    cases h
    exact ⟨UInt64.not_lt.mp hclock, rfl⟩

theorem World.step_exit (hsite : e.site = .exit ret reserved) (h : w.step targets e = some w') :
    w.clock ≤ e.time ∧ ∃ call, w.innermost e.pidTgid = some call ∧ call.fn = e.fn ∧ w' =
      { maps := exitProbe targets w.maps e ret reserved
        clock := e.time
        calls := w.calls.eraseP fun c => c.pidTgid = e.pidTgid } := by
  rw [World.step] at h
  by_cases hclock : e.time < w.clock
  · rw [if_pos hclock] at h
    cases h
  · rw [if_neg hclock, hsite] at h
    cases hcall : w.innermost e.pidTgid with
    | none =>
        simp only [hcall] at h
        cases h
    | some call =>
        simp only [hcall] at h
        by_cases hfn : call.fn = e.fn
        · rw [if_pos hfn] at h
          cases h
          exact ⟨UInt64.not_lt.mp hclock, call, rfl, hfn, rfl⟩
        · rw [if_neg hfn] at h
          cases h

/-! ### What the probes leave in the maps -/

theorem probeEnter_records (m : Maps) (pidTgid ts : UInt64) :
    (probeEnter targets m pidTgid ts).hist = m.hist ∧
    (probeEnter targets m pidTgid ts).events = m.events := by
  cases ht : targets (pidOf pidTgid) with
  | none => simp only [probeEnter, ht, and_self]
  | some stackType => simp only [probeEnter, ht, and_self]

theorem probeEnter_startTs_self (m : Maps) {pidTgid : UInt64} (ts : UInt64)
    (ht : (targets (pidOf pidTgid)).isSome) :
    (probeEnter targets m pidTgid ts).startTs (pidOf pidTgid) = some ts := by
  obtain ⟨stackType, ht⟩ := Option.isSome_iff_exists.mp ht
  simp only [probeEnter, ht, Function.update_self]

theorem probeEnter_startTs_of_ne (m : Maps) {pidTgid : UInt64} (ts : UInt64) {pid : UInt32}
    (hpid : pid ≠ pidOf pidTgid) :
    (probeEnter targets m pidTgid ts).startTs pid = m.startTs pid := by
  cases ht : targets (pidOf pidTgid) with
  | none => simp only [probeEnter, ht]
  | some stackType => simp only [probeEnter, ht, Function.update_of_ne hpid]

theorem exitProbe_eq (m : Maps) (e : Hit) : ∃ record,
    exitProbe targets m e ret reserved = probeExit targets m e.pidTgid e.time record := by
  unfold exitProbe
  cases e.fn with
  | vfsRead => exact ⟨_, rfl⟩
  | tcpSendmsg => exact ⟨_, rfl⟩

/-- A process that is not probed, or has no entry time, leaves the maps alone. -/
theorem exitProbe_of_none {m : Maps}
    (h : targets (pidOf e.pidTgid) = none ∨ m.startTs (pidOf e.pidTgid) = none) :
    exitProbe targets m e ret reserved = m := by
  obtain ⟨record, heq⟩ := @exitProbe_eq targets ret reserved m e
  rw [heq, probeExit]
  cases ht : targets (pidOf e.pidTgid) with
  | none => rfl
  | some stackType =>
      rcases h with h | h
      · cases ht.symm.trans h
      · simp only [h]

/-- **A return with an entry time** takes it out and records the difference. -/
theorem exitProbe_of_start {m : Maps} {stackType : UInt8} {start : UInt64}
    (ht : targets (pidOf e.pidTgid) = some stackType)
    (hstart : m.startTs (pidOf e.pidTgid) = some start) :
    Records m (exitProbe targets m e ret reserved) e stackType (e.time - start) ret reserved ∧
    (exitProbe targets m e ret reserved).startTs
      = Function.update m.startTs (pidOf e.pidTgid) none := by
  unfold Records exitProbe
  cases hfn : e.fn with
  | tcpSendmsg =>
      simp only [probeTcpSendmsgExit, probeExit, ht, hstart, histUpdate_eq, histOf, ownEvents,
        List.append_nil, and_self]
  | vfsRead =>
      cases reserved with
      | true =>
          simp only [probeVfsReadExit, probeExit, ht, hstart, histUpdate_eq, histOf, ownEvents,
            if_true, and_self]
      | false =>
          simp only [probeVfsReadExit, probeExit, ht, hstart, histUpdate_eq, histOf, ownEvents,
            Bool.false_eq_true, if_false, List.append_nil, and_self]

theorem exitProbe_startTs_of_ne (m : Maps) {pid : UInt32} (hpid : pid ≠ pidOf e.pidTgid) :
    (exitProbe targets m e ret reserved).startTs pid = m.startTs pid := by
  cases ht : targets (pidOf e.pidTgid) with
  | none => rw [exitProbe_of_none (Or.inl ht)]
  | some stackType =>
      cases hstart : m.startTs (pidOf e.pidTgid) with
      | none => rw [exitProbe_of_none (Or.inr hstart)]
      | some start => rw [(exitProbe_of_start ht hstart).2, Function.update_of_ne hpid]

/-! ### Open calls of a process -/

theorem openCalls_enter (hsite : e.site = .enter) (h : w.step targets e = some w') (pid : UInt32) :
    w'.openCalls pid = if pid = pidOf e.pidTgid then ⟨e.pidTgid, e.fn, e.time⟩ :: w.openCalls pid
      else w.openCalls pid := by
  obtain ⟨-, rfl⟩ := w.step_enter hsite h
  simp only [World.openCalls, List.filter_cons, decide_eq_true_eq, @eq_comm _ pid]

/-- The call that returns is the one that leaves the list. -/
theorem innermost_perm {call : OpenCall} (h : w.innermost e.pidTgid = some call) :
    call.pidTgid = e.pidTgid ∧
    w.calls.Perm (call :: w.calls.eraseP fun c => c.pidTgid = e.pidTgid) := by
  obtain ⟨hthread, before, after, hcalls, hbefore⟩ := List.find?_eq_some_iff_append.mp h
  have hnot : ∀ c ∈ before, ¬ decide (c.pidTgid = e.pidTgid) = true := by
    intro c hc
    simpa using hbefore c hc
  have herase : (call :: after).eraseP (fun c => c.pidTgid = e.pidTgid) = after :=
    List.eraseP_cons_of_pos hthread
  refine ⟨of_decide_eq_true hthread, ?_⟩
  rw [hcalls, List.eraseP_append_right _ hnot, herase]
  exact List.perm_middle

theorem openCalls_exit (hsite : e.site = .exit ret reserved) (h : w.step targets e = some w') :
    ∃ call, w.innermost e.pidTgid = some call ∧ call.fn = e.fn ∧
      w'.maps = exitProbe targets w.maps e ret reserved ∧ ∀ pid, (w.openCalls pid).Perm
        (if pid = pidOf e.pidTgid then call :: w'.openCalls pid else w'.openCalls pid) := by
  obtain ⟨-, call, hcall, hfn, rfl⟩ := w.step_exit hsite h
  obtain ⟨hthread, hperm⟩ := innermost_perm hcall
  refine ⟨call, hcall, hfn, rfl, fun pid => ?_⟩
  have hfilter := hperm.filter fun c => decide (pidOf c.pidTgid = pid)
  simp only [List.filter_cons, decide_eq_true_eq, hthread] at hfilter
  simp only [World.openCalls, @eq_comm _ pid]
  exact hfilter

/-! ### Calls that are entered alone -/

/-- Each process that is probed has no open call, or one whose entry time is in its slot. -/
structure Paired (targets : TargetPids) (w : World) : Prop where
  entered_le : ∀ c ∈ w.calls, c.entered ≤ w.clock
  slot : ∀ pid, (targets pid).isSome → w.openCalls pid = [] ∨
    ∃ c, w.openCalls pid = [c] ∧ w.maps.startTs pid = some c.entered

theorem Paired.init : Paired targets World.init where
  entered_le := by
    intro c hc
    cases hc
  slot := fun _ _ => Or.inl rfl

theorem Paired.enter (h : Paired targets w) (hsite : e.site = .enter)
    (halone : EntersAlone targets w e w') (hw : w.step targets e = some w') :
    Paired targets w' := by
  have hopen := openCalls_enter hsite hw
  obtain ⟨hclock, rfl⟩ := w.step_enter hsite hw
  refine ⟨?_, ?_⟩
  · intro c hc
    rcases List.mem_cons.mp hc with rfl | hold
    · exact UInt64.le_refl _
    · exact UInt64.le_trans (h.entered_le c hold) hclock
  · intro pid ht
    rw [hopen pid]
    by_cases hpid : pid = pidOf e.pidTgid
    · subst hpid
      rw [if_pos rfl, halone hsite ht, probeEnter_startTs_self w.maps e.time ht]
      exact Or.inr ⟨_, rfl, rfl⟩
    · rw [if_neg hpid]
      rcases h.slot pid ht with hnone | ⟨c, hone, hstart⟩
      · exact Or.inl hnone
      · refine Or.inr ⟨c, hone, ?_⟩
        rw [← hstart]
        exact probeEnter_startTs_of_ne w.maps e.time hpid

/-- The call that returns is the only one of its process, and its entry time is in the slot. -/
theorem Paired.returning (h : Paired targets w) {pid : UInt32} (ht : (targets pid).isSome)
    {call : OpenCall} {rest : List OpenCall} (hopen : (w.openCalls pid).Perm (call :: rest)) :
    rest = [] ∧ w.maps.startTs pid = some call.entered := by
  rcases h.slot pid ht with hnone | ⟨c, hone, hstart⟩
  · rw [hnone] at hopen
    cases List.nil_perm.mp hopen
  · rw [hone] at hopen
    obtain ⟨rfl, hrest⟩ := List.cons_eq_cons.mp (List.singleton_perm.mp hopen)
    exact ⟨hrest.symm, hstart⟩

theorem Paired.exit (h : Paired targets w) (hsite : e.site = .exit ret reserved)
    (hw : w.step targets e = some w') : Paired targets w' := by
  obtain ⟨call, hcall, -, hmaps, hopen⟩ := openCalls_exit hsite hw
  obtain ⟨hclock, -, -, -, heq⟩ := w.step_exit hsite hw
  refine ⟨?_, ?_⟩
  · rw [heq]
    intro c hc
    exact UInt64.le_trans (h.entered_le c (List.mem_of_mem_eraseP hc)) hclock
  · intro pid ht
    have hpid := hopen pid
    by_cases hself : pid = pidOf e.pidTgid
    · rw [if_pos hself] at hpid
      exact Or.inl (h.returning ht hpid).1
    · rw [if_neg hself] at hpid
      rcases h.slot pid ht with hnone | ⟨c, hone, hstart⟩
      · rw [hnone] at hpid
        exact Or.inl (List.nil_perm.mp hpid)
      · rw [hone] at hpid
        refine Or.inr ⟨c, (List.singleton_perm.mp hpid).symm, ?_⟩
        rw [hmaps, ← hstart]
        exact exitProbe_startTs_of_ne w.maps hself

/-- **A process with one open call** books its return to it. -/
theorem Paired.booksOwnCall (h : Paired targets w) (hw : w.step targets e = some w') :
    BooksOwnCall targets w e w' := by
  unfold BooksOwnCall
  cases hsite : e.site with
  | enter =>
      obtain ⟨-, rfl⟩ := w.step_enter hsite hw
      exact probeEnter_records w.maps e.pidTgid e.time
  | exit ret reserved =>
      obtain ⟨call, hcall, hfn, hmaps, hopen⟩ := openCalls_exit hsite hw
      cases ht : targets (pidOf e.pidTgid) with
      | none =>
          rw [hmaps, exitProbe_of_none (Or.inl ht)]
          exact ⟨rfl, rfl⟩
      | some stackType =>
          have hpid := hopen (pidOf e.pidTgid)
          rw [if_pos rfl] at hpid
          have hstart := (h.returning (by rw [ht]; rfl) hpid).2
          refine ⟨call, hcall, hfn, ?_, ?_⟩
          · have hentered := h.entered_le call (List.mem_of_find?_eq_some hcall)
            exact UInt64.le_trans hentered (w.step_exit hsite hw).1
          · rw [hmaps]
            exact (exitProbe_of_start ht hstart).1

/-! ### Calls that overlap -/

/-- How many more calls of a probed process are open than `start_ts` has entry times for. -/
def slack (targets : TargetPids) (w : World) (pid : UInt32) : ℤ :=
  if (targets pid).isSome then
    (w.openCalls pid).length - (if (w.maps.startTs pid).isSome then 1 else 0)
  else 0

theorem slack_init : slack targets World.init = 0 := by
  funext pid
  unfold slack
  split <;> rfl

/-- After an entry the slack counts the other calls that are open. -/
theorem slack_enter (hsite : e.site = .enter) (ht : (targets (pidOf e.pidTgid)).isSome)
    (hw : w.step targets e = some w') :
    slack targets w' (pidOf e.pidTgid) = (w.openCalls (pidOf e.pidTgid)).length := by
  have hopen := openCalls_enter hsite hw (pidOf e.pidTgid)
  have hstart : w'.maps.startTs (pidOf e.pidTgid) = some e.time := by
    obtain ⟨-, rfl⟩ := w.step_enter hsite hw
    exact probeEnter_startTs_self w.maps e.time ht
  rw [slack, if_pos ht, hopen, hstart, if_pos rfl, List.length_cons, Option.isSome_some, if_pos rfl]
  omega

/-- A return that is recorded had an entry time to take. -/
theorem start_of_booksOwnCall (hsite : e.site = .exit ret reserved)
    (ht : (targets (pidOf e.pidTgid)).isSome) (hw : w.step targets e = some w')
    (hbook : BooksOwnCall targets w e w') : (w.maps.startTs (pidOf e.pidTgid)).isSome := by
  obtain ⟨stackType, ht⟩ := Option.isSome_iff_exists.mp ht
  obtain ⟨-, -, -, -, rfl⟩ := w.step_exit hsite hw
  cases hstart : w.maps.startTs (pidOf e.pidTgid) with
  | some start => rfl
  | none =>
      simp only [BooksOwnCall, hsite, ht, exitProbe_of_none (Or.inr hstart)] at hbook
      obtain ⟨call, -, -, -, hhist, -⟩ := hbook
      exact absurd hhist.symm (bump_ne _ _ _ _)

/-- **No hit lowers the slack** when every return is recorded. -/
theorem slack_le (hw : w.step targets e = some w') (hbook : BooksOwnCall targets w e w') :
    slack targets w ≤ slack targets w' := by
  intro pid
  show slack targets w pid ≤ slack targets w' pid
  by_cases ht : (targets pid).isSome
  swap
  · rw [slack, slack, if_neg ht, if_neg ht]
  cases hsite : e.site with
  | enter =>
      by_cases hself : pid = pidOf e.pidTgid
      · subst hself
        rw [slack_enter hsite ht hw, slack, if_pos ht]
        split <;> omega
      · have hopen := openCalls_enter hsite hw pid
        obtain ⟨-, rfl⟩ := w.step_enter hsite hw
        rw [if_neg hself] at hopen
        rw [slack, slack, hopen]
        simp only [probeEnter_startTs_of_ne w.maps e.time hself, le_refl]
  | exit ret reserved =>
      obtain ⟨call, -, -, hmaps, hopen⟩ := openCalls_exit hsite hw
      have hlength := (hopen pid).length_eq
      by_cases hself : pid = pidOf e.pidTgid
      · subst hself
        have hbefore := start_of_booksOwnCall hsite ht hw hbook
        have hafter : w'.maps.startTs (pidOf e.pidTgid) = none := by
          obtain ⟨start, hstart⟩ := Option.isSome_iff_exists.mp hbefore
          obtain ⟨stackType, ht⟩ := Option.isSome_iff_exists.mp ht
          rw [hmaps, (exitProbe_of_start ht hstart).2, Function.update_self]
        rw [if_pos rfl, List.length_cons] at hlength
        rw [slack, slack, if_pos ht, if_pos ht, hlength, if_pos hbefore, hafter]
        simp
      · rw [if_neg hself] at hlength
        rw [slack, slack, hlength, hmaps]
        simp only [exitProbe_startTs_of_ne w.maps hself, le_refl]

/-! ### Whole runs -/

/-- The calls of the probed processes have all returned. -/
def AllReturned (targets : TargetPids) (w : World) : Prop :=
  ∀ pid, (targets pid).isSome → w.openCalls pid = []

theorem slack_of_allReturned (h : AllReturned targets w) : slack targets w ≤ 0 := by
  intro pid
  show slack targets w pid ≤ 0
  unfold slack
  by_cases ht : (targets pid).isSome
  · rw [if_pos ht, h pid ht]
    split <;> decide
  · rw [if_neg ht]

variable {es : List Hit}

/-- Calls that are entered alone are booked right. -/
theorem booksOwnCall_of_entersAlone
    (h : EachStep (World.step targets) (EntersAlone targets) World.init es) :
    EachStep (World.step targets) (BooksOwnCall targets) World.init es := by
  refine EachStep.imp (I := Paired targets) ?_ Paired.init h
  intro w e w' hpaired halone hw
  refine ⟨?_, hpaired.booksOwnCall hw⟩
  cases hsite : e.site with
  | enter => exact hpaired.enter hsite halone hw
  | exit ret reserved => exact hpaired.exit hsite hw

/-- Booked right to the last call, every call was entered alone. -/
theorem entersAlone_of_booksOwnCall (hrun : run (World.step targets) World.init es = some w)
    (hreturned : AllReturned targets w)
    (h : EachStep (World.step targets) (BooksOwnCall targets) World.init es) :
    EachStep (World.step targets) (EntersAlone targets) World.init es := by
  have hstep : ∀ w e w', True → BooksOwnCall targets w e w' → World.step targets w e = some w' →
      True ∧ slack targets w ≤ slack targets w' := fun w e w' _ hbook hw =>
    ⟨trivial, slack_le hw hbook⟩
  have hle : EachStep (World.step targets) (fun w _ w' => slack targets w ≤ slack targets w')
      World.init es := EachStep.imp hstep trivial h
  -- the slack starts at zero, never falls and ends at zero
  have hend : slack targets w ≤ slack targets World.init := by
    rw [slack_init]
    exact slack_of_allReturned hreturned
  refine EachStep.imp (I := fun _ => True) ?_ trivial (hle.eq_of_le hrun hend)
  intro w₀ e w₁ _ hzero hw
  refine ⟨trivial, fun hsite ht => ?_⟩
  have hothers := slack_enter hsite ht hw
  rw [hzero, slack_init] at hothers
  exact List.eq_nil_of_length_eq_zero (Int.ofNat_eq_zero.mp hothers.symm)

/-- **The probes book every return to its own call exactly when calls are entered alone.**  In
every run in which each call of a probed process is entered while no other call of the
process is open, each return is recorded once with the time since its own entry; and in a
run in which all calls return, only then. -/
theorem probes_book_own_call (targets : TargetPids) {es : List Hit} {w : World}
    (hrun : run (World.step targets) World.init es = some w) :
    (EachStep (World.step targets) (EntersAlone targets) World.init es →
      EachStep (World.step targets) (BooksOwnCall targets) World.init es) ∧
    (AllReturned targets w →
      EachStep (World.step targets) (BooksOwnCall targets) World.init es →
      EachStep (World.step targets) (EntersAlone targets) World.init es) :=
  ⟨booksOwnCall_of_entersAlone, entersAlone_of_booksOwnCall hrun⟩

/-- Process 7 is a SurrealDB process, process 8 belongs to the polyglot stack. -/
def twoTargets : TargetPids := fun pid =>
  if pid = 7 then some 0 else if pid = 8 then some 1 else none

/-- A thread, by its process and its own number. -/
def threadOf (pid tid : UInt64) : UInt64 := (pid <<< 32) + tid

/-- A read of process 7 and a send of process 8 that overlap. -/
def disjointProcesses : List Hit :=
  [⟨0, threadOf 7 7, 10, .vfsRead, .enter⟩,
   ⟨1, threadOf 8 8, 20, .tcpSendmsg, .enter⟩,
   ⟨0, threadOf 7 7, 30, .vfsRead, .exit 512 true⟩,
   ⟨1, threadOf 8 8, 45, .tcpSendmsg, .exit 64 true⟩]

theorem probes_book_own_call_disjoint :
    EachStep (World.step twoTargets) (BooksOwnCall twoTargets) World.init disjointProcesses := by
  have hrun : (run (World.step twoTargets) World.init disjointProcesses).isSome := by
    decide +kernel
  obtain ⟨w, hw⟩ := Option.isSome_iff_exists.mp hrun
  exact (probes_book_own_call twoTargets hw).1 (by decide +kernel)

/-- Two threads of one process overlap: the second entry overwrites the first entry time, the
first return takes it, with a latency of 10 for a call that took 20, and the second return finds
none. -/
theorem probes_mix_threads : ¬ ∀ targets es w,
    run (World.step targets) World.init es = some w →
      EachStep (World.step targets) (BooksOwnCall targets) World.init es := by
  intro h
  have hmixed := h twoTargets
    [⟨0, threadOf 7 7, 10, .vfsRead, .enter⟩,
     ⟨1, threadOf 7 9, 20, .vfsRead, .enter⟩,
     ⟨0, threadOf 7 7, 30, .vfsRead, .exit 512 true⟩,
     ⟨1, threadOf 7 9, 45, .vfsRead, .exit 512 true⟩] _ rfl
  obtain ⟨call, hcall, -, -, -, hevents⟩ := (((hmixed _ rfl).2 _ rfl).2 _ rfl).1
  cases hcall
  exact absurd hevents (by decide +kernel)

end NexusCore.Probe
