import NexusCore.Probe.Pairing
import NexusCore.Probe.Percentiles

/-!
# What the probes book, read off the hits

The maps of the probes are a ledger.  A return in a probed process is booked exactly when the
last hit of the process before it, in whatever thread and of whatever function, was an entry;
the latency is the time since then.  `ledger` has one line for each hit, and says so of the
hits alone.  Every run leaves in the three histograms and in the ring buffer what its ledger
has, no less and no more (`probes_keep_ledger`).
-/

namespace NexusCore.Probe

open Foundation.Transition

/-! ### The ledger -/

/-- What a return counts, on which CPU, and what it submits. -/
structure Booking where
  name : HistName
  cpu : ℕ
  latency : UInt64
  events : List Event
  deriving DecidableEq, Repr

/-- The booking of a return whose latency is known. -/
def bookingOf (stackType : UInt8) (e : Hit) (latency : UInt64) (ret : Int64) (reserved : Bool) :
    Booking where
  name := histOf stackType e.fn
  cpu := e.cpu
  latency := latency
  events := ownEvents (pidOf e.pidTgid) stackType latency ret reserved e.fn

/-- The time of the last hit of a process, if that was an entry.  `past` has the hits so far, the
newest first. -/
def lastEntry (pid : UInt32) : List Hit → Option UInt64
  | [] => none
  | e :: past =>
      if pidOf e.pidTgid = pid then
        match e.site with
        | .enter => some e.time
        | .exit _ _ => none
      else lastEntry pid past

/-- The line of a hit. -/
def lineOf (targets : TargetPids) (past : List Hit) (e : Hit) : Option Booking :=
  match e.site, targets (pidOf e.pidTgid), lastEntry (pidOf e.pidTgid) past with
  | .exit ret reserved, some stackType, some start =>
      some (bookingOf stackType e (e.time - start) ret reserved)
  | _, _, _ => none

def ledgerFrom (targets : TargetPids) : List Hit → List Hit → List (Option Booking)
  | _, [] => []
  | past, e :: es => lineOf targets past e :: ledgerFrom targets (e :: past) es

/-- One line for each hit. -/
def ledger (targets : TargetPids) (es : List Hit) : List (Option Booking) :=
  ledgerFrom targets [] es

/-- Does a line count in this counter? -/
def counted (name : HistName) (cpu : ℕ) (slot : UInt32) : Option Booking → Bool
  | none => false
  | some b => decide (name = b.name ∧ cpu = b.cpu ∧ slot = log2Bucket b.latency)

def lineEvents : Option Booking → List Event
  | none => []
  | some b => b.events

variable {targets : TargetPids} {w w' : World} {e : Hit} {past es : List Hit}

theorem length_ledgerFrom (targets : TargetPids) (past es : List Hit) :
    (ledgerFrom targets past es).length = es.length := by
  induction es generalizing past with
  | nil => rfl
  | cons e es ih => rw [ledgerFrom, List.length_cons, List.length_cons, ih]

theorem ledgerFrom_take (targets : TargetPids) (past es : List Hit) (n : ℕ) :
    ledgerFrom targets past (es.take n) = (ledgerFrom targets past es).take n := by
  induction es generalizing past n with
  | nil => rw [List.take_nil, ledgerFrom, List.take_nil]
  | cons e es ih =>
      cases n with
      | zero => rfl
      | succ n => rw [List.take_succ_cons, ledgerFrom, ledgerFrom, List.take_succ_cons, ih]

theorem World.step_clock (hw : w.step targets e = some w') :
    w.clock ≤ e.time ∧ w'.clock = e.time := by
  cases hsite : e.site with
  | enter =>
      obtain ⟨hle, rfl⟩ := w.step_enter hsite hw
      exact ⟨hle, rfl⟩
  | exit ret reserved =>
      obtain ⟨hle, -, -, -, rfl⟩ := w.step_exit hsite hw
      exact ⟨hle, rfl⟩

/-! ### One hit -/

/-- The maps with the line of a hit entered. -/
structure Enters (m m' : Maps) (line : Option Booking) : Prop where
  hist : ∀ name cpu slot, m'.hist name cpu slot
    = m.hist name cpu slot + UInt64.ofNat (if counted name cpu slot line then 1 else 0)
  events : m'.events = m.events ++ lineEvents line

theorem Enters.none {m m' : Maps} (hhist : m'.hist = m.hist) (hevents : m'.events = m.events) :
    Enters m m' none where
  hist name cpu slot := by
    rw [hhist]
    exact (UInt64.add_zero _).symm
  events := by rw [hevents, lineEvents, List.append_nil]

theorem Enters.of_records {m m' : Maps} {stackType : UInt8} {latency : UInt64} {ret : Int64}
    {reserved : Bool} (h : Records m m' e stackType latency ret reserved) :
    Enters m m' (some (bookingOf stackType e latency ret reserved)) where
  hist name cpu slot := by
    rw [h.1, bump]
    by_cases hcount : name = histOf stackType e.fn ∧ cpu = e.cpu ∧ slot = log2Bucket latency
    · have hline : counted name cpu slot (some (bookingOf stackType e latency ret reserved))
          = true := decide_eq_true hcount
      rw [if_pos hcount, if_pos hline]
      rfl
    · have hline : ¬ counted name cpu slot (some (bookingOf stackType e latency ret reserved))
          = true := fun h => hcount (of_decide_eq_true h)
      rw [if_neg hcount, if_neg hline]
      exact (UInt64.add_zero _).symm
  events := h.2

/-- `start_ts` has the time of the last hit of each probed process that was an entry. -/
def Remembers (targets : TargetPids) (past : List Hit) (m : Maps) : Prop :=
  ∀ pid, (targets pid).isSome → m.startTs pid = lastEntry pid past

theorem Remembers.init : Remembers targets [] Maps.init := fun _ _ => rfl

theorem lastEntry_of_ne {pid : UInt32} (h : pid ≠ pidOf e.pidTgid) :
    lastEntry pid (e :: past) = lastEntry pid past := if_neg (Ne.symm h)

theorem lastEntry_enter (hsite : e.site = .enter) :
    lastEntry (pidOf e.pidTgid) (e :: past) = some e.time := by
  rw [lastEntry, if_pos rfl, hsite]

theorem lastEntry_exit {ret : Int64} {reserved : Bool} (hsite : e.site = .exit ret reserved) :
    lastEntry (pidOf e.pidTgid) (e :: past) = none := by
  rw [lastEntry, if_pos rfl, hsite]

theorem Remembers.enter (h : Remembers targets past w.maps) (hsite : e.site = .enter)
    (hw : w.step targets e = some w') :
    Remembers targets (e :: past) w'.maps ∧ Enters w.maps w'.maps (lineOf targets past e) := by
  obtain ⟨-, rfl⟩ := w.step_enter hsite hw
  constructor
  · intro pid ht
    by_cases hpid : pid = pidOf e.pidTgid
    · subst hpid
      rw [lastEntry_enter hsite]
      exact probeEnter_startTs_self w.maps e.time ht
    · rw [lastEntry_of_ne hpid, ← h pid ht]
      exact probeEnter_startTs_of_ne w.maps e.time hpid
  · obtain ⟨hhist, hevents⟩ := @probeEnter_records targets w.maps e.pidTgid e.time
    simp only [lineOf, hsite]
    exact .none hhist hevents

/-- After a return nothing is left in the slot of its process. -/
theorem exitProbe_startTs_self (m : Maps) {ret : Int64} {reserved : Bool}
    (ht : (targets (pidOf e.pidTgid)).isSome) :
    (exitProbe targets m e ret reserved).startTs (pidOf e.pidTgid) = none := by
  obtain ⟨stackType, ht⟩ := Option.isSome_iff_exists.mp ht
  cases hstart : m.startTs (pidOf e.pidTgid) with
  | none => rw [exitProbe_of_none (Or.inr hstart), hstart]
  | some start => rw [(exitProbe_of_start ht hstart).2, Function.update_self]

theorem Remembers.exit {ret : Int64} {reserved : Bool} (h : Remembers targets past w.maps)
    (hsite : e.site = .exit ret reserved) (hw : w.step targets e = some w') :
    Remembers targets (e :: past) w'.maps ∧ Enters w.maps w'.maps (lineOf targets past e) := by
  obtain ⟨-, call, -, -, rfl⟩ := w.step_exit hsite hw
  constructor
  · intro pid ht
    by_cases hpid : pid = pidOf e.pidTgid
    · subst hpid
      rw [lastEntry_exit hsite]
      exact exitProbe_startTs_self w.maps ht
    · rw [lastEntry_of_ne hpid, ← h pid ht]
      exact exitProbe_startTs_of_ne w.maps hpid
  · show Enters w.maps (exitProbe targets w.maps e ret reserved) _
    cases ht : targets (pidOf e.pidTgid) with
    | none =>
        simp only [lineOf, hsite, ht, exitProbe_of_none (Or.inl ht)]
        exact .none rfl rfl
    | some stackType =>
        have hlast := h (pidOf e.pidTgid) (by rw [ht]; rfl)
        cases hstart : w.maps.startTs (pidOf e.pidTgid) with
        | none =>
            rw [hstart] at hlast
            simp only [lineOf, hsite, ht, ← hlast, exitProbe_of_none (Or.inr hstart)]
            exact .none rfl rfl
        | some start =>
            rw [hstart] at hlast
            simp only [lineOf, hsite, ht, ← hlast]
            exact .of_records (exitProbe_of_start ht hstart).1

/-- **A hit enters its line.** -/
theorem Remembers.step (h : Remembers targets past w.maps) (hw : w.step targets e = some w') :
    Remembers targets (e :: past) w'.maps ∧ Enters w.maps w'.maps (lineOf targets past e) := by
  cases hsite : e.site with
  | enter => exact h.enter hsite hw
  | exit ret reserved => exact h.exit hsite hw

/-! ### Whole runs -/

/-- The maps with all the lines of a ledger entered. -/
structure EntersAll (m m' : Maps) (lines : List (Option Booking)) : Prop where
  hist : ∀ name cpu slot, m'.hist name cpu slot
    = m.hist name cpu slot + UInt64.ofNat (lines.countP (counted name cpu slot))
  events : m'.events = m.events ++ lines.flatMap lineEvents

theorem EntersAll.cons {m m₁ m' : Maps} {line : Option Booking} {lines : List (Option Booking)}
    (h : Enters m m₁ line) (hrest : EntersAll m₁ m' lines) : EntersAll m m' (line :: lines) where
  hist name cpu slot := by
    rw [hrest.hist, h.hist, List.countP_cons, UInt64.add_assoc, ← UInt64.ofNat_add,
      Nat.add_comm]
  events := by rw [hrest.events, h.events, List.flatMap_cons, List.append_assoc]

theorem Remembers.run (h : Remembers targets past w.maps)
    (hrun : run (World.step targets) w es = some w') :
    Remembers targets (es.reverse ++ past) w'.maps ∧
    EntersAll w.maps w'.maps (ledgerFrom targets past es) := by
  induction es generalizing past w with
  | nil =>
      cases hrun
      exact ⟨h, fun _ _ _ => (UInt64.add_zero _).symm, (List.append_nil _).symm⟩
  | cons e es ih =>
      obtain ⟨w₁, hw, hrest⟩ := run_cons.mp hrun
      obtain ⟨hnext, henters⟩ := h.step hw
      obtain ⟨hlast, hall⟩ := ih hnext hrest
      rw [List.reverse_cons, List.append_assoc]
      exact ⟨hlast, .cons henters hall⟩

/-- The maps after a run are those of its ledger. -/
theorem entersAll_ledger (hrun : run (World.step targets) World.init es = some w) :
    EntersAll Maps.init w.maps (ledger targets es) := (Remembers.init.run hrun).2

theorem hist_of_run (hrun : run (World.step targets) World.init es = some w) (name : HistName)
    (cpu : ℕ) (slot : UInt32) :
    w.maps.hist name cpu slot
      = UInt64.ofNat ((ledger targets es).countP (counted name cpu slot)) :=
  ((entersAll_ledger hrun).hist name cpu slot).trans (UInt64.zero_add _)

/-- What was counted before a hit is the beginning of the ledger. -/
theorem run_take {n : ℕ} (hrun : run (World.step targets) World.init es = some w) :
    ∃ w₁, run (World.step targets) World.init (es.take n) = some w₁ := by
  rw [← List.take_append_drop n es, run_append] at hrun
  obtain ⟨w₁, hw₁, -⟩ := Option.bind_eq_some_iff.mp hrun
  exact ⟨w₁, hw₁⟩

end NexusCore.Probe
