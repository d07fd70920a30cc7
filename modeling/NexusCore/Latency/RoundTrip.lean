import NexusCore.Foundation.Transition

/-!
# The Day 1 latency probe

A probe at the entry of `tcp_sendmsg` puts the time of a send to the database port into a map
under the thread id; a probe at the return of `tcp_recvmsg` takes it out, when the call
received anything, and sends the difference through the ring buffer.  Only the first of them
looks at the port.

A `World` holds the maps and, as the truth to compare them with, the sends to the database
port so far and which of them gave rise to an event.  `MeasuresRoundTrip` says of one call
that an event, if it emits one, is the round trip of its thread's latest send, on one
connection and for the first time; `measures_iff_answers` says in which runs that is so, by a
condition on the calls alone (`AnswersInTurn`).
-/

namespace NexusCore.Latency

open Foundation.Transition

/-! ### The probes -/

/-- A socket, by its address, with `skc_dport` in network byte order. -/
structure Sock where
  addr : UInt64
  dport : UInt16
  deriving DecidableEq, Repr

def surrealPort : UInt16 := 8000

/-- `bpf_ntohs` on a little-endian machine. -/
def ntohs (x : UInt16) : UInt16 := (x <<< 8) ||| (x >>> 8)

structure TenantEvent where
  slotId : UInt32
  latencyNs : UInt64
  op : UInt8
  pad : List UInt8
  deriving DecidableEq, Repr

/-- The flags of a submission. -/
inductive Wakeup
  | forceWakeup
  | noWakeup
  deriving DecidableEq, Repr

/-- The send times by thread id, and the events submitted so far. -/
structure Maps where
  tenantTs : UInt32 → Option UInt64
  events : List (TenantEvent × Wakeup)

def Maps.init : Maps := ⟨fun _ => none, []⟩

/-- The thread id, the lower half of `pid_tgid`. -/
def tidOf (pidTgid : UInt64) : UInt32 := (pidTgid &&& 0xFFFFFFFF).toUInt32

/-- `trace_tcp_sendmsg`. -/
def traceTcpSendmsg (m : Maps) (pidTgid : UInt64) (sk : Sock) (ts : UInt64) : Maps :=
  if ntohs sk.dport ≠ surrealPort then m
  else { m with tenantTs := Function.update m.tenantTs (tidOf pidTgid) (some ts) }

/-- What is submitted for a latency. -/
def latencyEvent (tid : UInt32) (latency : UInt64) : TenantEvent × Wakeup :=
  (⟨tid, latency, 1, [0, 0, 0]⟩, if 5000000 < latency then .forceWakeup else .noWakeup)

/-- `trace_tcp_recvmsg_ret`; the ring buffer has room or has not. -/
def traceTcpRecvmsgRet (m : Maps) (pidTgid : UInt64) (ret : Int32) (now : UInt64)
    (reserved : Bool) : Maps :=
  if ret ≤ 0 then m
  else
    let tid := tidOf pidTgid
    match m.tenantTs tid with
    | none => m
    | some sendTs =>
        let latency := now - sendTs
        let m := { m with tenantTs := Function.update m.tenantTs tid none }
        if reserved then { m with events := m.events ++ [latencyEvent tid latency] } else m

/-! ### The system -/

inductive Site
  | sendmsg
  /-- the return, with the value that is returned -/
  | recvmsgRet (ret : Int32)
  deriving DecidableEq

/-- A probed call: its thread, its socket, and the time of the probe. -/
structure Call where
  pidTgid : UInt64
  sk : Sock
  time : UInt64
  site : Site
  deriving DecidableEq

/-- A send to the database port. -/
structure Send where
  id : ℕ
  tid : UInt32
  sk : Sock
  time : UInt64
  deriving DecidableEq, Repr

/-- The maps, the time of the last call, the sends to the database port, the newest first, and
for each event the send that it belongs to. -/
structure World where
  maps : Maps
  clock : UInt64
  sends : List Send
  measured : List ℕ

def World.init : World := ⟨Maps.init, 0, [], []⟩

/-- The latest send of a thread. -/
def World.latestSend (w : World) (tid : UInt32) : Option Send :=
  w.sends.find? fun s => s.tid = tid

/-- A call that the clock allows.  The ring buffer has room. -/
def World.step (w : World) (c : Call) : Option World :=
  if c.time < w.clock then none else
    match c.site with
    | .sendmsg => some
        { w with
          maps := traceTcpSendmsg w.maps c.pidTgid c.sk c.time
          clock := c.time
          sends := if ntohs c.sk.dport = surrealPort then
              ⟨w.sends.length, tidOf c.pidTgid, c.sk, c.time⟩ :: w.sends
            else w.sends }
    | .recvmsgRet ret =>
        let maps := traceTcpRecvmsgRet w.maps c.pidTgid ret c.time true
        some
          { w with
            maps := maps
            clock := c.time
            measured := if maps.events.length = w.maps.events.length then w.measured
              else w.measured ++ ((w.latestSend (tidOf c.pidTgid)).map Send.id).toList }

/-! ### The property and the condition -/

variable {w w' : World} {c : Call} {ret : Int32}

/-- A call emits no event, or the one of a round trip: it received something, on the
connection of its thread's latest send to the database port, with the time since that send
as the latency; and that send had no event before. -/
def MeasuresRoundTrip (w : World) (c : Call) (w' : World) : Prop :=
  w'.maps.events = w.maps.events ∨
    ∃ ret send, c.site = .recvmsgRet ret ∧ 0 < ret ∧
      w.latestSend (tidOf c.pidTgid) = some send ∧ send.sk = c.sk ∧ send.time ≤ c.time ∧
      send.id ∉ w.measured ∧ w'.measured = w.measured ++ [send.id] ∧
      w'.maps.events = w.maps.events ++ [latencyEvent (tidOf c.pidTgid) (c.time - send.time)]

/-- A return that received something, in a thread with a send time in the map, is on the
connection of the thread's latest send to the database port. -/
def AnswersOnConnection (w : World) (c : Call) (_ : World) : Prop :=
  ∀ ret, c.site = .recvmsgRet ret → 0 < ret → (w.maps.tenantTs (tidOf c.pidTgid)).isSome →
    ∀ send, w.latestSend (tidOf c.pidTgid) = some send → send.sk = c.sk

/-! #### The condition on the calls alone -/

/-- The connection on which a thread's answer is due, after one more call. -/
def dueAfter (tid : UInt32) (sk : Option Sock) (c : Call) : Option Sock :=
  if tidOf c.pidTgid ≠ tid then sk
  else
    match c.site with
    | .sendmsg => if ntohs c.sk.dport = surrealPort then some c.sk else sk
    | .recvmsgRet ret => if 0 < ret then none else sk

/-- The connection of a thread's latest send to the database port, until the thread receives
something. -/
def due (tid : UInt32) (past : List Call) : Option Sock := past.foldl (dueAfter tid) none

def InOrder (cs : List Call) : Prop := cs.Pairwise fun c c' => c.time ≤ c'.time

/-- Whenever a thread with an answer due receives something, it is on the connection of its
latest send to the database port. -/
def AnswersInTurn (cs : List Call) : Prop :=
  ∀ past c future, cs = past ++ c :: future → InOrder (past ++ [c]) →
    ∀ ret, c.site = .recvmsgRet ret → 0 < ret →
      ∀ sk, due (tidOf c.pidTgid) past = some sk → sk = c.sk

/-! ### What one call does -/

theorem World.step_send (hsite : c.site = .sendmsg) (h : w.step c = some w') :
    w.clock ≤ c.time ∧ w' =
      { w with
        maps := traceTcpSendmsg w.maps c.pidTgid c.sk c.time
        clock := c.time
        sends := if ntohs c.sk.dport = surrealPort then
            ⟨w.sends.length, tidOf c.pidTgid, c.sk, c.time⟩ :: w.sends
          else w.sends } := by
  rw [World.step] at h
  by_cases hclock : c.time < w.clock
  · rw [if_pos hclock] at h
    cases h
  · rw [if_neg hclock, hsite] at h
    cases h
    exact ⟨UInt64.not_lt.mp hclock, rfl⟩

theorem World.step_recv (hsite : c.site = .recvmsgRet ret) (h : w.step c = some w') :
    w.clock ≤ c.time ∧ w' =
      { w with
        maps := traceTcpRecvmsgRet w.maps c.pidTgid ret c.time true
        clock := c.time
        measured :=
          if (traceTcpRecvmsgRet w.maps c.pidTgid ret c.time true).events.length
              = w.maps.events.length then w.measured
          else w.measured ++ ((w.latestSend (tidOf c.pidTgid)).map Send.id).toList } := by
  rw [World.step] at h
  by_cases hclock : c.time < w.clock
  · rw [if_pos hclock] at h
    cases h
  · rw [if_neg hclock, hsite] at h
    cases h
    exact ⟨UInt64.not_lt.mp hclock, rfl⟩

/-- A return that received nothing, or has no send time, leaves the maps alone. -/
theorem traceTcpRecvmsgRet_idle {m : Maps} {pidTgid now : UInt64} {reserved : Bool}
    (h : ret ≤ 0 ∨ m.tenantTs (tidOf pidTgid) = none) :
    traceTcpRecvmsgRet m pidTgid ret now reserved = m := by
  unfold traceTcpRecvmsgRet
  by_cases hret : ret ≤ 0
  · rw [if_pos hret]
  · rw [if_neg hret]
    simp only [h.resolve_left hret]

/-- **A return with a send time** takes it out and submits the difference. -/
theorem traceTcpRecvmsgRet_some {m : Maps} {pidTgid now sendTs : UInt64} (hret : ¬ ret ≤ 0)
    (hsend : m.tenantTs (tidOf pidTgid) = some sendTs) :
    traceTcpRecvmsgRet m pidTgid ret now true =
      ⟨Function.update m.tenantTs (tidOf pidTgid) none,
        m.events ++ [latencyEvent (tidOf pidTgid) (now - sendTs)]⟩ := by
  unfold traceTcpRecvmsgRet
  rw [if_neg hret]
  simp only [hsend, if_true]

theorem traceTcpSendmsg_tenantTs (m : Maps) (pidTgid ts : UInt64) (sk : Sock) (tid : UInt32) :
    (traceTcpSendmsg m pidTgid sk ts).tenantTs tid
      = if tidOf pidTgid = tid ∧ ntohs sk.dport = surrealPort then some ts
        else m.tenantTs tid := by
  unfold traceTcpSendmsg
  by_cases hport : ntohs sk.dport = surrealPort
  · rw [if_neg (not_not.mpr hport)]
    by_cases htid : tidOf pidTgid = tid
    · rw [if_pos ⟨htid, hport⟩, ← htid]
      exact Function.update_self ..
    · rw [if_neg fun h => htid h.1]
      exact Function.update_of_ne (Ne.symm htid) ..
  · rw [if_pos hport, if_neg fun h => hport h.2]

theorem traceTcpRecvmsgRet_tenantTs (m : Maps) (pidTgid now : UInt64) (ret : Int32)
    (tid : UInt32) :
    (traceTcpRecvmsgRet m pidTgid ret now true).tenantTs tid
      = if tidOf pidTgid = tid ∧ 0 < ret then none else m.tenantTs tid := by
  by_cases hidle : ret ≤ 0 ∨ m.tenantTs (tidOf pidTgid) = none
  · rw [traceTcpRecvmsgRet_idle hidle]
    by_cases hown : tidOf pidTgid = tid ∧ 0 < ret
    · rw [if_pos hown, ← hown.1]
      exact hidle.resolve_left (Int32.not_le.mpr hown.2)
    · rw [if_neg hown]
  · obtain ⟨hret, hsome⟩ := not_or.mp hidle
    obtain ⟨sendTs, hsend⟩ := Option.ne_none_iff_exists'.mp hsome
    rw [traceTcpRecvmsgRet_some hret hsend]
    by_cases htid : tidOf pidTgid = tid
    · rw [if_pos ⟨htid, Int32.not_le.mp hret⟩, ← htid]
      exact Function.update_self ..
    · rw [if_neg fun h => htid h.1]
      exact Function.update_of_ne (Ne.symm htid) ..

/-! ### The map and the latest sends -/

/-- What holds in every world: a send time in the map is that of its thread's latest send,
which had no event yet. -/
structure Tracks (w : World) : Prop where
  slot : ∀ tid ts, w.maps.tenantTs tid = some ts →
    ∃ send, w.latestSend tid = some send ∧ send.time = ts ∧ send.id ∉ w.measured
  times : ∀ s ∈ w.sends, s.time ≤ w.clock
  ids : ∀ s ∈ w.sends, s.id < w.sends.length
  nodup : (w.sends.map Send.id).Nodup
  known : ∀ i ∈ w.measured, i < w.sends.length

theorem Tracks.init : Tracks World.init where
  slot := nofun
  times := nofun
  ids := nofun
  nodup := List.nodup_nil
  known := nofun

theorem latestSend_mem {tid : UInt32} {send : Send} (h : w.latestSend tid = some send) :
    send ∈ w.sends ∧ send.tid = tid :=
  ⟨List.mem_of_find?_eq_some h,
    of_decide_eq_true (List.find?_some (p := fun s : Send => decide (s.tid = tid)) h)⟩

/-- A send to another port is not seen. -/
theorem Tracks.send_other (h : Tracks w) (hsite : c.site = .sendmsg)
    (hport : ntohs c.sk.dport ≠ surrealPort) (hw : w.step c = some w') : Tracks w' := by
  obtain ⟨hclock, rfl⟩ := w.step_send hsite hw
  simp only [traceTcpSendmsg, if_pos hport, if_neg hport]
  exact ⟨h.slot, fun s hs => UInt64.le_trans (h.times s hs) hclock, h.ids, h.nodup, h.known⟩

/-- A send to the database port becomes the latest of its thread. -/
theorem Tracks.send_surreal (h : Tracks w) (hsite : c.site = .sendmsg)
    (hport : ntohs c.sk.dport = surrealPort) (hw : w.step c = some w') : Tracks w' := by
  obtain ⟨hclock, rfl⟩ := w.step_send hsite hw
  simp only [traceTcpSendmsg, if_neg (not_not.mpr hport), if_pos hport]
  refine ⟨?_, ?_, ?_, ?_, ?_⟩
  · intro tid ts
      (hts : Function.update w.maps.tenantTs (tidOf c.pidTgid) (some c.time) tid = some ts)
    by_cases htid : tid = tidOf c.pidTgid
    · subst htid
      rw [Function.update_self] at hts
      cases hts
      refine ⟨_, List.find?_cons_of_pos (decide_eq_true rfl), rfl, fun hmem => ?_⟩
      exact Nat.lt_irrefl _ (h.known _ hmem)
    · rw [Function.update_of_ne htid] at hts
      obtain ⟨send, hlatest, htime, hnew⟩ := h.slot tid ts hts
      refine ⟨send, ?_, htime, hnew⟩
      show (_ :: w.sends).find? _ = some send
      rw [List.find?_cons_of_neg (by simpa using fun heq => htid heq.symm)]
      exact hlatest
  · intro s hs
    rcases List.mem_cons.mp hs with rfl | hold
    · exact UInt64.le_refl _
    · exact UInt64.le_trans (h.times s hold) hclock
  · intro s hs
    rw [List.length_cons]
    rcases List.mem_cons.mp hs with rfl | hold
    · exact Nat.lt_succ_self _
    · exact Nat.lt_succ_of_lt (h.ids s hold)
  · rw [List.map_cons, List.nodup_cons]
    refine ⟨fun hmem => ?_, h.nodup⟩
    obtain ⟨s, hs, hid⟩ := List.mem_map.mp hmem
    exact Nat.lt_irrefl _ (hid ▸ h.ids s hs)
  · intro i hi
    exact Nat.lt_succ_of_lt (h.known i hi)

/-- **What a return does**: nothing, or it submits the time since the latest send of its
thread, which had no event before. -/
theorem Tracks.recv_cases (h : Tracks w) (hsite : c.site = .recvmsgRet ret)
    (hw : w.step c = some w') :
    (ret ≤ 0 ∨ w.maps.tenantTs (tidOf c.pidTgid) = none) ∧ w' = { w with clock := c.time } ∨
      0 < ret ∧ ∃ send, w.latestSend (tidOf c.pidTgid) = some send ∧
        w.maps.tenantTs (tidOf c.pidTgid) = some send.time ∧ send.id ∉ w.measured ∧ w' =
          { maps := ⟨Function.update w.maps.tenantTs (tidOf c.pidTgid) none,
              w.maps.events ++ [latencyEvent (tidOf c.pidTgid) (c.time - send.time)]⟩
            clock := c.time
            sends := w.sends
            measured := w.measured ++ [send.id] } := by
  obtain ⟨-, rfl⟩ := w.step_recv hsite hw
  by_cases hidle : ret ≤ 0 ∨ w.maps.tenantTs (tidOf c.pidTgid) = none
  · left
    refine ⟨hidle, ?_⟩
    rw [traceTcpRecvmsgRet_idle hidle, if_pos rfl]
  · right
    obtain ⟨hret, hsome⟩ := not_or.mp hidle
    obtain ⟨ts, hts⟩ := Option.ne_none_iff_exists'.mp hsome
    obtain ⟨send, hlatest, rfl, hnew⟩ := h.slot _ _ hts
    refine ⟨Int32.not_le.mp hret, send, hlatest, hts, hnew, ?_⟩
    have hgrows : ¬ (w.maps.events
        ++ [latencyEvent (tidOf c.pidTgid) (c.time - send.time)]).length
          = w.maps.events.length := by
      rw [List.length_append, List.length_singleton]
      omega
    rw [traceTcpRecvmsgRet_some hret hts, if_neg hgrows, hlatest]
    rfl

theorem Tracks.recv (h : Tracks w) (hsite : c.site = .recvmsgRet ret) (hw : w.step c = some w') :
    Tracks w' := by
  have hclock := (w.step_recv hsite hw).1
  have htimes : ∀ s ∈ w.sends, s.time ≤ c.time := fun s hs =>
    UInt64.le_trans (h.times s hs) hclock
  rcases h.recv_cases hsite hw with ⟨-, rfl⟩ | ⟨-, send, hlatest, -, -, rfl⟩
  · exact ⟨h.slot, htimes, h.ids, h.nodup, h.known⟩
  · obtain ⟨hmem, htid⟩ := latestSend_mem hlatest
    refine ⟨?_, htimes, h.ids, h.nodup, ?_⟩
    · intro tid ts (hts : Function.update w.maps.tenantTs (tidOf c.pidTgid) none tid = some ts)
      by_cases hself : tid = tidOf c.pidTgid
      · subst hself
        rw [Function.update_self] at hts
        cases hts
      · rw [Function.update_of_ne hself] at hts
        obtain ⟨other, hother, htime, hnew⟩ := h.slot tid ts hts
        obtain ⟨hmem', htid'⟩ := latestSend_mem hother
        refine ⟨other, hother, htime, fun hin => ?_⟩
        rcases List.mem_append.mp hin with hold | hlast
        · exact hnew hold
        · -- one identity, one send, one thread
          have hsame := List.inj_on_of_nodup_map h.nodup hmem' hmem (List.mem_singleton.mp hlast)
          exact hself (by rw [← htid', hsame, htid])
    · intro i hi
      rcases List.mem_append.mp hi with hold | hlast
      · exact h.known i hold
      · rw [List.mem_singleton.mp hlast]
        exact h.ids send hmem

theorem Tracks.step (h : Tracks w) (hw : w.step c = some w') : Tracks w' := by
  cases hsite : c.site with
  | sendmsg =>
      by_cases hport : ntohs c.sk.dport = surrealPort
      · exact h.send_surreal hsite hport hw
      · exact h.send_other hsite hport hw
  | recvmsgRet ret => exact h.recv hsite hw

/-! ### The condition, told by the calls -/

/-- The connection that the maps and the sends still expect an answer on. -/
def World.due (w : World) (tid : UInt32) : Option Sock :=
  (w.maps.tenantTs tid).bind fun _ => (w.latestSend tid).map Send.sk

theorem World.due_step (hw : w.step c = some w') (tid : UInt32) :
    w'.due tid = dueAfter tid (w.due tid) c := by
  unfold World.due dueAfter
  cases hsite : c.site with
  | sendmsg =>
      obtain ⟨-, rfl⟩ := w.step_send hsite hw
      simp only [traceTcpSendmsg_tenantTs, World.latestSend]
      by_cases htid : tidOf c.pidTgid = tid
      · by_cases hport : ntohs c.sk.dport = surrealPort
        · rw [if_pos ⟨htid, hport⟩, if_neg (not_not.mpr htid), if_pos hport, if_pos hport,
            List.find?_cons_of_pos (p := fun s : Send => decide (s.tid = tid))
              (decide_eq_true htid)]
          rfl
        · rw [if_neg fun h => hport h.2, if_neg (not_not.mpr htid), if_neg hport, if_neg hport]
      · rw [if_neg fun h => htid h.1, if_pos htid]
        by_cases hport : ntohs c.sk.dport = surrealPort
        · rw [if_pos hport, List.find?_cons_of_neg (p := fun s : Send => decide (s.tid = tid))
            fun h => htid (of_decide_eq_true h)]
        · rw [if_neg hport]
  | recvmsgRet ret =>
      obtain ⟨-, rfl⟩ := w.step_recv hsite hw
      simp only [traceTcpRecvmsgRet_tenantTs, World.latestSend]
      by_cases htid : tidOf c.pidTgid = tid
      · by_cases hret : 0 < ret
        · rw [if_pos ⟨htid, hret⟩, if_neg (not_not.mpr htid), if_pos hret]
          rfl
        · rw [if_neg fun h => hret h.2, if_neg (not_not.mpr htid), if_neg hret]
      · rw [if_neg fun h => htid h.1, if_pos htid]

theorem World.due_run {past : List Call} (hrun : run World.step w past = some w')
    (tid : UInt32) : w'.due tid = past.foldl (dueAfter tid) (w.due tid) := by
  induction past generalizing w with
  | nil =>
      cases hrun
      rfl
  | cons c past ih =>
      obtain ⟨w₁, hstep, hrest⟩ := run_cons.mp hrun
      rw [ih hrest, World.due_step hstep, List.foldl_cons]

theorem World.step_clock (hw : w.step c = some w') :
    w.clock ≤ c.time ∧ w'.clock = c.time := by
  cases hsite : c.site with
  | sendmsg =>
      obtain ⟨hclock, rfl⟩ := w.step_send hsite hw
      exact ⟨hclock, rfl⟩
  | recvmsgRet ret =>
      obtain ⟨hclock, rfl⟩ := w.step_recv hsite hw
      exact ⟨hclock, rfl⟩

/-- The clock allows a call that is not before the last one. -/
theorem World.exists_step (hclock : w.clock ≤ c.time) : ∃ w', w.step c = some w' := by
  rw [World.step, if_neg (UInt64.not_lt.mpr hclock)]
  cases c.site with
  | sendmsg => exact ⟨_, rfl⟩
  | recvmsgRet ret => exact ⟨_, rfl⟩

/-- **The runs are the calls in order.** -/
theorem World.exists_run {cs : List Call} :
    (∃ w', run World.step w cs = some w') ↔ InOrder cs ∧ ∀ c ∈ cs, w.clock ≤ c.time := by
  induction cs generalizing w with
  | nil => exact iff_of_true ⟨w, rfl⟩ ⟨List.Pairwise.nil, fun c hc => absurd hc List.not_mem_nil⟩
  | cons c cs ih =>
      constructor
      · rintro ⟨w', hrun⟩
        obtain ⟨w₁, hstep, hrest⟩ := run_cons.mp hrun
        obtain ⟨horder, hlater⟩ := ih.mp ⟨w', hrest⟩
        obtain ⟨hclock, hnow⟩ := World.step_clock hstep
        rw [hnow] at hlater
        refine ⟨List.pairwise_cons.mpr ⟨hlater, horder⟩, fun c' hc' => ?_⟩
        rcases List.mem_cons.mp hc' with rfl | hmem
        · exact hclock
        · exact UInt64.le_trans hclock (hlater c' hmem)
      · rintro ⟨horder, hclock⟩
        obtain ⟨hlater, horder⟩ := List.pairwise_cons.mp horder
        obtain ⟨w₁, hstep⟩ := World.exists_step (hclock c List.mem_cons_self)
        rw [← (World.step_clock hstep).2] at hlater
        obtain ⟨w', hrest⟩ := ih.mpr ⟨horder, hlater⟩
        exact ⟨w', run_cons.mpr ⟨w₁, hstep, hrest⟩⟩

theorem inOrder_snoc_iff {past : List Call} : InOrder (past ++ [c]) ↔
    ∃ w₁ w₂, run World.step World.init past = some w₁ ∧ w₁.step c = some w₂ := by
  constructor
  · intro horder
    obtain ⟨w₃, hrun⟩ := World.exists_run.mpr
      ⟨horder, fun c' _ => show World.init.clock ≤ c'.time from UInt64.zero_le⟩
    rw [run_append] at hrun
    obtain ⟨w₁, hpast, hlast⟩ := Option.bind_eq_some_iff.mp hrun
    obtain ⟨w₂, hstep, -⟩ := run_cons.mp hlast
    exact ⟨w₁, w₂, hpast, hstep⟩
  · rintro ⟨w₁, w₂, hpast, hstep⟩
    refine (World.exists_run (w := World.init).mp ⟨w₂, ?_⟩).1
    rw [run_append, hpast]
    exact run_cons.mpr ⟨w₂, hstep, rfl⟩

/-- A call answers on the connection that is due. -/
theorem answersOnConnection_iff : AnswersOnConnection w c w' ↔
    ∀ ret, c.site = .recvmsgRet ret → 0 < ret →
      ∀ sk, w.due (tidOf c.pidTgid) = some sk → sk = c.sk := by
  constructor
  · intro hanswers ret hsite hret sk hdue
    obtain ⟨ts, hts, hsend⟩ := Option.bind_eq_some_iff.mp hdue
    obtain ⟨send, hlatest, rfl⟩ := Option.map_eq_some_iff.mp hsend
    exact hanswers ret hsite hret (by rw [hts]; rfl) send hlatest
  · intro hdue ret hsite hret hsome send hlatest
    obtain ⟨ts, hts⟩ := Option.isSome_iff_exists.mp hsome
    refine hdue ret hsite hret send.sk ?_
    rw [World.due, hts, hlatest]
    rfl

/-- **Each call of a run answers on the connection** exactly if the calls answer in turn. -/
theorem answersInTurn_iff (cs : List Call) :
    AnswersInTurn cs ↔ EachStep World.step AnswersOnConnection World.init cs := by
  have hdue {past : List Call} {w₁ : World} (hrun : run World.step World.init past = some w₁)
      (tid : UInt32) : w₁.due tid = due tid past := World.due_run hrun tid
  rw [eachStep_iff]
  constructor
  · intro hturn past c future w₁ w₂ hsplit hrun hstep
    refine answersOnConnection_iff.mpr fun ret hsite hret sk hsk => ?_
    rw [hdue hrun] at hsk
    exact hturn past c future hsplit (inOrder_snoc_iff.mpr ⟨w₁, w₂, hrun, hstep⟩) ret hsite hret sk
      hsk
  · intro heach past c future hsplit horder ret hsite hret sk hsk
    obtain ⟨w₁, w₂, hrun, hstep⟩ := inOrder_snoc_iff.mp horder
    have hanswers := heach past c future w₁ w₂ hsplit hrun hstep
    rw [← hdue hrun] at hsk
    exact answersOnConnection_iff.mp hanswers ret hsite hret sk hsk

/-! ### Round trips -/

/-- **One call** measures a round trip exactly when it answers on the connection. -/
theorem Tracks.measures_iff (h : Tracks w) (hw : w.step c = some w') :
    MeasuresRoundTrip w c w' ↔ AnswersOnConnection w c w' := by
  cases hsite : c.site with
  | sendmsg =>
      have hevents : w'.maps.events = w.maps.events := by
        obtain ⟨-, rfl⟩ := w.step_send hsite hw
        show (traceTcpSendmsg w.maps c.pidTgid c.sk c.time).events = w.maps.events
        unfold traceTcpSendmsg
        split <;> rfl
      exact iff_of_true (Or.inl hevents) fun ret hret => by
        rw [hsite] at hret
        cases hret
  | recvmsgRet ret =>
      have hclock := (w.step_recv hsite hw).1
      rcases h.recv_cases hsite hw with ⟨hidle, rfl⟩ | ⟨hpos, send, hlatest, hts, hnew, rfl⟩
      · refine iff_of_true (Or.inl rfl) fun ret' hret' hpos' hsome => ?_
        rw [hsite] at hret'
        cases hret'
        rcases hidle with hneg | hnone
        · exact absurd hpos' (Int32.not_lt.mpr hneg)
        · rw [hnone] at hsome
          cases hsome
      · constructor
        · rintro (hsame | ⟨_, send', -, -, hlatest', hsk, -⟩) ret' - - - other hother
          · exact absurd hsame (by simp)
          · cases hother.symm.trans hlatest'
            exact hsk
        · intro hanswers
          have hsk := hanswers ret hsite hpos (by rw [hts]; rfl) send hlatest
          have hle := UInt64.le_trans (h.times send (latestSend_mem hlatest).1) hclock
          exact Or.inr ⟨ret, send, hsite, hpos, hlatest, hsk, hle, hnew, rfl, rfl⟩

theorem Tracks.eachStep_iff (cs : List Call) :
    EachStep World.step MeasuresRoundTrip World.init cs ↔
      EachStep World.step AnswersOnConnection World.init cs := by
  constructor
  · exact EachStep.imp (fun w c w' h hP hw => ⟨h.step hw, (h.measures_iff hw).mp hP⟩) Tracks.init
  · exact EachStep.imp (fun w c w' h hP hw => ⟨h.step hw, (h.measures_iff hw).mpr hP⟩) Tracks.init

/-- **Every event is a round trip** in exactly the runs in which every thread's first answer
after a send to the database port is on the connection of that send: told by the calls alone,
or by the maps that each call meets. -/
theorem measures_iff_answers (cs : List Call) :
    (EachStep World.step MeasuresRoundTrip World.init cs ↔ AnswersInTurn cs) ∧
      (EachStep World.step MeasuresRoundTrip World.init cs ↔
        EachStep World.step AnswersOnConnection World.init cs) :=
  ⟨(Tracks.eachStep_iff cs).trans (answersInTurn_iff cs).symm, Tracks.eachStep_iff cs⟩

/-- A query goes out to the database, and the thread hears from its cache first. -/
def crossedCalls : List Call :=
  [⟨7, ⟨1, 0x401F⟩, 1000, .sendmsg⟩, ⟨7, ⟨2, 0xEB18⟩, 3000, .recvmsgRet 64⟩]

theorem crossedCalls_not_measured :
    ∃ w, run World.step World.init crossedCalls = some w ∧
      w.maps.events = [latencyEvent 7 2000] ∧
      ¬ ∀ cs, EachStep World.step MeasuresRoundTrip World.init cs := by
  refine ⟨_, rfl, rfl, fun hall => ?_⟩
  obtain ⟨-, hrest⟩ := hall crossedCalls _ rfl
  obtain ⟨hmeasures, -⟩ := hrest _ rfl
  rcases hmeasures with hsame | ⟨ret, send, -, -, hlatest, hsk, -⟩
  · exact absurd (congrArg List.length hsame) (by decide)
  · cases hlatest
    exact absurd hsk (by decide)

end NexusCore.Latency
