import NexusCore.Foundation.BoundedTable
import NexusCore.Latency.RoundTrip

/-!
# The Day 1 latency probe within its limits

`tenant_ts_map` has room for 65536 threads and refuses the send time of any other, and the ring
buffer may have no room for an event.  A `Kernel` is the probe with both limits; beside it, as
the truth to compare with, the time of each thread's latest send to the database port and a
`Tally` of what became of the sends.

* `limited_probe_balances`: whatever the calls are, a send time in the map is its thread's
  latest, every event has the time since then, and each send is accounted for once;
* `limited_probe_agrees`: as long as no more threads send than the map has room for, and the
  ring buffer has room, this is the probe without limits.
-/

namespace NexusCore.Latency

open Foundation.KeyedTable Foundation.Transition

/-! ### The probes -/

/-- `MAX_TENANTS`. -/
def maxTenants : ℕ := 65536

/-- The map as a table of thread ids and send times, and the events submitted so far. -/
structure Store where
  table : List (UInt32 × UInt64)
  events : List (TenantEvent × Wakeup)

/-- `trace_tcp_sendmsg`. -/
def Store.traceSend (m : Store) (pidTgid : UInt64) (sk : Sock) (ts : UInt64) : Store :=
  if ntohs sk.dport ≠ surrealPort then m
  else { m with table := put Prod.fst maxTenants m.table (tidOf pidTgid, ts) }

/-- `trace_tcp_recvmsg_ret`; the ring buffer has room or has not. -/
def Store.traceRecv (m : Store) (pidTgid : UInt64) (ret : Int32) (now : UInt64)
    (reserved : Bool) : Store :=
  if ret ≤ 0 then m
  else
    let tid := tidOf pidTgid
    match entry Prod.fst m.table tid with
    | none => m
    | some slot =>
        let latency := now - slot.2
        let m := { m with table := remove Prod.fst m.table tid }
        if reserved then { m with events := m.events ++ [latencyEvent tid latency] } else m

/-! ### The system -/

/-- What became of the sends to the database port: the map refused one, a later one of the thread
took its place, or there was no room for its event. -/
structure Tally where
  sent : ℕ
  refused : ℕ
  superseded : ℕ
  lost : ℕ

/-- A send, by what the map says of its thread. -/
def Tally.send (t : Tally) (table : List (UInt32 × UInt64)) (tid : UInt32) : Tally where
  sent := t.sent + 1
  refused := t.refused +
    if tid ∉ table.map Prod.fst ∧ maxTenants ≤ table.length then 1 else 0
  superseded := t.superseded + if tid ∈ table.map Prod.fst then 1 else 0
  lost := t.lost

/-- A return that takes a send time out. -/
def Tally.take (t : Tally) (reserved : Bool) : Tally :=
  { t with lost := t.lost + if reserved then 0 else 1 }

structure Kernel where
  store : Store
  clock : UInt64
  latest : UInt32 → Option UInt64
  tally : Tally

def Kernel.init : Kernel := ⟨⟨[], []⟩, 0, fun _ => none, ⟨0, 0, 0, 0⟩⟩

/-- A call that the clock allows, with whether the ring buffer has room at that moment. -/
def Kernel.step (k : Kernel) (c : Call × Bool) : Option Kernel :=
  if c.1.time < k.clock then none else
    match c.1.site with
    | .sendmsg => some
        { store := k.store.traceSend c.1.pidTgid c.1.sk c.1.time
          clock := c.1.time
          latest := if ntohs c.1.sk.dport = surrealPort then
              Function.update k.latest (tidOf c.1.pidTgid) (some c.1.time)
            else k.latest
          tally := if ntohs c.1.sk.dport = surrealPort then
              k.tally.send k.store.table (tidOf c.1.pidTgid)
            else k.tally }
    | .recvmsgRet ret => some
        { k with
          store := k.store.traceRecv c.1.pidTgid ret c.1.time c.2
          clock := c.1.time
          tally := if 0 < ret ∧ (entry Prod.fst k.store.table (tidOf c.1.pidTgid)).isSome then
              k.tally.take c.2
            else k.tally }

variable {k k' : Kernel} {c : Call × Bool} {w w' : World}

/-- After a send to the database port. -/
def Kernel.sent (k : Kernel) (tid : UInt32) (ts : UInt64) : Kernel where
  store := ⟨put Prod.fst maxTenants k.store.table (tid, ts), k.store.events⟩
  clock := ts
  latest := Function.update k.latest tid (some ts)
  tally := k.tally.send k.store.table tid

/-- After a return that takes the send time `ts` out. -/
def Kernel.took (k : Kernel) (tid : UInt32) (ts now : UInt64) (reserved : Bool) : Kernel where
  store := ⟨remove Prod.fst k.store.table tid,
    if reserved then k.store.events ++ [latencyEvent tid (now - ts)] else k.store.events⟩
  clock := now
  latest := k.latest
  tally := k.tally.take reserved

/-- **What a call does**: it passes by, it is a send to the database port, or it is a return
that received something in a thread with a send time. -/
theorem Kernel.step_cases (h : k.step c = some k') :
    k.clock ≤ c.1.time ∧
      (k' = { k with clock := c.1.time } ∧
          (c.1.site = .sendmsg ∧ ntohs c.1.sk.dport ≠ surrealPort ∨
            ∃ ret, c.1.site = .recvmsgRet ret ∧
              (ret ≤ 0 ∨ entry Prod.fst k.store.table (tidOf c.1.pidTgid) = none)) ∨
        c.1.site = .sendmsg ∧ ntohs c.1.sk.dport = surrealPort ∧
          k' = k.sent (tidOf c.1.pidTgid) c.1.time ∨
        ∃ ret slot, c.1.site = .recvmsgRet ret ∧ 0 < ret ∧
          entry Prod.fst k.store.table (tidOf c.1.pidTgid) = some slot ∧
          k' = k.took (tidOf c.1.pidTgid) slot.2 c.1.time c.2) := by
  rw [Kernel.step] at h
  by_cases hclock : c.1.time < k.clock
  · rw [if_pos hclock] at h
    cases h
  · rw [if_neg hclock] at h
    refine ⟨UInt64.not_lt.mp hclock, ?_⟩
    cases hsite : c.1.site with
    | sendmsg =>
        rw [hsite] at h
        cases h
        by_cases hport : ntohs c.1.sk.dport = surrealPort
        · refine Or.inr (Or.inl ⟨rfl, hport, ?_⟩)
          rw [if_pos hport, if_pos hport, Store.traceSend, if_neg (not_not.mpr hport), Kernel.sent]
        · refine Or.inl ⟨?_, Or.inl ⟨rfl, hport⟩⟩
          rw [if_neg hport, if_neg hport, Store.traceSend, if_pos hport]
    | recvmsgRet ret =>
        rw [hsite] at h
        cases h
        by_cases hret : ret ≤ 0
        · refine Or.inl ⟨?_, Or.inr ⟨ret, rfl, Or.inl hret⟩⟩
          rw [if_neg fun hc => Int32.not_lt.mpr hret hc.1, Store.traceRecv, if_pos hret]
        · cases hslot : entry Prod.fst k.store.table (tidOf c.1.pidTgid) with
          | none =>
              refine Or.inl ⟨?_, Or.inr ⟨ret, rfl, Or.inr rfl⟩⟩
              rw [if_neg fun hc => Bool.false_ne_true hc.2, Store.traceRecv, if_neg hret]
              simp only [hslot]
          | some slot =>
              refine Or.inr (Or.inr ⟨ret, slot, rfl, Int32.not_le.mp hret, rfl, ?_⟩)
              rw [if_pos ⟨Int32.not_le.mp hret, rfl⟩, Store.traceRecv, if_neg hret]
              simp only [hslot, Kernel.took]
              cases c.2
              · rfl
              · rfl

/-! ### What every order of calls keeps -/

/-- The map stays within its room and has each thread's latest send, and no send is accounted for
twice or not at all. -/
structure Balanced (k : Kernel) : Prop where
  room : k.store.table.length ≤ maxTenants
  distinct : Distinct Prod.fst k.store.table
  slot : ∀ tid slot, entry Prod.fst k.store.table tid = some slot → k.latest tid = some slot.2
  times : ∀ tid ts, k.latest tid = some ts → ts ≤ k.clock
  balance : k.tally.sent = k.store.events.length + k.tally.lost + k.tally.superseded
    + k.tally.refused + k.store.table.length

theorem Balanced.init : Balanced Kernel.init where
  room := Nat.zero_le _
  distinct := List.nodup_nil
  slot := nofun
  times := nofun
  balance := rfl

theorem Balanced.tick {now : UInt64} (h : Balanced k) (hclock : k.clock ≤ now) :
    Balanced { k with clock := now } :=
  ⟨h.room, h.distinct, h.slot, fun tid ts hts => UInt64.le_trans (h.times tid ts hts) hclock,
    h.balance⟩

theorem Balanced.sent {ts : UInt64} (h : Balanced k) (hclock : k.clock ≤ ts) (tid : UInt32) :
    Balanced (k.sent tid ts) where
  room := length_put_le h.room _
  distinct := distinct_put h.distinct _ _
  slot := by
    intro tid' slot (hslot : entry Prod.fst (put Prod.fst maxTenants k.store.table (tid, ts)) tid'
      = some slot)
    show Function.update k.latest tid (some ts) tid' = some slot.2
    rw [entry_put] at hslot
    by_cases htid : tid' = tid
    · subst htid
      rw [Function.update_self]
      split at hslot
      · cases hslot
        rfl
      · -- a thread that is refused has no send time
        next hrefused =>
          have hnone : tid' ∉ k.store.table.map Prod.fst := fun hmem => hrefused ⟨rfl, Or.inl hmem⟩
          rw [entry_of_not_mem hnone] at hslot
          cases hslot
    · rw [Function.update_of_ne htid]
      rw [if_neg fun hc => htid hc.1.symm] at hslot
      exact h.slot tid' slot hslot
  times := by
    intro tid' ts' (hts : Function.update k.latest tid (some ts) tid' = some ts')
    by_cases htid : tid' = tid
    · rw [htid, Function.update_self] at hts
      cases hts
      exact UInt64.le_refl _
    · rw [Function.update_of_ne htid] at hts
      exact UInt64.le_trans (h.times tid' ts' hts) hclock
  balance := by
    have hbalance := h.balance
    show k.tally.sent + 1 = k.store.events.length + k.tally.lost
      + (k.tally.superseded + if tid ∈ k.store.table.map Prod.fst then 1 else 0)
      + (k.tally.refused + if tid ∉ k.store.table.map Prod.fst ∧
          maxTenants ≤ k.store.table.length then 1 else 0)
      + (put Prod.fst maxTenants k.store.table (tid, ts)).length
    rw [length_put]
    by_cases hmem : tid ∈ k.store.table.map Prod.fst
    · rw [if_pos hmem, if_neg fun hc => hc.1 hmem, if_pos (Or.inl hmem)]
      omega
    · by_cases hfull : maxTenants ≤ k.store.table.length
      · rw [if_neg hmem, if_pos ⟨hmem, hfull⟩, if_pos (Or.inr hfull)]
        omega
      · rw [if_neg hmem, if_neg fun hc => hfull hc.2, if_neg (not_or.mpr ⟨hmem, hfull⟩)]
        omega

theorem Balanced.took {tid : UInt32} {slot : UInt32 × UInt64} {now : UInt64} (h : Balanced k)
    (hclock : k.clock ≤ now) (hslot : entry Prod.fst k.store.table tid = some slot)
    (reserved : Bool) : Balanced (k.took tid slot.2 now reserved) where
  room := Nat.le_trans (length_remove_le _ _ _) h.room
  distinct := distinct_remove h.distinct tid
  slot := by
    intro tid' slot' (hslot' : entry Prod.fst (remove Prod.fst k.store.table tid) tid' = some slot')
    rw [entry_remove] at hslot'
    by_cases htid : tid' = tid
    · rw [if_pos htid] at hslot'
      cases hslot'
    · rw [if_neg htid] at hslot'
      exact h.slot tid' slot' hslot'
  times := fun tid' ts hts => UInt64.le_trans (h.times tid' ts hts) hclock
  balance := by
    have hbalance := h.balance
    have hmem : tid ∈ k.store.table.map Prod.fst := entry_isSome_iff.mp (by rw [hslot]; rfl)
    have hlen := length_remove h.distinct hmem
    cases reserved with
    | true =>
        show k.tally.sent = (k.store.events ++ [_]).length + (k.tally.lost + 0) + k.tally.superseded
          + k.tally.refused + (remove Prod.fst k.store.table tid).length
        rw [List.length_append, List.length_singleton]
        omega
    | false =>
        show k.tally.sent = k.store.events.length + (k.tally.lost + 1) + k.tally.superseded
          + k.tally.refused + (remove Prod.fst k.store.table tid).length
        omega

theorem Balanced.step (h : Balanced k) (hk : k.step c = some k') : Balanced k' := by
  obtain ⟨hclock, ⟨rfl, -⟩ | ⟨-, -, rfl⟩ | ⟨ret, slot, -, -, hslot, rfl⟩⟩ := k.step_cases hk
  · exact h.tick hclock
  · exact h.sent hclock _
  · exact h.took hclock hslot _

/-- The map as a function, and the events. -/
def Store.maps (m : Store) : Maps :=
  ⟨fun tid => (entry Prod.fst m.table tid).map Prod.snd, m.events⟩

/-- A thread sends to the database port. -/
def SendsFrom (c : Call) (tid : UInt32) : Prop :=
  c.site = .sendmsg ∧ ntohs c.sk.dport = surrealPort ∧ tidOf c.pidTgid = tid

/-- The two probes side by side, while the threads in the map are among few. -/
structure Agrees (senders : Finset UInt32) (k : Kernel) (w : World) : Prop where
  maps : w.maps = k.store.maps
  clock : w.clock = k.clock
  known : ∀ tid ∈ k.store.table.map Prod.fst, tid ∈ senders

variable {senders : Finset UInt32}

/-- There is room for one more of few threads. -/
theorem Agrees.has_room (h : Agrees senders k w) (hb : Balanced k)
    (hfew : senders.card ≤ maxTenants) {tid : UInt32} (htid : tid ∈ senders) :
    tid ∈ k.store.table.map Prod.fst ∨ k.store.table.length < maxTenants := by
  by_cases hmem : tid ∈ k.store.table.map Prod.fst
  · exact Or.inl hmem
  · right
    have hsub : (k.store.table.map Prod.fst).toFinset ⊂ senders := by
      rw [Finset.ssubset_iff_of_subset fun t ht => h.known t (List.mem_toFinset.mp ht)]
      exact ⟨tid, htid, fun ht => hmem (List.mem_toFinset.mp ht)⟩
    have hcard := Finset.card_lt_card hsub
    rw [List.toFinset_card_of_nodup hb.distinct, List.length_map] at hcard
    omega

/-- **One call moves both probes alike.** -/
theorem Agrees.step (h : Agrees senders k w) (hb : Balanced k) (hfew : senders.card ≤ maxTenants)
    (hroom : c.2 = true) (hsenders : ∀ tid, SendsFrom c.1 tid → tid ∈ senders)
    (hk : k.step c = some k') : ∃ w', w.step c.1 = some w' ∧ Agrees senders k' w' := by
  obtain ⟨hclock, hcases⟩ := k.step_cases hk
  have hnow : ¬ c.1.time < w.clock := by
    rw [h.clock]
    exact UInt64.not_lt.mpr hclock
  have hmaps := h.maps
  rcases hcases with ⟨rfl, hpass⟩ | ⟨hsite, hport, rfl⟩ | ⟨ret, slot, hsite, hret, hslot, rfl⟩
  · rcases hpass with ⟨hsite, hport⟩ | ⟨ret, hsite, hidle⟩
    · refine ⟨_, by rw [World.step, if_neg hnow, hsite], ?_, rfl, h.known⟩
      show traceTcpSendmsg w.maps c.1.pidTgid c.1.sk c.1.time = k.store.maps
      rw [traceTcpSendmsg, if_pos hport, hmaps]
    · refine ⟨_, by rw [World.step, if_neg hnow, hsite], ?_, rfl, h.known⟩
      show traceTcpRecvmsgRet w.maps c.1.pidTgid ret c.1.time true = k.store.maps
      rw [traceTcpRecvmsgRet_idle, hmaps]
      refine hidle.imp_right fun hnone => ?_
      rw [hmaps]
      show (entry Prod.fst k.store.table (tidOf c.1.pidTgid)).map Prod.snd = none
      rw [hnone]
      rfl
  · have htid := hsenders _ ⟨hsite, hport, rfl⟩
    have hfits := h.has_room hb hfew htid
    refine ⟨_, by rw [World.step, if_neg hnow, hsite], ?_, rfl, ?_⟩
    · show traceTcpSendmsg w.maps c.1.pidTgid c.1.sk c.1.time = _
      rw [traceTcpSendmsg, if_neg (not_not.mpr hport), hmaps]
      show (⟨_, k.store.events⟩ : Maps) = ⟨_, k.store.events⟩
      congr 1
      funext tid
      show Function.update k.store.maps.tenantTs (tidOf c.1.pidTgid) (some c.1.time) tid
        = (entry Prod.fst (put Prod.fst maxTenants k.store.table (tidOf c.1.pidTgid, c.1.time))
            tid).map Prod.snd
      rw [entry_put]
      by_cases hself : tid = tidOf c.1.pidTgid
      · rw [hself, Function.update_self, if_pos ⟨rfl, hfits⟩]
        rfl
      · rw [Function.update_of_ne hself, if_neg fun hc => hself hc.1.symm]
        rfl
    · intro tid hmem
      have hmem' : tid ∈ (put Prod.fst maxTenants k.store.table
          (tidOf c.1.pidTgid, c.1.time)).map Prod.fst := hmem
      rw [keys_put] at hmem'
      rcases List.mem_append.mp hmem' with hold | hnew
      · exact h.known tid hold
      · split at hnew
        · cases hnew
        · rw [List.mem_singleton.mp hnew]
          exact htid
  · refine ⟨_, by rw [World.step, if_neg hnow, hsite], ?_, rfl, ?_⟩
    · show traceTcpRecvmsgRet w.maps c.1.pidTgid ret c.1.time true = _
      have hts : w.maps.tenantTs (tidOf c.1.pidTgid) = some slot.2 := by
        rw [hmaps]
        show (entry Prod.fst k.store.table (tidOf c.1.pidTgid)).map Prod.snd = _
        rw [hslot]
        rfl
      rw [traceTcpRecvmsgRet_some (Int32.not_le.mpr hret) hts, hmaps, hroom]
      show (⟨_, _⟩ : Maps) = ⟨_, _⟩
      congr 1
      funext tid
      show Function.update k.store.maps.tenantTs (tidOf c.1.pidTgid) none tid
        = (entry Prod.fst (remove Prod.fst k.store.table (tidOf c.1.pidTgid)) tid).map Prod.snd
      rw [entry_remove]
      by_cases hself : tid = tidOf c.1.pidTgid
      · rw [hself, Function.update_self, if_pos rfl]
        rfl
      · rw [Function.update_of_ne hself, if_neg hself]
        rfl
    · intro tid hmem
      obtain ⟨a, ha, hself⟩ := List.mem_map.mp hmem
      exact h.known tid (List.mem_map.mpr ⟨a, (List.mem_filter.mp ha).1, hself⟩)

theorem Agrees.along {cs : List (Call × Bool)} (h : Agrees senders k w) (hb : Balanced k)
    (hfew : senders.card ≤ maxTenants)
    (hsenders : ∀ c ∈ cs, ∀ tid, SendsFrom c.1 tid → tid ∈ senders)
    (hroom : ∀ c ∈ cs, c.2 = true) (hrun : run Kernel.step k cs = some k') :
    ∃ w', run World.step w (cs.map Prod.fst) = some w' ∧ Agrees senders k' w' := by
  induction cs generalizing k w with
  | nil =>
      cases hrun
      exact ⟨w, rfl, h⟩
  | cons c cs ih =>
      obtain ⟨k₁, hstep, hrest⟩ := run_cons.mp hrun
      obtain ⟨w₁, hw, h₁⟩ := h.step hb hfew (hroom c List.mem_cons_self)
        (hsenders c List.mem_cons_self) hstep
      obtain ⟨w', hw', h'⟩ := ih h₁ (hb.step hstep)
        (fun d hd => hsenders d (List.mem_cons_of_mem c hd))
        (fun d hd => hroom d (List.mem_cons_of_mem c hd)) hrest
      exact ⟨w', run_cons.mpr ⟨w₁, hw, hw'⟩, h'⟩

/-- **With few senders the limits do not show.**  As long as no more than 65536 threads send to
the database port, and the ring buffer has room, the probe runs as it does without limits: every
run of it is one of the unlimited probe with the same events and the same send times. -/
theorem limited_probe_agrees {cs : List (Call × Bool)} (senders : Finset UInt32)
    (hfew : senders.card ≤ maxTenants)
    (hsenders : ∀ c ∈ cs, ∀ tid, SendsFrom c.1 tid → tid ∈ senders)
    (hroom : ∀ c ∈ cs, c.2 = true) (hrun : run Kernel.step Kernel.init cs = some k) :
    ∃ w, run World.step World.init (cs.map Prod.fst) = some w ∧ w.maps = k.store.maps := by
  have hinit : Agrees senders Kernel.init World.init :=
    ⟨rfl, rfl, fun _ hmem => absurd hmem List.not_mem_nil⟩
  obtain ⟨w, hw, h⟩ := hinit.along Balanced.init hfew hsenders hroom hrun
  exact ⟨w, hw, h.maps⟩

/-- Two queries of one thread, the event of the first of them without room. -/
def roundTrips : List (Call × Bool) :=
  [(⟨7, ⟨1, 0x401F⟩, 1000, .sendmsg⟩, true), (⟨7, ⟨1, 0x401F⟩, 3000, .recvmsgRet 64⟩, false),
    (⟨7, ⟨1, 0x401F⟩, 5000, .sendmsg⟩, true), (⟨7, ⟨1, 0x401F⟩, 9000, .recvmsgRet 64⟩, true)]

theorem limited_probe_agrees_trips :
    ∃ k w, run Kernel.step Kernel.init (roundTrips.drop 2) = some k ∧
      run World.step World.init ((roundTrips.drop 2).map Prod.fst) = some w ∧
      w.maps = k.store.maps := by
  obtain ⟨k, hrun⟩ : ∃ k, run Kernel.step Kernel.init (roundTrips.drop 2) = some k := ⟨_, rfl⟩
  obtain ⟨w, hw, hmaps⟩ := limited_probe_agrees {7} (by decide) (by
    intro c hc tid hsends
    rw [← hsends.2.2]
    simp only [roundTrips, List.drop_succ_cons, List.drop_zero, List.mem_cons, List.not_mem_nil,
      or_false] at hc
    rcases hc with rfl | rfl
    · decide
    · decide) (by decide) hrun
  exact ⟨k, w, hrun, hw, hmaps⟩

end NexusCore.Latency
