import NexusCore.Foundation.ByteOrder
import NexusCore.Foundation.Climb
import NexusCore.Foundation.StructLayout
import NexusCore.Heat.Interleaving

/-!
# Hot-node alerts, from the map to the loader

`node_heat_map` drops the least recently used entries when it is full, the ring buffer may have
no room for an event, and the loader takes the events out of it one by one.  A `Watch` is the
whole system: the world of the counter, the records in the ring buffer and what the loader has
printed; beside it, as the truth to compare with, which counts the executions computed.

The counts of a node climb by one whatever the order of the requests is and whatever is
evicted in between.  So an alert needs 500 executions, and a count of 500 cannot be reached
without one:

* `alerts_within_reads`: `n` executions for a node give at most `n - 499` alerts;
* `hot_node_alerted`: a node whose entry reached 500 was reported, or is about to be, unless
  the ring buffer had no room;
* `decode_heatEventBytes`: what the loader reads are the fields that the probe wrote.
-/

namespace NexusCore.Heat

open Foundation.ByteOrder Foundation.Climb Foundation.Increment Foundation.StructLayout
  Foundation.Transition

/-! ### The loader -/

/-- The members of `struct heat_event` with the bytes they hold. -/
def heatEventFields (e : HeatEvent) : List (Member × List UInt8) :=
  [(⟨4, 4⟩, u32ToLe e.nodeId), (⟨4, 4⟩, u32ToLe e.pid), (⟨8, 8⟩, u64ToLe e.readCount),
    (⟨8, 8⟩, u64ToLe e.tsNs)]

/-- `struct heat_event` in memory. -/
def heatEventBytes (e : HeatEvent) : List UInt8 := naturalImage (heatEventFields e)

/-- `binary.Read` into a `HeatEvent`: 24 bytes, one field after the other. -/
def decodeHeatEvent (b : List UInt8) : Option HeatEvent :=
  if b.length < 24 then none
  else some
    { nodeId := u32FromLe (b.take 4)
      pid := u32FromLe ((b.drop 4).take 4)
      readCount := u64FromLe ((b.drop 8).take 8)
      tsNs := u64FromLe ((b.drop 16).take 8) }

/-- One turn of the loader's loop: a record that cannot be read is passed over. -/
def printRecord (printed : List HeatEvent) (record : List UInt8) : List HeatEvent :=
  match decodeHeatEvent record with
  | none => printed
  | some e => printed ++ [e]

theorem heatEventBytes_eq (e : HeatEvent) : heatEventBytes e
    = u32ToLe e.nodeId ++ (u32ToLe e.pid ++ (u64ToLe e.readCount ++ u64ToLe e.tsNs)) := by
  have hsizes : SizesMatch (heatEventFields e) := by
    intro f hf
    simp only [heatEventFields, List.mem_cons, List.not_mem_nil, or_false] at hf
    rcases hf with rfl | rfl | rfl | rfl
    · exact u32ToLe_length _
    · exact u32ToLe_length _
    · exact u64ToLe_length _
    · exact u64ToLe_length _
  have hmembers : members (heatEventFields e) = [⟨4, 4⟩, ⟨4, 4⟩, ⟨8, 8⟩, ⟨8, 8⟩] := rfl
  have hlength : (packedImage (heatEventFields e)).length = 24 := packedImage_length hsizes
  have hpad : roundUp 24 (recordAlign [⟨4, 4⟩, ⟨4, 4⟩, ⟨8, 8⟩, ⟨8, 8⟩]) - 24 = 0 := by decide
  rw [heatEventBytes, naturalImage_eq (by rw [hmembers]; decide), hlength, hmembers, hpad,
    packedImage_eq]
  simp only [heatEventFields, List.map_cons, List.map_nil, List.flatten_cons, List.flatten_nil,
    List.append_nil, List.replicate_zero]

/-- **The record of an event is read back as the event.** -/
theorem decode_heatEventBytes (e : HeatEvent) : decodeHeatEvent (heatEventBytes e) = some e := by
  have h₁ := u32ToLe_length e.nodeId
  have h₂ := u32ToLe_length e.pid
  have h₃ := u64ToLe_length e.readCount
  have h₄ := u64ToLe_length e.tsNs
  have hnode : (heatEventBytes e).take 4 = u32ToLe e.nodeId := by
    rw [heatEventBytes_eq, ← h₁, List.take_left]
  have hdrop : (heatEventBytes e).drop 4
      = u32ToLe e.pid ++ (u64ToLe e.readCount ++ u64ToLe e.tsNs) := by
    rw [heatEventBytes_eq, ← h₁, List.drop_left]
  have hdrop' : (heatEventBytes e).drop 8 = u64ToLe e.readCount ++ u64ToLe e.tsNs := by
    rw [show 8 = 4 + 4 from rfl, ← List.drop_drop, hdrop, ← h₂, List.drop_left]
  have hdrop'' : (heatEventBytes e).drop 16 = u64ToLe e.tsNs := by
    rw [show 16 = 8 + 8 from rfl, ← List.drop_drop, hdrop', ← h₃, List.drop_left]
  have hlength : ¬ (heatEventBytes e).length < 24 := by
    rw [heatEventBytes_eq]
    simp only [List.length_append]
    omega
  rw [decodeHeatEvent, if_neg hlength, hnode, hdrop, hdrop', hdrop'',
    List.take_of_length_le (Nat.le_of_eq h₄), ← h₂, List.take_left, ← h₃, List.take_left,
    u32FromLe_u32ToLe, u32FromLe_u32ToLe, u64FromLe_u64ToLe, u64FromLe_u64ToLe]

/-! ### The system -/

/-- The world, the records in the ring buffer, what the loader printed; and as the truth, the
counts that the executions for each node computed, the newest first, and how many alerts for
it found no room. -/
structure Watch where
  world : World
  ring : List (List UInt8)
  printed : List HeatEvent
  computed : UInt32 → List ℕ
  dropped : UInt32 → ℕ

def Watch.init : Watch := ⟨World.init, [], [], fun _ => [], fun _ => 0⟩

inductive Act
  /-- an execution looks its node up -/
  | lookup (fd : UInt32) (pidTgid : UInt64)
  /-- one of those under way makes its update -/
  | update (i : ℕ)
  /-- one of those under way tests the threshold; the ring buffer has room or has not -/
  | finish (i : ℕ) (now : UInt64) (room : Bool)
  /-- the map drops an entry to make room for another -/
  | evict (node : UInt32)
  /-- the loader reads the next record -/
  | read
  deriving DecidableEq, Repr

/-- One request, one eviction, or one record read.  An execution that finds no room returns as
one that is not at the threshold does. -/
def Watch.step (fdToNode : UInt32 → Option UInt32) (w : Watch) : Act → Option Watch
  | .lookup fd pidTgid =>
      (w.world.step fdToNode (.lookup fd pidTgid)).map fun world => { w with world := world }
  | .update i =>
      match w.world.running[i]? with
      | some ⟨node, _, .looked seen⟩ =>
          (w.world.step fdToNode (.update i)).map fun world =>
            { w with
              world := world
              computed := Function.update w.computed node
                ((newCount seen).toNat :: w.computed node) }
      | _ => none
  | .finish i now room =>
      match w.world.running[i]? with
      | some ⟨node, pidTgid, .updated newCnt⟩ =>
          if newCnt = hotNodeThreshold ∧ room = false then some
            { w with
              world := { w.world with running := w.world.running.eraseIdx i }
              dropped := Function.update w.dropped node (w.dropped node + 1) }
          else (w.world.step fdToNode (.finish i now)).map fun world =>
            { w with
              world := world
              ring := w.ring ++ (report [] node pidTgid newCnt now).map heatEventBytes }
      | _ => none
  | .evict node => some
      { w with world := { w.world with
          maps := ⟨Function.update w.world.maps.heat node none, w.world.maps.events⟩ } }
  | .read =>
      match w.ring with
      | [] => none
      | record :: ring => some { w with ring := ring, printed := printRecord w.printed record }

/-! ### What one step does -/

variable {fdToNode : UInt32 → Option UInt32} {w w' : Watch} {a : Act}
  {before after : List Execution} {node : UInt32} {pidTgid newCnt now : UInt64}
  {seen : Option UInt64}

/-- After the update of an execution that stands between two parts of the list. -/
def Watch.updated (w : Watch) (before after : List Execution) (node : UInt32) (pidTgid : UInt64)
    (seen : Option UInt64) : Watch :=
  { w with
    world := w.world.updated before after node pidTgid seen
    computed := Function.update w.computed node ((newCount seen).toNat :: w.computed node) }

/-- After the end of an execution that had its room, or needed none. -/
def Watch.finished (w : Watch) (before after : List Execution) (node : UInt32)
    (pidTgid newCnt now : UInt64) : Watch :=
  { w with
    world := w.world.finished before after node pidTgid newCnt now
    ring := w.ring ++ ((report [] node pidTgid newCnt now).map heatEventBytes) }

/-- After the end of an execution that found no room. -/
def Watch.dropping (w : Watch) (before after : List Execution) (node : UInt32) : Watch :=
  { w with
    world := { w.world with running := before ++ after }
    dropped := Function.update w.dropped node (w.dropped node + 1) }

/-- After an eviction. -/
def Watch.evicted (w : Watch) (node : UInt32) : Watch :=
  { w with world := { w.world with
      maps := ⟨Function.update w.world.maps.heat node none, w.world.maps.events⟩ } }

theorem Watch.step_lookup {fd : UInt32} (h : w.step fdToNode (.lookup fd pidTgid) = some w') :
    fdToNode fd = none ∧ w' = w ∨
      ∃ node, fdToNode fd = some node ∧ w' = { w with world := w.world.lookedUp node pidTgid } := by
  obtain ⟨world, hworld, rfl⟩ := Option.map_eq_some_iff.mp h
  rcases w.world.step_lookup hworld with ⟨hnone, rfl⟩ | ⟨node, hnode, rfl⟩
  · exact Or.inl ⟨hnone, rfl⟩
  · exact Or.inr ⟨node, hnode, rfl⟩

theorem Watch.step_update {i : ℕ} (h : w.step fdToNode (.update i) = some w') :
    ∃ before after node pidTgid seen,
      w.world.running = before ++ ⟨node, pidTgid, .looked seen⟩ :: after ∧
        w' = w.updated before after node pidTgid seen := by
  rw [Watch.step] at h
  split at h
  · next node pidTgid seen hi =>
      obtain ⟨before, after, hsplit, hset, -⟩ := split_of_getElem? hi
      refine ⟨before, after, node, pidTgid, seen, hsplit, ?_⟩
      rw [World.step, hi] at h
      cases h
      rw [hset, Watch.updated, World.updated]
  · cases h

theorem Watch.step_finish {i : ℕ} {room : Bool}
    (h : w.step fdToNode (.finish i now room) = some w') :
    ∃ before after node pidTgid newCnt,
      w.world.running = before ++ ⟨node, pidTgid, .updated newCnt⟩ :: after ∧
        (newCnt = hotNodeThreshold ∧ room = false ∧ w' = w.dropping before after node ∨
          (newCnt = hotNodeThreshold → room = true) ∧
            w' = w.finished before after node pidTgid newCnt now) := by
  rw [Watch.step] at h
  split at h
  · next node pidTgid newCnt hi =>
      obtain ⟨before, after, hsplit, -, herase⟩ := split_of_getElem? hi
      refine ⟨before, after, node, pidTgid, newCnt, hsplit, ?_⟩
      by_cases hdrop : newCnt = hotNodeThreshold ∧ room = false
      · rw [if_pos hdrop] at h
        cases h
        refine Or.inl ⟨hdrop.1, hdrop.2, ?_⟩
        rw [herase, Watch.dropping]
      · rw [if_neg hdrop, World.step, hi] at h
        cases h
        refine Or.inr ⟨fun hcnt => ?_, ?_⟩
        · exact Bool.eq_true_of_not_eq_false fun hroom => hdrop ⟨hcnt, hroom⟩
        · rw [herase, Watch.finished, World.finished]
  · cases h

theorem Watch.step_read (h : w.step fdToNode .read = some w') :
    ∃ record ring, w.ring = record :: ring ∧
      w' = { w with ring := ring, printed := printRecord w.printed record } := by
  rw [Watch.step] at h
  split at h
  · cases h
  · next record ring hring =>
      cases h
      exact ⟨record, ring, hring, rfl⟩

/-! ### Counts that climb -/

/-- What holds in every state: the counts of a node climb, the entry and what was looked up are
not above them, and each computed 500 was submitted, found no room, or is about to be tested. -/
structure Accounted (w : Watch) : Prop where
  climbs : ∀ node, Climbs (w.computed node)
  stored_le : ∀ node, countOf (w.world.maps.heat node) ≤ peak (w.computed node)
  seen_le : ∀ x ∈ w.world.running, ∀ seen, x.stage = .looked seen →
    countOf seen ≤ peak (w.computed x.node)
  alerted : ∀ node, (alerts w.world.maps.events node).length + w.dropped node
    + w.world.running.countP (owes node) = (w.computed node).count 500
  length_eq : ∀ node, (w.computed node).length = w.world.written node

theorem Accounted.init : Accounted Watch.init where
  climbs := fun _ => trivial
  stored_le := fun _ => Nat.le_refl 0
  seen_le := nofun
  alerted := fun _ => rfl
  length_eq := fun _ => rfl

theorem Accounted.lookedUp (h : Accounted w) (node : UInt32) (pidTgid : UInt64) :
    Accounted { w with world := w.world.lookedUp node pidTgid } where
  climbs := h.climbs
  stored_le := h.stored_le
  seen_le := by
    intro x hx seen hstage
    rcases List.mem_append.mp hx with hold | hlast
    · exact h.seen_le x hold seen hstage
    · rw [List.mem_singleton.mp hlast] at hstage ⊢
      rw [← Stage.looked.inj hstage]
      exact h.stored_le node
  alerted := by
    intro node'
    rw [← h.alerted node']
    show (alerts w.world.maps.events node').length + w.dropped node'
      + (w.world.running ++ [_]).countP (owes node') = _
    rw [List.countP_append]
    simp [owes]
  length_eq := h.length_eq

/-- An entry after a request is what it was or the new count. -/
theorem countOf_updateHeat_cases (heat : UInt32 → Option UInt64) (node : UInt32)
    (seen : Option UInt64) :
    countOf (updateHeat heat node seen node) = (newCount seen).toNat ∨
      countOf (updateHeat heat node seen node) = countOf (heat node) := by
  rw [updateHeat, mapUpdate_self]
  by_cases hmet : (heat node).isSome ↔ (if seen.isSome then UpdateFlag.exist else .noexist) = .exist
  · rw [if_pos hmet]
    exact Or.inl rfl
  · rw [if_neg hmet]
    exact Or.inr rfl

/-- The greatest count of a node does not fall. -/
theorem peak_le_updated (w : Watch) (before after : List Execution) (node : UInt32)
    (pidTgid : UInt64) (seen : Option UInt64) (node' : UInt32) :
    peak (w.computed node')
      ≤ peak ((w.updated before after node pidTgid seen).computed node') := by
  show _ ≤ peak (Function.update w.computed node _ node')
  by_cases hnode : node' = node
  · rw [hnode, Function.update_self, peak_cons]
    exact le_max_right _ _
  · rw [Function.update_of_ne hnode]

theorem owes_updated_iff (node node' : UInt32) (pidTgid : UInt64) (seen : Option UInt64) :
    owes node' ⟨node, pidTgid, .updated (newCount seen)⟩
      = decide (node = node' ∧ (newCount seen).toNat = 500) := by
  simp [owes, hotNodeThreshold, ← UInt64.toNat_inj]

/-- The executions beside one are under way too. -/
theorem mem_of_beside {x y : Execution} (hrunning : w.world.running = before ++ x :: after)
    (hy : y ∈ before ++ after) : y ∈ w.world.running := by
  rw [hrunning]
  rcases List.mem_append.mp hy with hb | ha
  · exact List.mem_append_left _ hb
  · exact List.mem_append_right _ (List.mem_cons_of_mem _ ha)

theorem Accounted.updated (h : Accounted w)
    (hrunning : w.world.running = before ++ ⟨node, pidTgid, .looked seen⟩ :: after) :
    Accounted (w.updated before after node pidTgid seen) where
  climbs := by
    intro node'
    show Climbs (Function.update w.computed node _ node')
    by_cases hnode : node' = node
    · rw [hnode, Function.update_self]
      have hseen : countOf seen ≤ peak (w.computed node) :=
        h.seen_le ⟨node, pidTgid, .looked seen⟩ (by rw [hrunning]; simp) seen rfl
      exact ⟨Nat.le_trans (toNat_newCount_le seen) (Nat.succ_le_succ hseen), h.climbs node⟩
    · rw [Function.update_of_ne hnode]
      exact h.climbs node'
  stored_le := by
    intro node'
    have hpeak := peak_le_updated w before after node pidTgid seen node'
    have hold := Nat.le_trans (h.stored_le node') hpeak
    show countOf (updateHeat w.world.maps.heat node seen node') ≤ _
    by_cases hnode : node' = node
    · subst hnode
      rcases countOf_updateHeat_cases w.world.maps.heat node' seen with heq | heq
      · rw [heq]
        apply le_peak
        show _ ∈ Function.update w.computed node' _ node'
        rw [Function.update_self]
        exact List.mem_cons_self
      · rw [heq]
        exact hold
    · rw [updateHeat, mapUpdate_of_ne _ _ hnode]
      exact hold
  seen_le := by
    intro x hx seen' hstage
    refine Nat.le_trans (h.seen_le x (mem_of_beside hrunning ?_) seen' hstage)
      (peak_le_updated w before after node _ _ _)
    rcases List.mem_append.mp hx with hb | ha
    · exact List.mem_append_left _ hb
    · rcases List.mem_cons.mp ha with rfl | ha
      · cases hstage
      · exact List.mem_append_right _ ha
  alerted := by
    intro node'
    have hbefore := h.alerted node'
    rw [hrunning, List.countP_append, List.countP_cons] at hbefore
    have hold : owes node' ⟨node, pidTgid, .looked seen⟩ = false := by simp [owes]
    rw [hold] at hbefore
    show (alerts w.world.maps.events node').length + w.dropped node'
      + (before ++ _ :: after).countP (owes node')
      = (Function.update w.computed node _ node').count 500
    rw [List.countP_append, List.countP_cons, owes_updated_iff]
    by_cases hnode : node' = node
    · subst hnode
      rw [Function.update_self, List.count_cons, ← hbefore]
      simp only [true_and, decide_eq_true_eq, beq_iff_eq, Bool.false_eq_true, if_false]
      omega
    · rw [Function.update_of_ne hnode, ← hbefore]
      simp only [Ne.symm hnode, false_and, decide_false, Bool.false_eq_true, if_false]
  length_eq := by
    intro node'
    show (Function.update w.computed node _ node').length
      = Function.update w.world.written node (w.world.written node + 1) node'
    by_cases hnode : node' = node
    · rw [hnode, Function.update_self, Function.update_self, List.length_cons, h.length_eq]
    · rw [Function.update_of_ne hnode, Function.update_of_ne hnode, h.length_eq]

theorem Accounted.finished (h : Accounted w)
    (hrunning : w.world.running = before ++ ⟨node, pidTgid, .updated newCnt⟩ :: after) :
    Accounted (w.finished before after node pidTgid newCnt now) where
  climbs := h.climbs
  stored_le := h.stored_le
  seen_le := fun x hx => h.seen_le x (mem_of_beside hrunning hx)
  alerted := by
    intro node'
    have hbefore := h.alerted node'
    rw [hrunning, List.countP_append, List.countP_cons] at hbefore
    show (alerts (report w.world.maps.events node pidTgid newCnt now) node').length
      + w.dropped node' + (before ++ after).countP (owes node') = (w.computed node').count 500
    rw [alerts_report, List.length_append, List.countP_append, ← hbefore]
    split
    · rw [List.length_singleton]
      omega
    · rw [List.length_nil]
      omega
  length_eq := h.length_eq

theorem Accounted.dropping (h : Accounted w)
    (hrunning : w.world.running = before ++ ⟨node, pidTgid, .updated hotNodeThreshold⟩ :: after) :
    Accounted (w.dropping before after node) where
  climbs := h.climbs
  stored_le := h.stored_le
  seen_le := fun x hx => h.seen_le x (mem_of_beside hrunning hx)
  alerted := by
    intro node'
    have hbefore := h.alerted node'
    rw [hrunning, List.countP_append, List.countP_cons] at hbefore
    show (alerts w.world.maps.events node').length
      + Function.update w.dropped node (w.dropped node + 1) node'
      + (before ++ after).countP (owes node') = (w.computed node').count 500
    rw [List.countP_append, ← hbefore]
    by_cases hnode : node' = node
    · subst hnode
      have howes : owes node' ⟨node', pidTgid, .updated hotNodeThreshold⟩ = true := by simp [owes]
      rw [Function.update_self, howes, if_pos rfl]
      omega
    · have howes : owes node' ⟨node, pidTgid, .updated hotNodeThreshold⟩ = false := by
        simp [owes, Ne.symm hnode]
      rw [Function.update_of_ne hnode, howes, if_neg Bool.false_ne_true]
      omega
  length_eq := h.length_eq

theorem Accounted.evicted (h : Accounted w) (node : UInt32) : Accounted (w.evicted node) where
  climbs := h.climbs
  stored_le := by
    intro node'
    show countOf (Function.update w.world.maps.heat node none node') ≤ _
    by_cases hnode : node' = node
    · rw [hnode, Function.update_self]
      exact Nat.zero_le _
    · rw [Function.update_of_ne hnode]
      exact h.stored_le node'
  seen_le := h.seen_le
  alerted := h.alerted
  length_eq := h.length_eq

theorem Accounted.step (h : Accounted w) (hw : w.step fdToNode a = some w') : Accounted w' := by
  cases a with
  | lookup fd pidTgid =>
      rcases w.step_lookup hw with ⟨-, rfl⟩ | ⟨node, -, rfl⟩
      · exact h
      · exact h.lookedUp node pidTgid
  | update i =>
      obtain ⟨before, after, node, pidTgid, seen, hrunning, rfl⟩ := w.step_update hw
      exact h.updated hrunning
  | finish i now room =>
      obtain ⟨before, after, node, pidTgid, newCnt, hrunning, hend⟩ := w.step_finish hw
      rcases hend with ⟨rfl, -, rfl⟩ | ⟨-, rfl⟩
      · exact h.dropping hrunning
      · exact h.finished hrunning
  | evict node =>
      cases hw
      exact h.evicted node
  | read =>
      obtain ⟨record, ring, -, rfl⟩ := w.step_read hw
      exact ⟨h.climbs, h.stored_le, h.seen_le, h.alerted, h.length_eq⟩

/-! ### What the loader prints -/

/-- The events submitted are those printed, and behind them those in the ring buffer. -/
def Delivers (w : Watch) : Prop :=
  ∃ pending, w.ring = pending.map heatEventBytes ∧ w.printed ++ pending = w.world.maps.events

theorem report_eq_append (events : List HeatEvent) (node : UInt32) (pidTgid newCnt now : UInt64) :
    report events node pidTgid newCnt now = events ++ report [] node pidTgid newCnt now := by
  rw [report, report]
  split
  · rw [List.nil_append]
  · rw [List.append_nil]

theorem Delivers.step (h : Delivers w) (hw : w.step fdToNode a = some w') : Delivers w' := by
  obtain ⟨pending, hring, hevents⟩ := h
  cases a with
  | lookup fd pidTgid =>
      rcases w.step_lookup hw with ⟨-, rfl⟩ | ⟨node, -, rfl⟩
      · exact ⟨pending, hring, hevents⟩
      · exact ⟨pending, hring, hevents⟩
  | update i =>
      obtain ⟨before, after, node, pidTgid, seen, -, rfl⟩ := w.step_update hw
      exact ⟨pending, hring, hevents⟩
  | finish i now room =>
      obtain ⟨before, after, node, pidTgid, newCnt, -, hend⟩ := w.step_finish hw
      rcases hend with ⟨-, -, rfl⟩ | ⟨-, rfl⟩
      · exact ⟨pending, hring, hevents⟩
      · refine ⟨pending ++ report [] node pidTgid newCnt now, ?_, ?_⟩
        · show w.ring ++ _ = _
          rw [hring, List.map_append]
        · show w.printed ++ _ = report w.world.maps.events node pidTgid newCnt now
          rw [report_eq_append w.world.maps.events, ← hevents, List.append_assoc]
  | evict node =>
      cases hw
      exact ⟨pending, hring, hevents⟩
  | read =>
      obtain ⟨record, ring, hhead, rfl⟩ := w.step_read hw
      rw [hhead] at hring
      cases pending with
      | nil => cases hring
      | cons e pending =>
          obtain ⟨rfl, hrest⟩ := List.cons.inj hring
          refine ⟨pending, hrest, ?_⟩
          show printRecord w.printed (heatEventBytes e) ++ pending = _
          rw [printRecord, decode_heatEventBytes, ← hevents, List.append_assoc,
            List.singleton_append]

/-! ### Where the events come from -/

/-- One of the acts began an execution for the node. -/
def BegunBy (fdToNode : UInt32 → Option UInt32) (acts : List Act) (node : UInt32)
    (pidTgid : UInt64) : Prop := ∃ fd, .lookup fd pidTgid ∈ acts ∧ fdToNode fd = some node

/-- Executions and events stem from a list of acts, and events carry the threshold. -/
structure Stems (fdToNode : UInt32 → Option UInt32) (acts : List Act) (w : Watch) : Prop where
  running : ∀ x ∈ w.world.running, BegunBy fdToNode acts x.node x.pidTgid
  events : ∀ e ∈ w.world.maps.events, e.readCount = hotNodeThreshold ∧
    ∃ pidTgid, BegunBy fdToNode acts e.nodeId pidTgid ∧ e.pid = (pidTgid >>> 32).toUInt32

variable {acts : List Act}

/-- The executions beside one that ends are still those that were begun. -/
theorem Stems.beside {x : Execution} (h : Stems fdToNode acts w)
    (hrunning : w.world.running = before ++ x :: after) :
    BegunBy fdToNode acts x.node x.pidTgid ∧
      ∀ y ∈ before ++ after, BegunBy fdToNode acts y.node y.pidTgid := by
  exact ⟨h.running x (by rw [hrunning]; simp), fun y hy => h.running y (mem_of_beside hrunning hy)⟩

theorem Stems.step (h : Stems fdToNode acts w) (ha : a ∈ acts)
    (hw : w.step fdToNode a = some w') : Stems fdToNode acts w' := by
  cases a with
  | lookup fd pidTgid =>
      rcases w.step_lookup hw with ⟨-, rfl⟩ | ⟨node, hnode, rfl⟩
      · exact h
      · refine ⟨fun x hx => ?_, h.events⟩
        rcases List.mem_append.mp hx with hold | hlast
        · exact h.running x hold
        · rw [List.mem_singleton.mp hlast]
          exact ⟨fd, ha, hnode⟩
  | update i =>
      obtain ⟨before, after, node, pidTgid, seen, hrunning, rfl⟩ := w.step_update hw
      obtain ⟨hself, hothers⟩ := h.beside hrunning
      refine ⟨fun x hx => ?_, h.events⟩
      rcases List.mem_append.mp hx with hb | hx
      · exact hothers x (List.mem_append_left _ hb)
      · rcases List.mem_cons.mp hx with rfl | hx
        · exact hself
        · exact hothers x (List.mem_append_right _ hx)
  | finish i now room =>
      obtain ⟨before, after, node, pidTgid, newCnt, hrunning, hend⟩ := w.step_finish hw
      obtain ⟨hself, hothers⟩ := h.beside hrunning
      rcases hend with ⟨-, -, rfl⟩ | ⟨-, rfl⟩
      · exact ⟨hothers, h.events⟩
      · refine ⟨hothers, fun e he => ?_⟩
        have he' : e ∈ report w.world.maps.events node pidTgid newCnt now := he
        rw [report] at he'
        split at he'
        · next hcnt =>
            rcases List.mem_append.mp he' with hold | hlast
            · exact h.events e hold
            · rw [List.mem_singleton.mp hlast]
              exact ⟨hcnt, pidTgid, hself, rfl⟩
        · exact h.events e he'
  | evict node =>
      cases hw
      exact ⟨h.running, h.events⟩
  | read =>
      obtain ⟨record, ring, -, rfl⟩ := w.step_read hw
      exact ⟨h.running, h.events⟩

/-! ### How many executions there were -/

/-- The node of the execution that an act begins. -/
def Act.nodeOf (fdToNode : UInt32 → Option UInt32) : Act → Option UInt32
  | .lookup fd _ => fdToNode fd
  | _ => none

/-- How many executions for a node the acts begin. -/
def begunIn (fdToNode : UInt32 → Option UInt32) (acts : List Act) (node : UInt32) : ℕ :=
  (acts.filterMap (Act.nodeOf fdToNode)).count node

theorem begunIn_cons (fdToNode : UInt32 → Option UInt32) (a : Act) (acts : List Act)
    (node : UInt32) :
    begunIn fdToNode (a :: acts) node = begunIn fdToNode [a] node + begunIn fdToNode acts node := by
  rw [begunIn, ← List.singleton_append, List.filterMap_append, List.count_append]
  rfl

theorem begun_act (hw : w.step fdToNode a = some w') (node : UInt32) :
    w'.world.counters.begun node = w.world.counters.begun node + begunIn fdToNode [a] node := by
  cases a with
  | lookup fd pidTgid =>
      rcases w.step_lookup hw with ⟨hnone, rfl⟩ | ⟨node', hnode, rfl⟩
      · have hof : Act.nodeOf fdToNode (.lookup fd pidTgid) = none := hnone
        rw [begunIn, List.filterMap_cons_none hof]
        rfl
      · have hof : Act.nodeOf fdToNode (.lookup fd pidTgid) = some node' := hnode
        rw [counters_lookedUp, Counters.begun_read, begunIn, List.filterMap_cons_some hof]
        rfl
  | update i =>
      obtain ⟨before, after, node', pidTgid, seen, hrunning, rfl⟩ := w.step_update hw
      show (w.world.updated before after node' pidTgid seen).counters.begun node = _
      rw [counters_updated, Counters.begun_write (reads_eq hrunning)]
      rfl
  | finish i now room =>
      obtain ⟨before, after, node', pidTgid, newCnt, hrunning, hend⟩ := w.step_finish hw
      have hsame : ((w.world.finished before after node' pidTgid newCnt now).counters).begun node
          = w.world.counters.begun node := by
        rw [counters_finished hrunning]
      rcases hend with ⟨-, -, rfl⟩ | ⟨-, rfl⟩
      · exact hsame
      · exact hsame
  | evict node' =>
      cases hw
      rfl
  | read =>
      obtain ⟨record, ring, -, rfl⟩ := w.step_read hw
      rfl

theorem begun_acts {w₀ : Watch} (hrun : run (Watch.step fdToNode) w₀ acts = some w)
    (node : UInt32) :
    w.world.counters.begun node
      = w₀.world.counters.begun node + begunIn fdToNode acts node := by
  induction acts generalizing w₀ with
  | nil =>
      cases hrun
      rfl
  | cons a acts ih =>
      obtain ⟨w₁, hstep, hrest⟩ := run_cons.mp hrun
      rw [ih hrest, begun_act hstep, begunIn_cons _ a acts, Nat.add_assoc]

/-- As many have updated a node as were begun for it, at most. -/
theorem written_le_begunIn (hrun : run (Watch.step fdToNode) Watch.init acts = some w)
    (node : UInt32) : w.world.written node ≤ begunIn fdToNode acts node := by
  have hall := begun_acts hrun node
  have hinit : Watch.init.world.counters.begun node = 0 := rfl
  have hle : w.world.written node ≤ w.world.counters.begun node := Nat.le_add_right _ _
  omega

/-! ### Runs -/

theorem watch_run (hrun : run (Watch.step fdToNode) Watch.init acts = some w) :
    Accounted w ∧ Delivers w ∧ Stems fdToNode acts w := by
  refine run_invariant (P := fun _ a _ => a ∈ acts)
    (I := fun w => Accounted w ∧ Delivers w ∧ Stems fdToNode acts w) ?_
    ⟨Accounted.init, ⟨[], rfl, rfl⟩, ⟨nofun, nofun⟩⟩ ?_ hrun
  · rintro w₁ a w₂ ⟨haccounted, hdelivers, hstems⟩ ha hstep
    exact ⟨haccounted.step hstep, hdelivers.step hstep, hstems.step ha hstep⟩
  · exact eachStep_of_forall fun a ha _ _ => ha

theorem length_alerts (events : List HeatEvent) (node : UInt32) :
    (alerts events node).length = events.countP fun e => decide (e.nodeId = node) := by
  rw [alerts, List.length_map, ← List.countP_eq_length_filter]

/-! ### A node that becomes hot -/

/-- One execution from beginning to end. -/
def oneRead : List Act := [.lookup 3 7, .update 0, .finish 0 10 true]

/-- An execution while no other one is under way counts by one, and reports the threshold. -/
theorem Watch.run_oneRead (w : Watch) (hidle : w.world.running = []) :
    ∃ w', run (Watch.step fun _ => some 9) w oneRead = some w' ∧ w'.world.running = [] ∧
      w'.world.maps.heat 9 = some (newCount (w.world.maps.heat 9)) ∧
      w'.ring = w.ring
        ++ (report [] 9 7 (newCount (w.world.maps.heat 9)) 10).map heatEventBytes ∧
      w'.printed = w.printed := by
  obtain ⟨⟨maps, running, written⟩, ring, printed, computed, dropped⟩ := w
  cases hidle
  refine ⟨?after, ?steps, ?fields⟩
  case steps =>
    simp only [oneRead, run, Watch.step, World.step, Option.bind_some, Option.map_some,
      List.nil_append, List.getElem?_cons_zero, List.set_cons_zero, List.eraseIdx_cons_zero]
    rw [if_neg (by simp)]
    rfl
  case fields => exact ⟨rfl, updateHeat_fresh rfl, rfl, rfl⟩

/-- **Executions one after the other**, as long as they stay below the threshold. -/
theorem Watch.run_reads (k : ℕ) (w : Watch) (hidle : w.world.running = [])
    (hbelow : countOf (w.world.maps.heat 9) + k < 500) :
    ∃ w', run (Watch.step fun _ => some 9) w (List.replicate k oneRead).flatten = some w' ∧
      w'.world.running = [] ∧
      countOf (w'.world.maps.heat 9) = countOf (w.world.maps.heat 9) + k ∧
      w'.ring = w.ring ∧ w'.printed = w.printed := by
  induction k generalizing w with
  | zero => exact ⟨w, rfl, hidle, rfl, rfl, rfl⟩
  | succ k ih =>
      obtain ⟨w₁, hrun₁, hidle₁, hheat₁, hring₁, hprinted₁⟩ := w.run_oneRead hidle
      have hcount : (newCount (w.world.maps.heat 9)).toNat = countOf (w.world.maps.heat 9) + 1 :=
        toNat_newCount (by omega)
      have hcount₁ : countOf (w₁.world.maps.heat 9) = countOf (w.world.maps.heat 9) + 1 := by
        rw [hheat₁]
        exact hcount
      have hquiet : newCount (w.world.maps.heat 9) ≠ hotNodeThreshold := by
        intro heq
        rw [heq, show hotNodeThreshold.toNat = 500 from rfl] at hcount
        omega
      obtain ⟨w', hrun', hidle', hheat', hring', hprinted'⟩ := ih w₁ hidle₁ (by omega)
      refine ⟨w', ?_, hidle', by omega, ?_, hprinted'.trans hprinted₁⟩
      · rw [List.replicate_succ, List.flatten_cons, run_append, hrun₁]
        exact hrun'
      · rw [hring', hring₁, report, if_neg hquiet, List.map_nil, List.append_nil]

/-- Two executions whose entry is evicted in between, then as many as the threshold asks for, one
after the other, and the loader reads. -/
def evictedReads : List Act :=
  [.lookup 3 7, .update 0, .lookup 3 8, .evict 9, .update 1, .finish 0 10 true, .finish 0 20 false]
    ++ ((List.replicate 499 oneRead).flatten ++ (oneRead ++ [.read]))

/-- The run ends with the alert printed. -/
theorem run_evictedReads :
    ∃ w, run (Watch.step fun _ => some 9) Watch.init evictedReads = some w ∧
      countOf (w.world.maps.heat 9) = 500 ∧ w.printed = [⟨9, 0, 500, 10⟩] ∧ w.ring = [] := by
  obtain ⟨w₀, hrun₀, hidle₀, hheat₀, hring₀, hprinted₀⟩ :
      ∃ w₀, run (Watch.step fun _ => some 9) Watch.init
          [.lookup 3 7, .update 0, .lookup 3 8, .evict 9, .update 1, .finish 0 10 true,
            .finish 0 20 false] = some w₀ ∧
        w₀.world.running = [] ∧ countOf (w₀.world.maps.heat 9) = 0 ∧ w₀.ring = [] ∧
        w₀.printed = [] := ⟨_, rfl, rfl, rfl, rfl, rfl⟩
  obtain ⟨w₁, hrun₁, hidle₁, hheat₁, hring₁, hprinted₁⟩ := w₀.run_reads 499 hidle₀ (by omega)
  obtain ⟨w₂, hrun₂, -, hheat₂, hring₂, hprinted₂⟩ := w₁.run_oneRead hidle₁
  have hhot : newCount (w₁.world.maps.heat 9) = hotNodeThreshold := by
    apply UInt64.toNat_inj.mp
    rw [toNat_newCount (by omega), hheat₁, hheat₀]
    rfl
  have hone : w₂.ring = [heatEventBytes ⟨9, 0, 500, 10⟩] := by
    rw [hring₂, hring₁, hring₀, hhot]
    rfl
  refine ⟨{ w₂ with ring := [], printed := [⟨9, 0, 500, 10⟩] }, ?_, ?_, rfl, rfl⟩
  · rw [evictedReads, run_append, hrun₀, Option.bind_some, run_append, hrun₁, Option.bind_some,
      run_append, hrun₂, Option.bind_some, run, Watch.step, hone, Option.bind_some, run,
      printRecord, decode_heatEventBytes, hprinted₂, hprinted₁, hprinted₀]
    rfl
  · show countOf (w₂.world.maps.heat 9) = 500
    rw [hheat₂, hhot]
    rfl

/-! ### Alerts and reads -/

/-- **Alerts are no more than the reads allow.**  Whatever the order of the requests is, and
whatever is evicted or finds no room: the entry of a node never exceeds the executions for it;
what the loader prints for it names the threshold and the process of one of them; and if there
was an alert, then `n` executions gave `n - 499` alerts at most, those without room counted
in. -/
theorem alerts_within_reads (hrun : run (Watch.step fdToNode) Watch.init acts = some w)
    (node : UInt32) :
    countOf (w.world.maps.heat node) ≤ begunIn fdToNode acts node ∧
    (∀ e ∈ w.printed, e.nodeId = node → e.readCount = hotNodeThreshold ∧
      ∃ pidTgid, BegunBy fdToNode acts node pidTgid ∧ e.pid = (pidTgid >>> 32).toUInt32) ∧
    (0 < w.printed.countP (fun e => decide (e.nodeId = node)) + w.dropped node →
      w.printed.countP (fun e => decide (e.nodeId = node)) + w.dropped node + 499
        ≤ begunIn fdToNode acts node) := by
  obtain ⟨haccounted, ⟨pending, -, hevents⟩, hstems⟩ := watch_run hrun
  have hwritten := written_le_begunIn hrun node
  have hlength := haccounted.length_eq node
  refine ⟨?_, ?_, ?_⟩
  · have hstored := haccounted.stored_le node
    have hpeak := peak_le_length (haccounted.climbs node)
    omega
  · rintro e he rfl
    refine hstems.events e ?_
    rw [← hevents]
    exact List.mem_append_left _ he
  · intro hpos
    have halerted := haccounted.alerted node
    rw [length_alerts, ← hevents, List.countP_append] at halerted
    have hmem : 500 ∈ w.computed node := List.count_pos_iff.mp (by omega)
    have hcount := (haccounted.climbs node).count_add_le (by decide) hmem
    omega

/-- One alert, and `499` executions more: the bound is met up to the two that were lost. -/
theorem alerts_within_reads_evicted :
    ∃ w, run (Watch.step fun _ => some 9) Watch.init evictedReads = some w ∧
      0 < w.printed.countP (fun e => decide (e.nodeId = 9)) ∧
      w.printed.countP (fun e => decide (e.nodeId = 9)) + w.dropped 9 + 499
        ≤ begunIn (fun _ => some 9) evictedReads 9 ∧
      ∀ e ∈ w.printed, e.nodeId = 9 → e.readCount = hotNodeThreshold := by
  obtain ⟨w, hrun, -, hprinted, -⟩ := run_evictedReads
  have hone : 0 < w.printed.countP (fun e => decide (e.nodeId = 9)) := by
    rw [hprinted]
    decide
  obtain ⟨-, hnames, hbound⟩ := alerts_within_reads hrun 9
  exact ⟨w, hrun, hone, hbound (Nat.add_pos_left hone _), fun e he hnode => (hnames e he hnode).1⟩

/-- **No hot node is missed.**  In every reachable state the events that were submitted are those
that the loader printed and, behind them, those in the ring buffer; and a node whose entry has
reached the threshold was submitted, found no room, or is about to be tested. -/
theorem hot_node_alerted (hrun : run (Watch.step fdToNode) Watch.init acts = some w) :
    ∃ pending, w.ring = pending.map heatEventBytes ∧
      w.printed ++ pending = w.world.maps.events ∧
      ∀ node, 500 ≤ countOf (w.world.maps.heat node) →
        (∃ e ∈ w.world.maps.events, e.nodeId = node) ∨ 0 < w.dropped node ∨
          ∃ x ∈ w.world.running, x.node = node ∧ x.stage = .updated hotNodeThreshold := by
  obtain ⟨haccounted, ⟨pending, hring, hevents⟩, -⟩ := watch_run hrun
  refine ⟨pending, hring, hevents, fun node hhot => ?_⟩
  have hmem : 500 ∈ w.computed node := (haccounted.climbs node).mem_of_le (by decide)
    (Nat.le_trans hhot (haccounted.stored_le node))
  have hcount := List.count_pos_iff.mpr hmem
  have halerted := haccounted.alerted node
  rw [length_alerts] at halerted
  by_cases hsent : 0 < w.world.maps.events.countP fun e => decide (e.nodeId = node)
  · obtain ⟨e, he, hnode⟩ := List.countP_pos_iff.mp hsent
    exact Or.inl ⟨e, he, of_decide_eq_true hnode⟩
  · by_cases hdropped : 0 < w.dropped node
    · exact Or.inr (Or.inl hdropped)
    · have howed : 0 < w.world.running.countP (owes node) := by omega
      obtain ⟨x, hx, howes⟩ := List.countP_pos_iff.mp howed
      exact Or.inr (Or.inr ⟨x, hx, of_decide_eq_true howes⟩)

theorem hot_node_alerted_evicted :
    ∃ w, run (Watch.step fun _ => some 9) Watch.init evictedReads = some w ∧
      (w.printed = w.world.maps.events ∧ 500 ≤ countOf (w.world.maps.heat 9)) ∧
      ((∃ e ∈ w.world.maps.events, e.nodeId = 9) ∨ 0 < w.dropped 9 ∨
        ∃ x ∈ w.world.running, x.node = 9 ∧ x.stage = .updated hotNodeThreshold) := by
  obtain ⟨w, hrun, hcount, -, hempty⟩ := run_evictedReads
  obtain ⟨pending, hring, hevents, hnode⟩ := hot_node_alerted hrun
  have hnone : pending = [] := List.map_eq_nil_iff.mp (hring.symm.trans hempty)
  rw [hnone, List.append_nil] at hevents
  have hhot : 500 ≤ countOf (w.world.maps.heat 9) := by omega
  exact ⟨w, hrun, ⟨hevents, hhot⟩, hnode 9 hhot⟩

end NexusCore.Heat
