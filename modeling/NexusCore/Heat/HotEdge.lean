import NexusCore.Foundation.Transition

/-!
# The Day 2 hot-node counter

`nexuscoreTraceRead` counts the reads of a graph node in a map and sends one event when the
count reaches the threshold.  It looks the count up, and then updates the entry or inserts
one; these are two requests to the map, and executions on other CPUs come between them.

A `World` holds the maps and the executions that are under way, each after its lookup or
after its update.  `run_alone` says that three requests in a row are the probe.  `Counts` is
what a stored count and the events of a node should be, and `LooksUpAlone` says of a lookup
that no other execution for the node has still to update it.
-/

namespace NexusCore.Heat

open Foundation.Transition

/-! ### The probe -/

/-- `HOT_NODE_THRESHOLD`. -/
def hotNodeThreshold : UInt64 := 500

structure HeatEvent where
  nodeId : UInt32
  pid : UInt32
  readCount : UInt64
  tsNs : UInt64
  deriving DecidableEq, Repr

/-- `node_heat_map`, and the events submitted so far. -/
structure Maps where
  heat : UInt32 → Option UInt64
  events : List HeatEvent

def Maps.init : Maps := ⟨fun _ => none, []⟩

/-- The flags of `bpf_map_update_elem` that the probe uses. -/
inductive UpdateFlag
  | exist
  | noexist
  deriving DecidableEq, Repr

/-- `bpf_map_update_elem`: a request that does not meet its flag leaves the map alone. -/
def mapUpdate (m : UInt32 → Option UInt64) (key : UInt32) (value : UInt64) :
    UpdateFlag → UInt32 → Option UInt64
  | .exist => if (m key).isSome then Function.update m key (some value) else m
  | .noexist => if (m key).isNone then Function.update m key (some value) else m

/-- `new_cnt`, from what the lookup found. -/
def newCount : Option UInt64 → UInt64
  | some cnt => cnt + 1
  | none => 1

/-- The update that follows a lookup. -/
def updateHeat (heat : UInt32 → Option UInt64) (node : UInt32) (seen : Option UInt64) :
    UInt32 → Option UInt64 :=
  mapUpdate heat node (newCount seen) (if seen.isSome then .exist else .noexist)

/-- The event at the threshold.  The ring buffer has room. -/
def report (events : List HeatEvent) (node : UInt32) (pidTgid newCnt now : UInt64) :
    List HeatEvent :=
  if newCnt = hotNodeThreshold then
    events ++ [⟨node, (pidTgid >>> 32).toUInt32, newCnt, now⟩]
  else events

/-- `nexuscore_trace_read`, with nothing in between. -/
def nexuscoreTraceRead (fdToNode : UInt32 → Option UInt32) (m : Maps) (fd : UInt32)
    (pidTgid now : UInt64) : Maps :=
  match fdToNode fd with
  | none => m
  | some node =>
      ⟨updateHeat m.heat node (m.heat node),
        report m.events node pidTgid (newCount (m.heat node)) now⟩

/-! ### Executions that interleave -/

/-- Where an execution stands. -/
inductive Stage
  /-- it has looked the count up -/
  | looked (seen : Option UInt64)
  /-- it has updated the map -/
  | updated (newCnt : UInt64)
  deriving DecidableEq, Repr

/-- An execution for a node. -/
structure Execution where
  node : UInt32
  pidTgid : UInt64
  stage : Stage
  deriving DecidableEq, Repr

/-- The maps, the executions under way, and how many have updated each node. -/
structure World where
  maps : Maps
  running : List Execution
  written : UInt32 → ℕ

def World.init : World := ⟨Maps.init, [], fun _ => 0⟩

inductive Event
  /-- an execution begins and looks its node up -/
  | lookup (fd : UInt32) (pidTgid : UInt64)
  /-- one of those under way makes its update -/
  | update (i : ℕ)
  /-- one of those under way tests the threshold and returns -/
  | finish (i : ℕ) (now : UInt64)
  deriving DecidableEq, Repr

/-- One request.  `fd_to_node_map` does not change. -/
def World.step (fdToNode : UInt32 → Option UInt32) (w : World) : Event → Option World
  | .lookup fd pidTgid =>
      match fdToNode fd with
      | none => some w
      | some node => some
          { w with running := w.running ++ [⟨node, pidTgid, .looked (w.maps.heat node)⟩] }
  | .update i =>
      match w.running[i]? with
      | some ⟨node, pidTgid, .looked seen⟩ => some
          { maps := ⟨updateHeat w.maps.heat node seen, w.maps.events⟩
            running := w.running.set i ⟨node, pidTgid, .updated (newCount seen)⟩
            written := Function.update w.written node (w.written node + 1) }
      | _ => none
  | .finish i now =>
      match w.running[i]? with
      | some ⟨node, pidTgid, .updated newCnt⟩ => some
          { w with
            maps := ⟨w.maps.heat, report w.maps.events node pidTgid newCnt now⟩
            running := w.running.eraseIdx i }
      | _ => none

variable {fdToNode : UInt32 → Option UInt32} {w w' : World} {e : Event}

/-- **Three requests in a row are the probe.** -/
theorem run_alone {fd node : UInt32} (hnode : fdToNode fd = some node) (w : World)
    (pidTgid now : UInt64) :
    run (World.step fdToNode) w
        [.lookup fd pidTgid, .update w.running.length, .finish w.running.length now]
      = some
        { maps := nexuscoreTraceRead fdToNode w.maps fd pidTgid now
          running := w.running
          written := Function.update w.written node (w.written node + 1) } := by
  simp only [run, World.step, hnode, Option.bind_some, List.getElem?_concat_length,
    List.set_append_right _ _ (Nat.le_refl _), Nat.sub_self, List.set_cons_zero,
    List.eraseIdx_append_of_length_le (Nat.le_refl _), List.eraseIdx_cons_zero, List.append_nil,
    nexuscoreTraceRead]

/-! ### The property and the condition -/

/-- The node of the execution that a request begins. -/
def Event.nodeOf (fdToNode : UInt32 → Option UInt32) : Event → Option UInt32
  | .lookup fd _ => fdToNode fd
  | _ => none

/-- How many executions for a node a run has. -/
def executions (fdToNode : UInt32 → Option UInt32) (es : List Event) (node : UInt32) : ℕ :=
  (es.filterMap (Event.nodeOf fdToNode)).count node

/-- The number that an entry stands for; no entry stands for none. -/
def countOf : Option UInt64 → ℕ
  | some cnt => cnt.toNat
  | none => 0

/-- The read counts of the events for a node. -/
def alerts (events : List HeatEvent) (node : UInt32) : List UInt64 :=
  (events.filter fun e => e.nodeId = node).map HeatEvent.readCount

/-- The stored count of a node is right, and it was reported once if it reached the threshold. -/
def Counts (w : World) (node : UInt32) (n : ℕ) : Prop :=
  countOf (w.maps.heat node) = n ∧
    alerts w.maps.events node = if 500 ≤ n then [hotNodeThreshold] else []

/-- An execution looks a node up while no other one of that node has still to update it. -/
def LooksUpAlone (fdToNode : UInt32 → Option UInt32) (w : World) (e : Event) (_ : World) : Prop :=
  ∀ fd pidTgid node, e = .lookup fd pidTgid → fdToNode fd = some node →
    ∀ x ∈ w.running, x.node = node → ∀ seen, x.stage ≠ .looked seen

/-! ### What one request does -/

/-- After a lookup. -/
def World.lookedUp (w : World) (node : UInt32) (pidTgid : UInt64) : World :=
  { w with running := w.running ++ [⟨node, pidTgid, .looked (w.maps.heat node)⟩] }

/-- After the update of an execution that stands between two parts of the list. -/
def World.updated (w : World) (before after : List Execution) (node : UInt32) (pidTgid : UInt64)
    (seen : Option UInt64) : World where
  maps := ⟨updateHeat w.maps.heat node seen, w.maps.events⟩
  running := before ++ ⟨node, pidTgid, .updated (newCount seen)⟩ :: after
  written := Function.update w.written node (w.written node + 1)

/-- After the end of an execution that stands between two parts of the list. -/
def World.finished (w : World) (before after : List Execution) (node : UInt32)
    (pidTgid newCnt now : UInt64) : World where
  maps := ⟨w.maps.heat, report w.maps.events node pidTgid newCnt now⟩
  running := before ++ after
  written := w.written

theorem split_of_getElem? {α : Type} {l : List α} {i : ℕ} {a : α} (h : l[i]? = some a) :
    ∃ before after, l = before ++ a :: after ∧ (∀ b, l.set i b = before ++ b :: after) ∧
      l.eraseIdx i = before ++ after := by
  obtain ⟨hi, rfl⟩ := List.getElem?_eq_some_iff.mp h
  refine ⟨l.take i, l.drop (i + 1), ?_, ?_, ?_⟩
  · rw [List.getElem_cons_drop, List.take_append_drop]
  · intro b
    rw [List.set_eq_take_append_cons_drop, if_pos hi]
  · exact List.eraseIdx_eq_take_drop_succ l i

theorem World.step_lookup {fd : UInt32} {pidTgid : UInt64}
    (h : w.step fdToNode (.lookup fd pidTgid) = some w') :
    fdToNode fd = none ∧ w' = w ∨
      ∃ node, fdToNode fd = some node ∧ w' = w.lookedUp node pidTgid := by
  rw [World.step] at h
  cases hnode : fdToNode fd with
  | none =>
      rw [hnode] at h
      cases h
      exact Or.inl ⟨rfl, rfl⟩
  | some node =>
      rw [hnode] at h
      cases h
      exact Or.inr ⟨node, rfl, rfl⟩

theorem World.step_update {i : ℕ} (h : w.step fdToNode (.update i) = some w') :
    ∃ before after node pidTgid seen,
      w.running = before ++ ⟨node, pidTgid, .looked seen⟩ :: after ∧
        w' = w.updated before after node pidTgid seen := by
  rw [World.step] at h
  cases hi : w.running[i]? with
  | none =>
      rw [hi] at h
      cases h
  | some x =>
      rw [hi] at h
      obtain ⟨node, pidTgid, stage⟩ := x
      cases stage with
      | looked seen =>
          cases h
          obtain ⟨before, after, hsplit, hset, -⟩ := split_of_getElem? hi
          refine ⟨before, after, node, pidTgid, seen, hsplit, ?_⟩
          rw [hset, World.updated]
      | updated newCnt => cases h

theorem World.step_finish {i : ℕ} {now : UInt64}
    (h : w.step fdToNode (.finish i now) = some w') :
    ∃ before after node pidTgid newCnt,
      w.running = before ++ ⟨node, pidTgid, .updated newCnt⟩ :: after ∧
        w' = w.finished before after node pidTgid newCnt now := by
  rw [World.step] at h
  cases hi : w.running[i]? with
  | none =>
      rw [hi] at h
      cases h
  | some x =>
      rw [hi] at h
      obtain ⟨node, pidTgid, stage⟩ := x
      cases stage with
      | looked seen => cases h
      | updated newCnt =>
          cases h
          obtain ⟨before, after, hsplit, -, herase⟩ := split_of_getElem? hi
          refine ⟨before, after, node, pidTgid, newCnt, hsplit, ?_⟩
          rw [herase, World.finished]

end NexusCore.Heat
