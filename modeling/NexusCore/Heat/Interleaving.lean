import NexusCore.Foundation.Increment
import NexusCore.Heat.HotEdge

/-!
# Hot-node counts under interleaving

`World.counters` shows a world of the hot-node counter as counters that are read and written
back: a lookup reads, an update writes, and finishing changes nothing.

`exact_step` and `exact_of_step` carry exactness forward and backward over one request, and
`Reported` ties the events sent, and those about to be sent, to the number of updates.
`counts_iff_looksUpAlone` says in which runs no read of a node is lost: in those in which no
execution looks a node up while another one of the same node has still to update it.
-/

namespace NexusCore.Heat

open Foundation.Transition Foundation.Increment

variable {fdToNode : UInt32 → Option UInt32} {w w' : World} {e : Event}
  {before after : List Execution} {node : UInt32} {pidTgid newCnt now : UInt64}
  {seen : Option UInt64}

/-! ### The map as counters -/

section UpdateHeat

variable {heat : UInt32 → Option UInt64} {node' : UInt32}

theorem mapUpdate_of_ne (value : UInt64) (flag : UpdateFlag) (hne : node' ≠ node) :
    mapUpdate heat node value flag node' = heat node' := by
  cases flag with
  | exist =>
      show (if (heat node).isSome then _ else heat) node' = heat node'
      split
      · exact Function.update_of_ne hne _ _
      · rfl
  | noexist =>
      show (if (heat node).isNone then _ else heat) node' = heat node'
      split
      · exact Function.update_of_ne hne _ _
      · rfl

/-- The entry after a request is the new value, where the flag is met. -/
theorem mapUpdate_self (heat : UInt32 → Option UInt64) (node : UInt32) (value : UInt64)
    (flag : UpdateFlag) : mapUpdate heat node value flag node
      = if (heat node).isSome ↔ flag = .exist then some value else heat node := by
  cases flag with
  | exist =>
      show (if (heat node).isSome then Function.update heat node (some value) else heat) node = _
      cases hnode : heat node with
      | none => simpa using hnode
      | some cnt => simp
  | noexist =>
      show (if (heat node).isNone then Function.update heat node (some value) else heat) node = _
      cases hnode : heat node with
      | none => simp
      | some cnt => simpa using hnode

/-- An update that finds an entry exactly if the lookup did takes effect. -/
theorem updateHeat_fresh (h : seen.isSome = (heat node).isSome) :
    updateHeat heat node seen node = some (newCount seen) := by
  rw [updateHeat, mapUpdate_self, if_pos]
  rw [← h]
  cases seen <;> simp

theorem countOf_lt (entry : Option UInt64) : countOf entry < 2 ^ 64 := by
  cases entry with
  | none => exact Nat.two_pow_pos 64
  | some cnt => exact cnt.toNat_lt

theorem toNat_newCount_le (seen : Option UInt64) : (newCount seen).toNat ≤ countOf seen + 1 := by
  cases seen with
  | none => exact Nat.le_refl 1
  | some cnt =>
      show (cnt + 1).toNat ≤ cnt.toNat + 1
      rw [UInt64.toNat_add]
      exact Nat.mod_le _ _

theorem toNat_newCount (h : countOf seen + 1 < 2 ^ 64) :
    (newCount seen).toNat = countOf seen + 1 := by
  cases seen with
  | none => rfl
  | some cnt =>
      show (cnt + 1).toNat = cnt.toNat + 1
      rw [UInt64.toNat_add]
      exact Nat.mod_eq_of_lt h

theorem countOf_updateHeat_le :
    countOf (updateHeat heat node seen node) ≤ countOf seen + 1 ∨
      countOf (updateHeat heat node seen node) ≤ countOf (heat node) := by
  rw [updateHeat, mapUpdate_self]
  by_cases hmet : (heat node).isSome ↔ (if seen.isSome then UpdateFlag.exist else .noexist) = .exist
  · rw [if_pos hmet]
    exact Or.inl (toNat_newCount_le seen)
  · rw [if_neg hmet]
    exact Or.inr (Nat.le_refl _)

end UpdateHeat

/-- An execution that has looked up and not yet updated, with the number it found. -/
def openRead (x : Execution) : Option (UInt32 × ℕ) :=
  match x.stage with
  | .looked seen => some (x.node, countOf seen)
  | .updated _ => none

/-- A world as counters that are read and written back. -/
def World.counters (w : World) : Counters UInt32 :=
  ⟨fun node => countOf (w.maps.heat node), w.running.filterMap openRead, w.written⟩

theorem counters_lookedUp (w : World) (node : UInt32) (pidTgid : UInt64) :
    (w.lookedUp node pidTgid).counters = w.counters.read node := by
  rw [World.lookedUp, World.counters, List.filterMap_append]
  rfl

theorem reads_eq (hrunning : w.running = before ++ ⟨node, pidTgid, .looked seen⟩ :: after) :
    w.counters.reads
      = before.filterMap openRead ++ (node, countOf seen) :: after.filterMap openRead := by
  show w.running.filterMap openRead = _
  rw [hrunning, List.filterMap_append]
  rfl

theorem counters_updated (w : World) (before after : List Execution) (node : UInt32)
    (pidTgid : UInt64) (seen : Option UInt64) :
    (w.updated before after node pidTgid seen).counters
      = w.counters.write (before.filterMap openRead) (after.filterMap openRead) node
          (countOf (updateHeat w.maps.heat node seen node)) := by
  have hstored : (fun node' => countOf (updateHeat w.maps.heat node seen node'))
      = Function.update (fun node' => countOf (w.maps.heat node')) node
          (countOf (updateHeat w.maps.heat node seen node)) := by
    funext node'
    by_cases hne : node' = node
    · rw [hne, Function.update_self]
    · rw [Function.update_of_ne hne, updateHeat, mapUpdate_of_ne _ _ hne]
  show (⟨fun node' => countOf (updateHeat w.maps.heat node seen node'), _, _⟩ : Counters UInt32) = _
  rw [hstored, World.updated, List.filterMap_append]
  rfl

theorem counters_finished
    (hrunning : w.running = before ++ ⟨node, pidTgid, .updated newCnt⟩ :: after) :
    (w.finished before after node pidTgid newCnt now).counters = w.counters := by
  have hreads : (before ++ after).filterMap openRead = w.running.filterMap openRead := by
    rw [hrunning, List.filterMap_append, List.filterMap_append]
    rfl
  rw [World.finished, World.counters, hreads]
  rfl

/-- The lookup is alone when the counters of the node are idle. -/
theorem looksUpAlone_iff {fd : UInt32} (hnode : fdToNode fd = some node) :
    LooksUpAlone fdToNode w (.lookup fd pidTgid) w' ↔ w.counters.Idle node := by
  constructor
  · intro h hmem
    obtain ⟨p, hp, rfl⟩ := List.mem_map.mp hmem
    obtain ⟨x, hx, hopen⟩ := List.mem_filterMap.mp hp
    unfold openRead at hopen
    split at hopen
    · next seen hstage =>
        cases hopen
        exact h fd pidTgid _ rfl hnode x hx rfl seen hstage
    · cases hopen
  · intro hidle fd' pidTgid' node' heq hnode' x hx hxnode seen hstage
    cases heq
    cases hnode.symm.trans hnode'
    refine hidle (List.mem_map.mpr ⟨(x.node, countOf seen), ?_, hxnode⟩)
    refine List.mem_filterMap.mpr ⟨x, hx, ?_⟩
    rw [openRead, hstage]

/-- Lookups are the only requests that can fail to be alone. -/
theorem looksUpAlone_of_ne (h : ∀ fd pidTgid, e ≠ .lookup fd pidTgid) :
    LooksUpAlone fdToNode w e w' := fun fd pidTgid _ heq => absurd heq (h fd pidTgid)

/-! ### What every order of requests keeps -/

/-- A node has an entry once an execution has updated it, and none before. -/
structure Present (w : World) : Prop where
  heat : ∀ node, (w.maps.heat node).isSome ↔ 0 < w.written node
  looked : ∀ x ∈ w.running, ∀ cnt, x.stage = .looked (some cnt) → 0 < w.written x.node

theorem Present.init : Present World.init where
  heat := fun _ => ⟨nofun, nofun⟩
  looked := nofun

theorem Present.lookedUp (h : Present w) (node : UInt32) (pidTgid : UInt64) :
    Present (w.lookedUp node pidTgid) := by
  refine ⟨h.heat, ?_⟩
  intro x hx cnt hstage
  rcases List.mem_append.mp hx with hold | hlast
  · exact h.looked x hold cnt hstage
  · rw [List.mem_singleton.mp hlast] at hstage ⊢
    refine (h.heat node).mp ?_
    rw [Stage.looked.inj hstage]
    rfl

/-- A lookup does not find an entry that is not there any more. -/
theorem Present.seen_eq_none (h : Present w) (hnode : w.maps.heat node = none)
    (hrunning : w.running = before ++ ⟨node, pidTgid, .looked seen⟩ :: after) : seen = none := by
  cases seen with
  | none => rfl
  | some cnt =>
      have hmem : (⟨node, pidTgid, .looked (some cnt)⟩ : Execution) ∈ w.running := by
        rw [hrunning]
        simp
      have hsome := (h.heat node).mpr (h.looked _ hmem cnt rfl)
      rw [hnode] at hsome
      cases hsome

/-- **An update leaves an entry behind**: if its request fails there is one already. -/
theorem Present.isSome_updateHeat (h : Present w)
    (hrunning : w.running = before ++ ⟨node, pidTgid, .looked seen⟩ :: after) :
    (updateHeat w.maps.heat node seen node).isSome := by
  cases hnode : w.maps.heat node with
  | none =>
      have hseen := h.seen_eq_none hnode hrunning
      rw [updateHeat_fresh (by rw [hseen, hnode])]
      rfl
  | some cnt =>
      rw [updateHeat, mapUpdate_self, hnode]
      by_cases hmet : (some cnt).isSome ↔
          (if seen.isSome then UpdateFlag.exist else .noexist) = .exist
      · rw [if_pos hmet]
        rfl
      · rw [if_neg hmet]
        rfl

theorem Present.updated (h : Present w)
    (hrunning : w.running = before ++ ⟨node, pidTgid, .looked seen⟩ :: after) :
    Present (w.updated before after node pidTgid seen) := by
  refine ⟨?_, ?_⟩
  · intro node'
    show (updateHeat w.maps.heat node seen node').isSome ↔
      0 < Function.update w.written node (w.written node + 1) node'
    by_cases hne : node' = node
    · rw [hne, Function.update_self]
      exact iff_of_true (h.isSome_updateHeat hrunning) (Nat.succ_pos _)
    · rw [Function.update_of_ne hne, updateHeat, mapUpdate_of_ne _ _ hne]
      exact h.heat node'
  · intro x hx cnt hstage
    show 0 < Function.update w.written node (w.written node + 1) x.node
    by_cases hne : x.node = node
    · rw [hne, Function.update_self]
      exact Nat.succ_pos _
    · rw [Function.update_of_ne hne]
      refine h.looked x ?_ cnt hstage
      rw [hrunning]
      rcases List.mem_append.mp hx with hb | ha
      · exact List.mem_append_left _ hb
      · rcases List.mem_cons.mp ha with rfl | ha
        · exact absurd rfl hne
        · exact List.mem_append_right _ (List.mem_cons_of_mem _ ha)

theorem Present.finished (h : Present w)
    (hrunning : w.running = before ++ ⟨node, pidTgid, .updated newCnt⟩ :: after) :
    Present (w.finished before after node pidTgid newCnt now) := by
  refine ⟨h.heat, ?_⟩
  intro x hx cnt hstage
  refine h.looked x ?_ cnt hstage
  rw [hrunning]
  rcases List.mem_append.mp hx with hb | ha
  · exact List.mem_append_left _ hb
  · exact List.mem_append_right _ (List.mem_cons_of_mem _ ha)

theorem Present.step (h : Present w) (hw : w.step fdToNode e = some w') : Present w' := by
  cases e with
  | lookup fd pidTgid =>
      rcases w.step_lookup hw with ⟨-, rfl⟩ | ⟨node, -, rfl⟩
      · exact h
      · exact h.lookedUp node pidTgid
  | update i =>
      obtain ⟨before, after, node, pidTgid, seen, hrunning, rfl⟩ := w.step_update hw
      exact h.updated hrunning
  | finish i now =>
      obtain ⟨before, after, node, pidTgid, newCnt, hrunning, rfl⟩ := w.step_finish hw
      exact h.finished hrunning

theorem bounded_init : Bounded World.init.counters where
  stored_le := fun _ => Nat.le_refl 0
  seen_le := nofun
  current := nofun

theorem exact_init : Exact World.init.counters where
  stored_eq := fun _ => rfl
  alone := List.nodup_nil
  seen_eq := nofun

theorem bounded_step (h : Bounded w.counters) (hw : w.step fdToNode e = some w') :
    Bounded w'.counters := by
  cases e with
  | lookup fd pidTgid =>
      rcases w.step_lookup hw with ⟨-, rfl⟩ | ⟨node, -, rfl⟩
      · exact h
      · rw [counters_lookedUp]
        exact h.read node
  | update i =>
      obtain ⟨before, after, node, pidTgid, seen, hrunning, rfl⟩ := w.step_update hw
      rw [counters_updated]
      exact h.write (reads_eq hrunning) countOf_updateHeat_le
  | finish i now =>
      obtain ⟨before, after, node, pidTgid, newCnt, hrunning, rfl⟩ := w.step_finish hw
      rw [counters_finished hrunning]
      exact h

/-- **Backward over a request**: what is exact after it was exact before, and a lookup was
alone. -/
theorem exact_of_step (hb : Bounded w.counters) (hw : w.step fdToNode e = some w')
    (h : Exact w'.counters) : Exact w.counters ∧ LooksUpAlone fdToNode w e w' := by
  cases e with
  | lookup fd pidTgid =>
      rcases w.step_lookup hw with ⟨hnone, rfl⟩ | ⟨node, hnode, rfl⟩
      · refine ⟨h, fun fd' pidTgid' node' heq hnode' => ?_⟩
        cases heq
        cases hnone.symm.trans hnode'
      · rw [counters_lookedUp] at h
        exact ⟨h.of_read.1, (looksUpAlone_iff hnode).mpr h.of_read.2⟩
  | update i =>
      obtain ⟨before, after, node, pidTgid, seen, hrunning, rfl⟩ := w.step_update hw
      rw [counters_updated] at h
      exact ⟨h.of_write hb (reads_eq hrunning) countOf_updateHeat_le, looksUpAlone_of_ne nofun⟩
  | finish i now =>
      obtain ⟨before, after, node, pidTgid, newCnt, hrunning, rfl⟩ := w.step_finish hw
      rw [counters_finished hrunning] at h
      exact ⟨h, looksUpAlone_of_ne nofun⟩

/-! ### Lookups that are alone -/

/-- The lookup is up to date, and so its request takes effect. -/
theorem Present.fresh (h : Present w) (hx : Exact w.counters)
    (hrunning : w.running = before ++ ⟨node, pidTgid, .looked seen⟩ :: after) :
    countOf seen = w.written node ∧
      updateHeat w.maps.heat node seen node = some (newCount seen) := by
  have hmem : (node, countOf seen) ∈ w.counters.reads := self_mem_reads (reads_eq hrunning)
  have hstored : countOf (w.maps.heat node) = w.written node := hx.stored_eq node
  have hseen : countOf seen = countOf (w.maps.heat node) := hx.seen_eq _ hmem
  refine ⟨hseen.trans hstored, updateHeat_fresh ?_⟩
  cases hnode : w.maps.heat node with
  | none => rw [h.seen_eq_none hnode hrunning]
  | some cnt =>
      have hpos : 0 < w.written node := (h.heat node).mp (by rw [hnode]; rfl)
      cases seen with
      | some cnt' => rfl
      | none =>
          have hzero : 0 = w.written node := hseen.trans hstored
          omega

/-- What the update writes is the number of updates then. -/
theorem Present.newCount_eq (h : Present w) (hx : Exact w.counters)
    (hrunning : w.running = before ++ ⟨node, pidTgid, .looked seen⟩ :: after)
    (hfits : ∀ node', (w.updated before after node pidTgid seen).written node' < 2 ^ 64) :
    (newCount seen).toNat = w.written node + 1 := by
  have hseen := (h.fresh hx hrunning).1
  have hbound : w.written node + 1 < 2 ^ 64 := by
    have hfit : Function.update w.written node (w.written node + 1) node < 2 ^ 64 := hfits node
    rwa [Function.update_self] at hfit
  rw [← hseen] at hbound ⊢
  exact toNat_newCount hbound

/-- **Forward over a request**, while the numbers fit the entries. -/
theorem exact_step (h : Present w) (hx : Exact w.counters)
    (hfits : ∀ node, w'.written node < 2 ^ 64) (halone : LooksUpAlone fdToNode w e w')
    (hw : w.step fdToNode e = some w') : Exact w'.counters := by
  cases e with
  | lookup fd pidTgid =>
      rcases w.step_lookup hw with ⟨-, rfl⟩ | ⟨node, hnode, rfl⟩
      · exact hx
      · rw [counters_lookedUp]
        exact hx.read ((looksUpAlone_iff hnode).mp halone)
  | update i =>
      obtain ⟨before, after, node, pidTgid, seen, hrunning, rfl⟩ := w.step_update hw
      obtain ⟨hseen, heffect⟩ := h.fresh hx hrunning
      rw [counters_updated]
      refine hx.write (reads_eq hrunning) fun _ => ?_
      rw [heffect, hseen]
      exact h.newCount_eq hx hrunning hfits
  | finish i now =>
      obtain ⟨before, after, node, pidTgid, newCnt, hrunning, rfl⟩ := w.step_finish hw
      rw [counters_finished hrunning]
      exact hx

/-! ### The alerts -/

/-- An execution that is about to send the event of a node. -/
def owes (node : UInt32) (x : Execution) : Bool :=
  x.node = node ∧ x.stage = .updated hotNodeThreshold

/-- The event of a node was sent, or is about to be sent, once if the count got that far. -/
structure Reported (w : World) : Prop where
  at_threshold : ∀ node, ∀ cnt ∈ alerts w.maps.events node, cnt = hotNodeThreshold
  once : ∀ node, (alerts w.maps.events node).length + w.running.countP (owes node)
    = if 500 ≤ w.written node then 1 else 0

theorem Reported.init : Reported World.init where
  at_threshold := nofun
  once := fun _ => rfl

theorem alerts_append (events : List HeatEvent) (x : HeatEvent) (node : UInt32) :
    alerts (events ++ [x]) node
      = alerts events node ++ if x.nodeId = node then [x.readCount] else [] := by
  rw [alerts, List.filter_append, List.map_append]
  by_cases hnode : x.nodeId = node
  · rw [if_pos hnode, List.filter_cons_of_pos (by simpa using hnode)]
    rfl
  · rw [if_neg hnode, List.filter_cons_of_neg (by simpa using hnode)]
    rfl

/-- What a test of the threshold sends. -/
theorem alerts_report (events : List HeatEvent) (node node' : UInt32)
    (pidTgid newCnt now : UInt64) :
    alerts (report events node pidTgid newCnt now) node'
      = alerts events node' ++
        if owes node' ⟨node, pidTgid, .updated newCnt⟩ then [hotNodeThreshold] else [] := by
  rw [report]
  by_cases hcnt : newCnt = hotNodeThreshold
  · rw [if_pos hcnt, alerts_append, hcnt]
    simp [owes]
  · rw [if_neg hcnt]
    simp [owes, hcnt]

theorem Reported.lookedUp (h : Reported w) (node : UInt32) (pidTgid : UInt64) :
    Reported (w.lookedUp node pidTgid) := by
  refine ⟨h.at_threshold, ?_⟩
  intro node'
  show (alerts w.maps.events node').length + (w.running ++ [_]).countP (owes node')
    = if 500 ≤ w.written node' then 1 else 0
  rw [List.countP_append, ← Nat.add_assoc, h.once node']
  simp [owes]

theorem once_succ (n : ℕ) : (if 500 ≤ n + 1 then 1 else 0)
    = (if 500 ≤ n then 1 else 0) + if n + 1 = 500 then 1 else 0 := by
  split_ifs <;> omega

/-- An exact update owes an event exactly when it makes the count reach the threshold. -/
theorem Reported.updated (h : Reported w)
    (hrunning : w.running = before ++ ⟨node, pidTgid, .looked seen⟩ :: after)
    (hnew : (newCount seen).toNat = w.written node + 1) :
    Reported (w.updated before after node pidTgid seen) := by
  refine ⟨h.at_threshold, ?_⟩
  intro node'
  have hbefore := h.once node'
  rw [hrunning, List.countP_append, List.countP_cons] at hbefore
  show (alerts w.maps.events node').length + (before ++ _ :: after).countP (owes node')
    = if 500 ≤ Function.update w.written node (w.written node + 1) node' then 1 else 0
  rw [List.countP_append, List.countP_cons]
  have hold : owes node' ⟨node, pidTgid, .looked seen⟩ = false := by simp [owes]
  rw [hold] at hbefore
  by_cases hnode : node' = node
  · subst hnode
    rw [Function.update_self]
    have howes : owes node' ⟨node', pidTgid, .updated (newCount seen)⟩
        = decide (w.written node' + 1 = 500) := by
      rw [← hnew]
      simp [owes, hotNodeThreshold, ← UInt64.toNat_inj]
    rw [howes, once_succ, ← hbefore]
    simp only [Bool.false_eq_true, if_false, decide_eq_true_eq]
    omega
  · have hother : owes node' ⟨node, pidTgid, .updated (newCount seen)⟩ = false := by
      simp [owes, Ne.symm hnode]
    rw [Function.update_of_ne hnode, hother]
    exact hbefore

theorem Reported.finished (h : Reported w)
    (hrunning : w.running = before ++ ⟨node, pidTgid, .updated newCnt⟩ :: after) :
    Reported (w.finished before after node pidTgid newCnt now) := by
  refine ⟨?_, ?_⟩
  · intro node' cnt (hcnt : cnt ∈ alerts (report _ node pidTgid newCnt now) node')
    rw [alerts_report] at hcnt
    rcases List.mem_append.mp hcnt with hold | hlast
    · exact h.at_threshold node' cnt hold
    · split at hlast
      · exact List.mem_singleton.mp hlast
      · cases hlast
  · intro node'
    have hbefore := h.once node'
    rw [hrunning, List.countP_append, List.countP_cons] at hbefore
    show (alerts (report _ node pidTgid newCnt now) node').length
      + (before ++ after).countP (owes node') = if 500 ≤ w.written node' then 1 else 0
    rw [alerts_report, List.length_append, List.countP_append, ← hbefore]
    split
    · rw [List.length_singleton]
      omega
    · rw [List.length_nil]
      omega

theorem reported_step (h : Reported w) (hp : Present w) (hx : Exact w.counters)
    (hfits : ∀ node, w'.written node < 2 ^ 64) (hw : w.step fdToNode e = some w') :
    Reported w' := by
  cases e with
  | lookup fd pidTgid =>
      rcases w.step_lookup hw with ⟨-, rfl⟩ | ⟨node, -, rfl⟩
      · exact h
      · exact h.lookedUp node pidTgid
  | update i =>
      obtain ⟨before, after, node, pidTgid, seen, hrunning, rfl⟩ := w.step_update hw
      exact h.updated hrunning (hp.newCount_eq hx hrunning hfits)
  | finish i now =>
      obtain ⟨before, after, node, pidTgid, newCnt, hrunning, rfl⟩ := w.step_finish hw
      exact h.finished hrunning

/-! ### Runs -/

variable {es : List Event}

theorem begun_step (hw : w.step fdToNode e = some w') (node : UInt32) :
    w'.counters.begun node = w.counters.begun node + executions fdToNode [e] node := by
  cases e with
  | lookup fd pidTgid =>
      rcases w.step_lookup hw with ⟨hnone, rfl⟩ | ⟨node', hnode, rfl⟩
      · have hof : Event.nodeOf fdToNode (.lookup fd pidTgid) = none := hnone
        rw [executions, List.filterMap_cons_none hof]
        rfl
      · have hof : Event.nodeOf fdToNode (.lookup fd pidTgid) = some node' := hnode
        rw [counters_lookedUp, Counters.begun_read, executions, List.filterMap_cons_some hof]
        rfl
  | update i =>
      obtain ⟨before, after, node', pidTgid, seen, hrunning, rfl⟩ := w.step_update hw
      rw [counters_updated, Counters.begun_write (reads_eq hrunning)]
      rfl
  | finish i now =>
      obtain ⟨before, after, node', pidTgid, newCnt, hrunning, rfl⟩ := w.step_finish hw
      rw [counters_finished hrunning]
      rfl

theorem executions_cons (fdToNode : UInt32 → Option UInt32) (e : Event) (es : List Event)
    (node : UInt32) :
    executions fdToNode (e :: es) node
      = executions fdToNode [e] node + executions fdToNode es node := by
  rw [executions, ← List.singleton_append, List.filterMap_append, List.count_append]
  rfl

/-- What has begun by the end of a run. -/
theorem begun_run (hrun : run (World.step fdToNode) w es = some w') (node : UInt32) :
    w'.counters.begun node = w.counters.begun node + executions fdToNode es node := by
  induction es generalizing w with
  | nil =>
      cases hrun
      rfl
  | cons e es ih =>
      obtain ⟨w₁, hstep, hrest⟩ := run_cons.mp hrun
      rw [ih hrest, begun_step hstep, executions_cons _ e es, Nat.add_assoc]

/-- Once all have finished, as many have updated a node as have begun. -/
theorem written_eq (hrun : run (World.step fdToNode) World.init es = some w)
    (hdone : w.running = []) (node : UInt32) : w.written node = executions fdToNode es node := by
  have hbegun := begun_run hrun node
  have hinit : World.init.counters.begun node = 0 := rfl
  have hopen : w.counters.begun node = w.written node := by
    show w.written node + ((w.running.filterMap openRead).map Prod.fst).count node = _
    rw [hdone]
    rfl
  omega

theorem written_le_step (hw : w.step fdToNode e = some w') (node : UInt32) :
    w.written node ≤ w'.written node := by
  cases e with
  | lookup fd pidTgid =>
      rcases w.step_lookup hw with ⟨-, rfl⟩ | ⟨node', -, rfl⟩
      · exact Nat.le_refl _
      · exact Nat.le_refl _
  | update i =>
      obtain ⟨before, after, node', pidTgid, seen, -, rfl⟩ := w.step_update hw
      show w.written node ≤ Function.update w.written node' (w.written node' + 1) node
      by_cases hnode : node = node'
      · rw [hnode, Function.update_self]
        exact Nat.le_succ _
      · rw [Function.update_of_ne hnode]
  | finish i now =>
      obtain ⟨before, after, node', pidTgid, newCnt, -, rfl⟩ := w.step_finish hw
      exact Nat.le_refl _

/-- Numbers that fit at the end of a run did so all along. -/
theorem fits_run (hrun : run (World.step fdToNode) w es = some w')
    (hfits : ∀ node, w'.written node < 2 ^ 64) :
    EachStep (World.step fdToNode) (fun _ _ w₁ => ∀ node, w₁.written node < 2 ^ 64) w es := by
  refine (eachStep_backward (I := fun _ => True) (J := fun w₁ => ∀ node, w₁.written node < 2 ^ 64)
    (fun _ _ _ _ _ => trivial) ?_ trivial hrun hfits).2
  intro w₁ e w₂ _ hstep h
  exact ⟨fun node => Nat.lt_of_le_of_lt (written_le_step hstep node) (h node), h⟩

/-- **Forward over a run** whose lookups are alone. -/
theorem exact_run (hrun : run (World.step fdToNode) World.init es = some w)
    (hfits : ∀ node, w.written node < 2 ^ 64)
    (halone : EachStep (World.step fdToNode) (LooksUpAlone fdToNode) World.init es) :
    Exact w.counters ∧ Reported w := by
  have hinv : Present w ∧ Exact w.counters ∧ Reported w := by
    refine run_invariant (I := fun w => Present w ∧ Exact w.counters ∧ Reported w) ?_
      ⟨Present.init, exact_init, Reported.init⟩ (halone.and (fits_run hrun hfits)) hrun
    rintro w₁ e w₂ ⟨hp, hx, hr⟩ ⟨hlook, hfit⟩ hstep
    exact ⟨hp.step hstep, exact_step hp hx hfit hlook hstep, reported_step hr hp hx hfit hstep⟩
  exact hinv.2

/-- **Backward over a run**: one that ends exact had lookups that are alone. -/
theorem looksUpAlone_of_exact (hrun : run (World.step fdToNode) World.init es = some w)
    (hx : Exact w.counters) :
    EachStep (World.step fdToNode) (LooksUpAlone fdToNode) World.init es :=
  (eachStep_backward (I := fun w => Bounded w.counters) (J := fun w => Exact w.counters)
    (fun _ _ _ h hstep => bounded_step h hstep) (fun _ _ _ h hstep hx => exact_of_step h hstep hx)
    bounded_init hrun hx).2

/-- At the end of an exact run the stored counts and the events are right. -/
theorem counts_of_exact (hx : Exact w.counters) (hr : Reported w) (hdone : w.running = [])
    (node : UInt32) : Counts w node (w.written node) := by
  have honce := hr.once node
  rw [hdone, List.countP_nil, Nat.add_zero] at honce
  refine ⟨hx.stored_eq node, ?_⟩
  by_cases hhot : 500 ≤ w.written node
  · rw [if_pos hhot] at honce ⊢
    obtain ⟨cnt, hcnt⟩ := List.length_eq_one_iff.mp honce
    rw [hcnt, hr.at_threshold node cnt (by rw [hcnt]; exact List.mem_singleton_self cnt)]
  · rw [if_neg hhot] at honce ⊢
    exact List.length_eq_zero_iff.mp honce

/-- With nothing under way, right counts are exact ones. -/
theorem exact_of_stored (hdone : w.running = [])
    (hstored : ∀ node, countOf (w.maps.heat node) = w.written node) : Exact w.counters := by
  have hreads : w.counters.reads = [] := by
    show w.running.filterMap openRead = []
    rw [hdone]
    rfl
  refine ⟨hstored, ?_, ?_⟩
  · rw [hreads]
    exact List.nodup_nil
  · rw [hreads]
    nofun

/-- **No read is lost**, and each hot node is reported once, in exactly the runs in which every
execution looks its node up while no other one of that node has still to update it.  The number
of the executions for a node has to fit its entry. -/
theorem counts_iff_looksUpAlone (hrun : run (World.step fdToNode) World.init es = some w)
    (hdone : w.running = []) :
    (∀ node, Counts w node (executions fdToNode es node)) ↔
      (∀ node, executions fdToNode es node < 2 ^ 64) ∧
        EachStep (World.step fdToNode) (LooksUpAlone fdToNode) World.init es := by
  have hwritten := written_eq hrun hdone
  constructor
  · intro hcounts
    refine ⟨fun node => ?_, ?_⟩
    · rw [← (hcounts node).1]
      exact countOf_lt _
    · refine looksUpAlone_of_exact hrun (exact_of_stored hdone fun node => ?_)
      rw [hwritten]
      exact (hcounts node).1
  · rintro ⟨hfits, halone⟩ node
    have hfits' : ∀ node, w.written node < 2 ^ 64 := fun node => by
      rw [hwritten]
      exact hfits node
    obtain ⟨hx, hr⟩ := exact_run hrun hfits' halone
    rw [← hwritten]
    exact counts_of_exact hx hr hdone node

/-- Two executions for one node, one after the other. -/
def orderlyReads : List Event :=
  [.lookup 3 7, .update 0, .finish 0 10, .lookup 3 8, .update 0, .finish 0 20]

theorem counts_orderlyReads :
    ∃ w, run (World.step fun _ => some 9) World.init orderlyReads = some w ∧
      ((∀ node, Counts w node (executions (fun _ => some 9) orderlyReads node)) ↔
        (∀ node, executions (fun _ => some 9) orderlyReads node < 2 ^ 64) ∧
          EachStep (World.step fun _ => some 9) (LooksUpAlone fun _ => some 9) World.init
            orderlyReads) :=
  ⟨_, rfl, counts_iff_looksUpAlone rfl rfl⟩

/-- Both look the node up before either updates it. -/
def racingReads : List Event :=
  [.lookup 3 7, .lookup 3 8, .update 0, .update 1, .finish 0 10, .finish 0 20]

theorem racingReads_lose :
    ∃ w, run (World.step fun _ => some 9) World.init racingReads = some w ∧ w.running = [] ∧
      executions (fun _ => some 9) racingReads 9 = 2 ∧ countOf (w.maps.heat 9) = 1 ∧
      ¬ ∀ (fdToNode : UInt32 → Option UInt32) (es : List Event) (w : World),
        run (World.step fdToNode) World.init es = some w → w.running = [] →
          ∀ node, Counts w node (executions fdToNode es node) := by
  refine ⟨_, rfl, rfl, by decide, by decide, fun hall => ?_⟩
  have hcount := (hall (fun _ => some 9) racingReads _ rfl rfl 9).1
  exact absurd hcount (by decide)

end NexusCore.Heat
