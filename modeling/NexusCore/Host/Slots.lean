import NexusCore.Foundation.Recency
import NexusCore.Host.Agg

/-!
# The active tenant slots

The gauge of the active slots is the number of entries of a map that forgets: `pruneSlots` drops
every slot that was not active in the last second.  `tracks_run` says what the map knows of all
queries of the run, those it forgot included, and `slotCount_pruneSlots` that just after a
pruning its size is the number of slots that were active in the last second.
-/

namespace NexusCore.Host

open Foundation.Recency

/-- `slot_last.len()`. -/
def slotCount (slotLast : UInt8 → Option Instant) : ℕ :=
  ((List.range 256).filter fun slot => (slotLast (UInt8.ofNat slot)).isSome).length

/-- The field of the metrics. -/
def Agg.activeTenantSlots (a : Agg) : UInt32 := UInt32.ofNat (slotCount a.slotLast)

/-- The slots of the queries, numbers below the size of the pool. -/
def activeSlots (qs : List Query) : List ℕ := qs.map fun q => q.tenantId.toNat % 256

/-- The queries later than a second before now. -/
def recent (now : Instant) (qs : List Query) : List Query :=
  qs.filter fun q => now - second < q.now

/-- The times never go back. -/
def Ordered (calls : List Call) : Prop := (calls.map Call.now).Pairwise (· ≤ ·)

instance Ordered.decidable (calls : List Call) : Decidable (Ordered calls) :=
  inferInstanceAs (Decidable ((calls.map Call.now).Pairwise (· ≤ ·)))

/-- What the queries do to the map of the slots. -/
def touches (calls : List Call) : List (UInt8 × Instant) :=
  (queries calls).map fun q => (slotOf q.tenantId, q.now)

variable {start now now' : Instant} {calls : List Call} {c : Call}

/-! ### Slots -/

theorem toNat_slotOf (tenantId : UInt32) : (slotOf tenantId).toNat = tenantId.toNat % 256 := by
  rw [slotOf, UInt32.toNat_toUInt8, UInt32.toNat_mod]
  show tenantId.toNat % 256 % 256 = tenantId.toNat % 256
  exact Nat.mod_mod _ _

theorem slotOf_eq_iff (tenantId : UInt32) {slot : ℕ} (hslot : slot < 256) :
    slotOf tenantId = UInt8.ofNat slot ↔ tenantId.toNat % 256 = slot := by
  rw [← UInt8.toNat_inj, toNat_slotOf, UInt8.toNat_ofNat_of_lt' hslot]

/-- A map that has an entry for exactly the slots of some queries. -/
theorem slotCount_eq {slotLast : UInt8 → Option Instant} {qs : List Query}
    (h : ∀ slot, (slotLast slot).isSome ↔ ∃ q ∈ qs, slotOf q.tenantId = slot) :
    slotCount slotLast = (activeSlots qs).toFinset.card := by
  have hslots : ((List.range 256).filter fun slot => (slotLast (UInt8.ofNat slot)).isSome).toFinset
      = (activeSlots qs).toFinset := by
    apply Finset.ext
    intro slot
    rw [List.mem_toFinset, List.mem_toFinset, List.mem_filter, List.mem_range, activeSlots,
      List.mem_map, h]
    constructor
    · rintro ⟨hslot, q, hq, heq⟩
      exact ⟨q, hq, (slotOf_eq_iff q.tenantId hslot).mp heq⟩
    · rintro ⟨q, hq, rfl⟩
      have hslot : q.tenantId.toNat % 256 < 256 := Nat.mod_lt _ (by decide)
      exact ⟨hslot, q, hq, (slotOf_eq_iff q.tenantId hslot).mpr rfl⟩
  rw [slotCount, ← hslots, List.toFinset_card_of_nodup (List.nodup_range.filter _)]

theorem slotCount_le (slotLast : UInt8 → Option Instant) : slotCount slotLast ≤ 256 :=
  (List.length_filter_le _ _).trans (by rw [List.length_range])

/-! ### What one call does to the slots -/

theorem slotLast_recordQuery (w : World) (tenantId : UInt32) (latNs docsReturned : UInt64)
    (now : Instant) : (w.step (.recordQuery tenantId latNs docsReturned now)).agg.slotLast
      = touch w.agg.slotLast (slotOf tenantId) now := rfl

theorem slotLast_pruneSlots (w : World) (now : Instant) :
    (w.step (.pruneSlots now)).agg.slotLast = expire w.agg.slotLast (now - second) := rfl

/-- Rolling the window leaves the slots alone. -/
theorem slotLast_rollQpsWindow (w : World) (now : Instant) :
    (w.step (.rollQpsWindow now)).agg.slotLast = w.agg.slotLast := by
  rcases step_roll w now with hstep | hstep
  · rw [hstep]
  · rw [hstep]

/-! ### Runs -/

theorem ordered_concat : Ordered (calls ++ [c]) ↔
    Ordered calls ∧ ∀ c' ∈ calls, c'.now ≤ c.now := by
  rw [Ordered, List.map_append, List.pairwise_append]
  constructor
  · rintro ⟨hcalls, -, hlast⟩
    refine ⟨hcalls, fun c' hc' => ?_⟩
    exact hlast c'.now (List.mem_map_of_mem hc') c.now (List.mem_singleton_self _)
  · rintro ⟨hcalls, hlast⟩
    refine ⟨hcalls, List.pairwise_singleton _ _, ?_⟩
    intro t ht t' ht'
    obtain ⟨c', hc', rfl⟩ := List.mem_map.mp ht
    rw [List.mem_singleton.mp ht']
    exact hlast c' hc'

theorem now_of_mem_touches {e : UInt8 × Instant} (he : e ∈ touches calls) :
    ∃ c ∈ calls, c.now = e.2 := by
  obtain ⟨q, hq, rfl⟩ := List.mem_map.mp he
  obtain ⟨c, hc, hquery⟩ := List.mem_filterMap.mp hq
  refine ⟨c, hc, ?_⟩
  cases c with
  | recordQuery tenantId latNs docsReturned now =>
      cases hquery
      rfl
  | pruneSlots now => cases hquery
  | rollQpsWindow now => cases hquery

/-- **What the map knows** after a run: everything later than any horizon that no cutoff of the
run was beyond. -/
theorem tracks_run (start : Instant) (hordered : Ordered calls) {horizon : Instant}
    (hhorizon : ∀ c ∈ calls, c.now - second ≤ horizon) :
    Tracks (World.run start calls).agg.slotLast (touches calls) horizon := by
  induction calls using List.reverseRecOn generalizing horizon with
  | nil => exact Tracks.init horizon
  | append_singleton calls c ih =>
      obtain ⟨hcalls, hlast⟩ := ordered_concat.mp hordered
      have hprev := ih hcalls fun c' hc' => hhorizon c' (List.mem_append_left _ hc')
      rw [run_concat]
      cases c with
      | recordQuery tenantId latNs docsReturned now =>
          rw [slotLast_recordQuery, touches, queries_concat, List.map_append]
          refine hprev.touch (slotOf tenantId) fun e he => ?_
          obtain ⟨c', hc', htime⟩ := now_of_mem_touches he
          rw [← htime]
          exact hlast c' hc'
      | pruneSlots now =>
          -- the cutoff is no earlier than those before it
          have hcutoff : Tracks (World.run start calls).agg.slotLast (touches calls)
              (now - second) := ih hcalls fun c' hc' => Int.sub_le_sub_right (hlast c' hc') second
          rw [slotLast_pruneSlots, touches, queries_pruneSlots]
          exact hcutoff.expire.mono
            (hhorizon (.pruneSlots now) (List.mem_append_right _ (List.mem_singleton_self _)))
      | rollQpsWindow now =>
          rw [slotLast_rollQpsWindow, touches, queries_rollQpsWindow]
          exact hprev

/-- After a pruning, a slot has an entry exactly when a query was recent. -/
theorem isSome_pruneSlots (start : Instant) (hordered : Ordered (calls ++ [Call.pruneSlots now]))
    (slot : UInt8) :
    ((World.run start (calls ++ [Call.pruneSlots now])).agg.slotLast slot).isSome ↔
      ∃ q ∈ recent now (queries calls), slotOf q.tenantId = slot := by
  obtain ⟨hcalls, hlast⟩ := ordered_concat.mp hordered
  have htracks : Tracks (World.run start calls).agg.slotLast (touches calls) (now - second) :=
    tracks_run start hcalls fun c' hc' => Int.sub_le_sub_right (hlast c' hc') second
  rw [run_concat, slotLast_pruneSlots, isSome_expire htracks]
  constructor
  · rintro ⟨t, hmem, hlt⟩
    obtain ⟨q, hq, heq⟩ := List.mem_map.mp hmem
    cases heq
    exact ⟨q, List.mem_filter.mpr ⟨hq, decide_eq_true hlt⟩, rfl⟩
  · rintro ⟨q, hq, rfl⟩
    have hrecent := List.mem_filter.mp hq
    exact ⟨q.now, List.mem_map.mpr ⟨q, hrecent.1, rfl⟩, of_decide_eq_true hrecent.2⟩

/-- **The gauge is exact whenever it is read**: the number of entries just after a pruning is the
number of slots of all queries so far that are less than a second old. -/
theorem slotCount_pruneSlots (start : Instant) (calls : List Call) (now : Instant)
    (hordered : Ordered (calls ++ [Call.pruneSlots now])) :
    slotCount (World.run start (calls ++ [Call.pruneSlots now])).agg.slotLast
      = (activeSlots (recent now (queries calls))).toFinset.card :=
  slotCount_eq (isSome_pruneSlots start hordered)

/-- Two tenants share slot 1; the entry of slot 2 is too old at the second pruning. -/
def sharedSlotCalls : List Call :=
  [.recordQuery 257 900 3 0, .recordQuery 2 800 1 10, .pruneSlots 500, .recordQuery 1 700 2 900]

theorem slotCount_sharedSlotCalls :
    slotCount (World.run 0 (sharedSlotCalls ++ [Call.pruneSlots 1000000010])).agg.slotLast = 1 :=
  (slotCount_pruneSlots 0 sharedSlotCalls 1000000010 (by decide)).trans (by decide)

/-- **What `metrics_json` shows.** -/
theorem activeTenantSlots_metricsJson (start : Instant)
    (hordered : Ordered (calls ++ metricsJson now now')) :
    (World.run start (calls ++ metricsJson now now')).agg.activeTenantSlots.toNat
      = (activeSlots (recent now (queries calls))).toFinset.card := by
  have hsplit : calls ++ metricsJson now now'
      = (calls ++ [Call.pruneSlots now]) ++ [Call.rollQpsWindow now'] := by
    rw [List.append_assoc]
    rfl
  rw [hsplit] at hordered ⊢
  have hcount := slotCount_eq (isSome_pruneSlots start (ordered_concat.mp hordered).1)
  have hfits := Nat.lt_of_le_of_lt
    (slotCount_le (World.run start (calls ++ [Call.pruneSlots now])).agg.slotLast)
    (show 256 < UInt32.size by decide)
  rw [run_concat, Agg.activeTenantSlots, slotLast_rollQpsWindow, UInt32.toNat_ofNat_of_lt' hfits,
    hcount]

end NexusCore.Host
