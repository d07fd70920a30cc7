import NexusCore.Foundation.Simulation
import NexusCore.Schema.LiveChange
import NexusCore.Schema.PacketGrammar

/-!
# Many tenants on one classifier

One schema map and one classifier serve all tenants; every tenant has a component of its own,
and updates and stamped frames that are on their way to it.  `Fleet` is the state of all of
it, with the packet counters of each CPU, and `see tenant` picks the events that concern a
tenant: the pushes and evictions of its entry, the packets that carry its id, and the
deliveries to its component.

A tenant's part of the fleet is the system of one tenant, on the events that concern it
(`shows_lane`), so no other tenant can change what its frames are decoded to
(`tenant_isolated`).
-/

namespace NexusCore.Schema

open Foundation.Transition Foundation.Simulation

/-! ### The fleet -/

/-- A frame that was forwarded to a component, and what `process_frame` returned: the fields, and
whether it counted an error.  There is no reply if it trapped, or if the component had. -/
structure Delivery where
  frame : StampedFrame
  reply : Option (List FieldValue × Bool)

def deliver (component : Option Component) (s : StampedFrame) : Delivery where
  frame := s
  reply := component.bind fun c =>
    (answerFrame (some c) s).map fun r => (r.1, decide (r.2.errors ≠ c.errors))

structure Fleet where
  schemaMap : SchemaMap
  /-- `pkt_counters`, by CPU and slot -/
  pktCounters : ℕ → UInt32 → UInt64
  /-- `none` after a trap -/
  component : UInt32 → Option Component
  updates : UInt32 → List (List UInt8)
  frames : UInt32 → List StampedFrame
  /-- the frames that were forwarded to each component -/
  delivered : UInt32 → List Delivery
  /-- the CPU and the tenant of each packet that was stamped -/
  stamps : List (ℕ × UInt32)

def Fleet.init : Fleet where
  schemaMap := fun _ => none
  pktCounters := fun _ _ => 0
  component := fun _ => some Component.init
  updates := fun _ => []
  frames := fun _ => []
  delivered := fun _ => []
  stamps := []

inductive FleetEvent
  | push (spec : SchemaSpec)
  | evict (tenantID : UInt32)
  /-- a packet arrives at the classifier on a CPU -/
  | packet (cpu : ℕ) (data : List UInt8) (metaGranted : Bool)
  | deliverUpdate (tenant : UInt32) (i : ℕ)
  | deliverFrame (tenant : UInt32) (i : ℕ)

/-- `__sync_fetch_and_add` on the slot of `pkt_counters`, which has 256 of them. -/
def countPacket (pktCounters : ℕ → UInt32 → UInt64) (cpu : ℕ) (bucket : UInt32) :
    ℕ → UInt32 → UInt64 := fun cpu' bucket' =>
  if bucket < 256 ∧ cpu' = cpu ∧ bucket' = bucket then pktCounters cpu' bucket' + 1
  else pktCounters cpu' bucket'

/-- What a verdict leaves behind: the counter, and the frame on its way to the component. -/
def Fleet.classified (payload : List UInt8 → List UInt8) (f : Fleet) (cpu : ℕ) (data : List UInt8)
    (verdict : Verdict) : Fleet :=
  let pktCounters := match verdict.counted with
    | none => f.pktCounters
    | some bucket => countPacket f.pktCounters cpu bucket
  match verdict.stamp with
  | none => { f with pktCounters := pktCounters }
  | some mt =>
      match f.schemaMap mt.tenantId with
      | none => { f with pktCounters := pktCounters }
      | some value =>
          { f with
            pktCounters := pktCounters
            frames := Function.update f.frames mt.tenantId
              (f.frames mt.tenantId ++ [⟨payload data, mt.schemaVersion, value⟩])
            stamps := f.stamps ++ [(cpu, mt.tenantId)] }

/-- One step of the fleet. -/
def Fleet.step (payload : List UInt8 → List UInt8) (f : Fleet) : FleetEvent → Option Fleet
  | .push spec => some
      { f with
        schemaMap := pushSchema f.schemaMap spec
        updates := Function.update f.updates spec.tenantID
          (f.updates spec.tenantID ++ [pushedValue spec]) }
  | .evict tenantID => some { f with schemaMap := Function.update f.schemaMap tenantID none }
  | .packet cpu data metaGranted => some
      (f.classified payload cpu data (nexuscoreClassify f.schemaMap metaGranted data))
  | .deliverUpdate tenant i =>
      match (f.updates tenant)[i]? with
      | none => none
      | some raw => some
          { f with
            updates := Function.update f.updates tenant ((f.updates tenant).eraseIdx i)
            component := Function.update f.component tenant
              ((f.component tenant).map fun c => (applySchemaUpdate c raw).2) }
  | .deliverFrame tenant i =>
      match (f.frames tenant)[i]? with
      | none => none
      | some s => some
          { f with
            frames := Function.update f.frames tenant ((f.frames tenant).eraseIdx i)
            component := Function.update f.component tenant
              ((answerFrame (f.component tenant) s).map Prod.snd)
            delivered := Function.update f.delivered tenant
              (f.delivered tenant ++ [deliver (f.component tenant) s]) }

def Fleet.run (payload : List UInt8 → List UInt8) : Fleet → List FleetEvent → Option Fleet :=
  Foundation.Transition.run (Fleet.step payload)

/-! ### A tenant on its own -/

/-- The system of one tenant, with the frames that were forwarded to its component. -/
structure Lane where
  world : World
  delivered : List Delivery

def Lane.init : Lane := ⟨World.init, []⟩

/-- The frame that an event forwards to the component. -/
def World.delivery (w : World) : Event → List Delivery
  | .deliverFrame i => (w.frames[i]?.map (deliver w.component)).toList
  | _ => []

def Lane.step (tenant : UInt32) (payload : List UInt8 → List UInt8) (l : Lane) (e : Event) :
    Option Lane :=
  (l.world.step tenant payload e).map fun w => ⟨w, l.delivered ++ l.world.delivery e⟩

/-- The map with the entry of one tenant only. -/
def onlyTenant (tenant : UInt32) (schemaMap : SchemaMap) : SchemaMap := fun tenantID =>
  if tenantID = tenant then schemaMap tenantID else none

/-- The part of a tenant: its map entry, its component, and what is in flight to it. -/
def Fleet.lane (tenant : UInt32) (f : Fleet) : Lane where
  world :=
    { schemaMap := onlyTenant tenant f.schemaMap
      component := f.component tenant
      updates := f.updates tenant
      frames := f.frames tenant }
  delivered := f.delivered tenant

/-- The tenant whose entry the classifier looks up for a packet. -/
def packetTenant (data : List UInt8) : Option UInt32 :=
  (nexuscoreClassify (fun _ => some []) true data).stamp.map NexuscoreMeta.tenantId

/-- The events that concern a tenant, as its own system knows them. -/
def see (tenant : UInt32) : FleetEvent → Option Event
  | .push spec => if spec.tenantID = tenant then some (.push spec) else none
  | .evict tenantID => if tenantID = tenant then some (.evict tenantID) else none
  | .packet _ data metaGranted =>
      if packetTenant data = some tenant then some (.packet data metaGranted) else none
  | .deliverUpdate tenant' i => if tenant' = tenant then some (.deliverUpdate i) else none
  | .deliverFrame tenant' i => if tenant' = tenant then some (.deliverFrame i) else none

/-! ### What one event does -/

variable {payload : List UInt8 → List UInt8} {tenant : UInt32} {f f' : Fleet}

/-- **A packet's tenant**: the classifier looks up one entry at most, and its verdict depends on
nothing else in the map. -/
theorem classify_eq (schemaMap : SchemaMap) (metaGranted : Bool) (data : List UInt8) :
    (∀ t, packetTenant data = some t →
      nexuscoreClassify schemaMap metaGranted data = stampTenant schemaMap metaGranted t) ∧
    (packetTenant data = none → (nexuscoreClassify schemaMap metaGranted data).stamp = none ∧
      (nexuscoreClassify schemaMap metaGranted data).counted = none) := by
  by_cases h : ReadsTenant data
  · have htenant : packetTenant data = some (be32At data (14 + ihl data * 4 + 8)) := by
      rw [packetTenant, classify_of_readsTenant h]
      rfl
    rw [htenant, classify_of_readsTenant h]
    refine ⟨?_, nofun⟩
    intro t ht
    rw [Option.some.inj ht]
  · have hnone : ∀ m g, (nexuscoreClassify m g data).stamp = none ∧
        (nexuscoreClassify m g data).counted = none := by
      intro m g
      rcases classify_of_not_readsTenant m g h with heq | ⟨heq, -⟩ <;> rw [heq] <;> exact ⟨rfl, rfl⟩
    have htenant : packetTenant data = none := by rw [packetTenant, (hnone _ _).1, Option.map_none]
    rw [htenant]
    exact ⟨nofun, fun _ => hnone schemaMap metaGranted⟩

/-- **What a packet does**: nothing, or it is stamped with its tenant's version, counted in its
tenant's slot and sent on to its tenant's component. -/
theorem classified_cases (f : Fleet) (cpu : ℕ) (data : List UInt8) (metaGranted : Bool) :
    f.classified payload cpu data (nexuscoreClassify f.schemaMap metaGranted data) = f ∧
        (∀ t, packetTenant data = some t → f.schemaMap t = none ∨ metaGranted = false) ∨
      ∃ t value, packetTenant data = some t ∧ metaGranted = true ∧ f.schemaMap t = some value ∧
        f.classified payload cpu data (nexuscoreClassify f.schemaMap metaGranted data) =
          { f with
            pktCounters := countPacket f.pktCounters cpu (t &&& 0xFF)
            frames := Function.update f.frames t
              (f.frames t ++ [⟨payload data, storedVersion value, value⟩])
            stamps := f.stamps ++ [(cpu, t)] } := by
  obtain ⟨hsome, hnone⟩ := classify_eq f.schemaMap metaGranted data
  cases htenant : packetTenant data with
  | none =>
      obtain ⟨hstamp, hcounted⟩ := hnone htenant
      refine Or.inl ⟨?_, nofun⟩
      rw [Fleet.classified, hstamp, hcounted]
  | some t =>
      rw [hsome t htenant, stampTenant]
      cases hvalue : f.schemaMap t with
      | none =>
          refine Or.inl ⟨rfl, ?_⟩
          intro t' ht'
          cases ht'
          exact Or.inl hvalue
      | some value =>
          cases metaGranted with
          | false => exact Or.inl ⟨rfl, fun _ _ => Or.inr rfl⟩
          | true =>
              refine Or.inr ⟨t, value, rfl, rfl, hvalue, ?_⟩
              simp only [Fleet.classified, if_true, hvalue]

theorem Fleet.step_deliverUpdate {i : ℕ} (h : f.step payload (.deliverUpdate tenant i) = some f') :
    ∃ raw, (f.updates tenant)[i]? = some raw ∧ f' =
      { f with
        updates := Function.update f.updates tenant ((f.updates tenant).eraseIdx i)
        component := Function.update f.component tenant
          ((f.component tenant).map fun c => (applySchemaUpdate c raw).2) } := by
  rw [Fleet.step] at h
  cases hraw : (f.updates tenant)[i]? with
  | none =>
      rw [hraw] at h
      cases h
  | some raw =>
      rw [hraw] at h
      cases h
      exact ⟨raw, rfl, rfl⟩

theorem Fleet.step_deliverFrame {i : ℕ} (h : f.step payload (.deliverFrame tenant i) = some f') :
    ∃ s, (f.frames tenant)[i]? = some s ∧ f' =
      { f with
        frames := Function.update f.frames tenant ((f.frames tenant).eraseIdx i)
        component := Function.update f.component tenant
          ((answerFrame (f.component tenant) s).map Prod.snd)
        delivered := Function.update f.delivered tenant
          (f.delivered tenant ++ [deliver (f.component tenant) s]) } := by
  rw [Fleet.step] at h
  cases hs : (f.frames tenant)[i]? with
  | none =>
      rw [hs] at h
      cases h
  | some s =>
      rw [hs] at h
      cases h
      exact ⟨s, rfl, rfl⟩

/-! ### A tenant's part is the system of one tenant -/

theorem onlyTenant_self (schemaMap : SchemaMap) :
    onlyTenant tenant schemaMap tenant = schemaMap tenant := if_pos rfl

/-- Changing the entry of another tenant leaves a tenant's map alone. -/
theorem onlyTenant_update_of_ne {tenantID : UInt32} (h : tenantID ≠ tenant)
    (schemaMap : SchemaMap) (value : Option (List UInt8)) :
    onlyTenant tenant (Function.update schemaMap tenantID value) = onlyTenant tenant schemaMap := by
  funext t
  rw [onlyTenant, onlyTenant]
  by_cases ht : t = tenant
  · rw [if_pos ht, if_pos ht, Function.update_of_ne]
    rw [ht]
    exact h.symm
  · rw [if_neg ht, if_neg ht]

theorem onlyTenant_update_self (schemaMap : SchemaMap) (value : Option (List UInt8)) :
    onlyTenant tenant (Function.update schemaMap tenant value)
      = Function.update (onlyTenant tenant schemaMap) tenant value := by
  funext t
  rw [onlyTenant]
  by_cases ht : t = tenant
  · rw [if_pos ht, ht, Function.update_self, Function.update_self]
  · rw [if_neg ht, Function.update_of_ne ht, onlyTenant, if_neg ht]

/-- The same tenant and the same map entry give the same step on a packet. -/
theorem lane_packet (l : Lane) {data : List UInt8} {metaGranted : Bool}
    (htenant : packetTenant data = some tenant) :
    l.step tenant payload (.packet data metaGranted) = some
      (match l.world.schemaMap tenant, metaGranted with
        | some value, true => { l with world := { l.world with
            frames := l.world.frames ++ [⟨payload data, storedVersion value, value⟩] } }
        | _, _ => l) := by
  rw [Lane.step, World.step, (classify_eq _ _ _).1 tenant htenant, stampTenant]
  cases hvalue : l.world.schemaMap tenant with
  | none => simp only [Verdict.pass, Option.map_some, World.delivery, List.append_nil]
  | some value =>
      cases metaGranted with
      | false => simp only [Verdict.pass, Option.map_some, World.delivery, List.append_nil,
          Bool.false_eq_true, if_false]
      | true => simp only [if_true, Option.map_some, World.delivery, List.append_nil]

/-- An event that concerns a tenant is a step of its own system. -/
theorem lane_seen {e : FleetEvent} {e' : Event} (h : f.step payload e = some f')
    (hsee : see tenant e = some e') :
    (f.lane tenant).step tenant payload e' = some (f'.lane tenant) := by
  cases e with
  | push spec =>
      obtain ⟨rfl, he⟩ := Option.ite_none_right_eq_some.mp hsee
      cases he
      cases h
      simp only [Lane.step, World.step, Fleet.lane, pushSchema, onlyTenant_update_self, if_true,
        Function.update_self, Option.map_some, World.delivery, List.append_nil]
  | evict tenantID =>
      obtain ⟨rfl, he⟩ := Option.ite_none_right_eq_some.mp hsee
      cases he
      cases h
      simp only [Lane.step, World.step, Fleet.lane, onlyTenant_update_self, Option.map_some,
        World.delivery, List.append_nil]
  | packet cpu data metaGranted =>
      obtain ⟨htenant, he⟩ := Option.ite_none_right_eq_some.mp hsee
      cases he
      cases h
      rw [lane_packet _ htenant]
      rcases @classified_cases payload f cpu data metaGranted with
        ⟨heq, hnot⟩ | ⟨t, value, ht, rfl, hvalue, heq⟩
      · rw [heq]
        show some (match onlyTenant tenant f.schemaMap tenant, metaGranted with
          | some _, true => _
          | _, _ => _) = _
        rw [onlyTenant_self]
        rcases hnot tenant htenant with hnone | rfl
        · rw [hnone]
        · cases f.schemaMap tenant <;> rfl
      · cases htenant.symm.trans ht
        rw [heq]
        show some (match onlyTenant tenant f.schemaMap tenant, true with
          | some _, true => _
          | _, _ => _) = _
        rw [onlyTenant_self, hvalue]
        simp only [Fleet.lane, Function.update_self]
  | deliverUpdate tenant' i =>
      obtain ⟨rfl, he⟩ := Option.ite_none_right_eq_some.mp hsee
      cases he
      obtain ⟨raw, hraw, rfl⟩ := Fleet.step_deliverUpdate h
      simp only [Lane.step, World.step, Fleet.lane, hraw, Function.update_self, Option.map_some,
        World.delivery, List.append_nil]
  | deliverFrame tenant' i =>
      obtain ⟨rfl, he⟩ := Option.ite_none_right_eq_some.mp hsee
      cases he
      obtain ⟨s, hs, rfl⟩ := Fleet.step_deliverFrame h
      simp only [Lane.step, World.step, Fleet.lane, hs, Function.update_self, Option.map_some,
        World.delivery, Option.toList_some]

/-- An event of another tenant leaves a tenant's part alone. -/
theorem lane_unseen {e : FleetEvent} (h : f.step payload e = some f') (hsee : see tenant e = none) :
    f'.lane tenant = f.lane tenant := by
  cases e with
  | push spec =>
      have hne : spec.tenantID ≠ tenant := fun heq => by simp [see, heq] at hsee
      cases h
      simp only [Fleet.lane, pushSchema, onlyTenant_update_of_ne hne,
        Function.update_of_ne hne.symm]
  | evict tenantID =>
      have hne : tenantID ≠ tenant := fun heq => by simp [see, heq] at hsee
      cases h
      simp only [Fleet.lane, onlyTenant_update_of_ne hne]
  | packet cpu data metaGranted =>
      have hne : packetTenant data ≠ some tenant := fun heq => by simp [see, heq] at hsee
      cases h
      rcases @classified_cases payload f cpu data metaGranted with
        ⟨heq, -⟩ | ⟨t, value, ht, -, -, heq⟩
      · rw [heq]
      · have hother : tenant ≠ t := by
          rintro rfl
          exact hne ht
        rw [heq]
        simp only [Fleet.lane, Function.update_of_ne hother]
  | deliverUpdate tenant' i =>
      have hne : tenant' ≠ tenant := fun heq => by simp [see, heq] at hsee
      obtain ⟨raw, -, rfl⟩ := Fleet.step_deliverUpdate h
      simp only [Fleet.lane, Function.update_of_ne hne.symm]
  | deliverFrame tenant' i =>
      have hne : tenant' ≠ tenant := fun heq => by simp [see, heq] at hsee
      obtain ⟨s, -, rfl⟩ := Fleet.step_deliverFrame h
      simp only [Fleet.lane, Function.update_of_ne hne.symm]

theorem shows_lane (payload : List UInt8 → List UInt8) (tenant : UInt32) :
    Shows (Fleet.step payload) (Lane.step tenant payload) (Fleet.lane tenant) (see tenant) where
  seen := lane_seen
  unseen := lane_unseen

theorem lane_init : Fleet.init.lane tenant = Lane.init := by
  have hmap : onlyTenant tenant Fleet.init.schemaMap = fun _ => none := by
    funext t
    exact ite_self _
  rw [Fleet.lane, hmap]
  rfl

/-- **Tenants are isolated.**  In every run, what becomes of a tenant's map entry, of its
component and of all that is in flight to it, and what `process_frame` returns for it, is what
the events that concern the tenant make of it on their own, whatever happens to the others,
whose components may trap as well. -/
theorem tenant_isolated (payload : List UInt8 → List UInt8) (tenant : UInt32)
    {es : List FleetEvent} {f : Fleet} (hrun : Fleet.run payload Fleet.init es = some f) :
    run (Lane.step tenant payload) Lane.init (es.filterMap (see tenant)) = some (f.lane tenant) ∧
    ∀ es' f', Fleet.run payload Fleet.init es' = some f' →
      es'.filterMap (see tenant) = es.filterMap (see tenant) →
      f'.lane tenant = f.lane tenant := by
  constructor
  · have hpart := (shows_lane payload tenant).run hrun
    rwa [lane_init] at hpart
  · intro es' f' hrun' hsee
    exact (shows_lane payload tenant).run_congr hrun' hrun rfl hsee

/-- Two tenants get their first simulated update and a packet each; the update of tenant 9 is
still on its way when its frame arrives. -/
def twoTenants : List FleetEvent :=
  [.push ⟨7, 1, baseFields.take 3⟩, .push ⟨9, 1, baseFields.take 3⟩, .deliverUpdate 7 0,
    .packet 0 (tenantPacket 7) true, .packet 1 (tenantPacket 9) true, .deliverFrame 7 0,
    .deliverFrame 9 0]

theorem run_twoTenants : ∃ f, Fleet.run id Fleet.init twoTenants = some f :=
  Option.isSome_iff_exists.mp (by decide +kernel)

/-- Tenant 9 gets a specification of 65 fields, and its component traps at the next frame. -/
def trappedNeighbour : List FleetEvent :=
  [.push ⟨7, 1, baseFields.take 3⟩, .push ⟨9, 1, List.replicate 65 ⟨"f", "u64", 0⟩⟩,
    .deliverUpdate 9 0, .deliverUpdate 7 0, .packet 0 (tenantPacket 7) true,
    .packet 1 (tenantPacket 9) true, .deliverFrame 9 0, .deliverFrame 7 0]

theorem run_trappedNeighbour :
    ∃ f, Fleet.run id Fleet.init trappedNeighbour = some f ∧ f.component 9 = none := by
  have htrap : (Fleet.run id Fleet.init trappedNeighbour).map (fun f => f.component 9)
      = some none := by decide +kernel
  exact Option.map_eq_some_iff.mp htrap

theorem tenant_isolated_two :
    ∃ f f', Fleet.run id Fleet.init trappedNeighbour = some f ∧ f.component 9 = none ∧
      Fleet.run id Fleet.init (trappedNeighbour.filter fun e => (see 7 e).isSome) = some f' ∧
      f'.lane 7 = f.lane 7 := by
  have hrun' : (Fleet.run id Fleet.init
      (trappedNeighbour.filter fun e => (see 7 e).isSome)).isSome := by decide +kernel
  obtain ⟨f, hf, htrap⟩ := run_trappedNeighbour
  obtain ⟨f', hf'⟩ := Option.isSome_iff_exists.mp hrun'
  refine ⟨f, f', hf, htrap, hf', (tenant_isolated id 7 hf).2 _ f' hf' ?_⟩
  rw [List.filterMap_filter]
  refine List.filterMap_congr fun e _ => ?_
  cases see 7 e <;> rfl

end NexusCore.Schema
