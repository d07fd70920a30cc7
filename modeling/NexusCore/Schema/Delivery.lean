import NexusCore.Schema.Descriptor
import NexusCore.Schema.Tenants

/-!
# What becomes of the frames of a fleet

Every frame that the classifier has stamped is in flight to its tenant's component or was
delivered, and the counters of the classifier and of the components agree with that
(`frames_accounted`).  A delivered frame was rejected, or decoded with the descriptor that it
was stamped under, as long as no tenant has two descriptors of one version
(`fleet_decodes_as_stamped`).  The updates that the control plane simulates keep to that, for
any tenants at once (`simulated_fleet_decodes`).
-/

namespace NexusCore.Schema

open Foundation.Transition Foundation.Simulation

variable {payload : List UInt8 → List UInt8} {tenant : UInt32} {specs : Set SchemaSpec}
  {f f' : Fleet}

/-! ### Where the frames are -/

/-- A delivered frame that was processed, or rejected. -/
def Delivery.counts (rejected : Bool) (d : Delivery) : Bool :=
  d.reply.any fun r => r.2 == rejected

/-- What was forwarded to a component: the frames before a trap were answered, and nothing was
answered from then on. -/
structure UpToTrap (component : Option Component) (delivered : List Delivery) : Prop where
  counters : ∀ c, component = some c →
    c.processed = UInt64.ofNat (delivered.countP (Delivery.counts false)) ∧
      c.errors = UInt64.ofNat (delivered.countP (Delivery.counts true))
  parts : ∃ answered lost, delivered = answered ++ lost ∧ (∀ d ∈ answered, d.reply.isSome) ∧
    (∀ d ∈ lost, d.reply = none) ∧ (component = none ↔ lost ≠ [])

/-- The counters and the frames agree with the stamps. -/
structure FramesAccounted (f : Fleet) : Prop where
  /-- a slot of `pkt_counters` counts the stamps of its tenants on its CPU -/
  counters : ∀ cpu slot, f.pktCounters cpu slot
    = UInt64.ofNat (f.stamps.countP fun s => s.1 = cpu ∧ s.2 &&& 0xFF = slot)
  /-- a stamped frame is in flight or was delivered -/
  frames : ∀ tenant, (f.stamps.countP fun s => s.2 = tenant)
    = (f.frames tenant).length + (f.delivered tenant).length
  /-- a delivered frame was counted by the component, or lost to a trap -/
  replies : ∀ tenant, UpToTrap (f.component tenant) (f.delivered tenant)

theorem UpToTrap.init : UpToTrap (some Component.init) [] where
  counters := by
    rintro c ⟨⟩
    exact ⟨rfl, rfl⟩
  parts := ⟨[], [], rfl, nofun, nofun, iff_of_false nofun fun h => h rfl⟩

theorem FramesAccounted.init : FramesAccounted Fleet.init where
  counters := fun _ _ => rfl
  frames := fun _ => rfl
  replies := fun _ => UpToTrap.init

/-- An update does not touch the counters of frames. -/
theorem UpToTrap.update {component : Option Component} {delivered : List Delivery}
    (h : UpToTrap component delivered) (raw : List UInt8) :
    UpToTrap (component.map fun c => (applySchemaUpdate c raw).2) delivered where
  counters := by
    intro c' hc'
    obtain ⟨c, hc, rfl⟩ := Option.map_eq_some_iff.mp hc'
    rcases applySchemaUpdate_cases c raw with ⟨-, heq⟩ | ⟨-, -, heq⟩ | ⟨-, -, heq⟩ <;> rw [heq] <;>
      exact h.counters c hc
  parts := by
    obtain ⟨answered, lost, hsplit, hanswered, hlost, htrap⟩ := h.parts
    exact ⟨answered, lost, hsplit, hanswered, hlost, Option.map_eq_none_iff.trans htrap⟩

/-- **A frame is answered, or lost to a trap.** -/
theorem UpToTrap.deliver {component : Option Component} {delivered : List Delivery}
    (h : UpToTrap component delivered) (s : StampedFrame) :
    UpToTrap ((answerFrame component s).map Prod.snd)
      (delivered ++ [Schema.deliver component s]) := by
  obtain ⟨answered, lost, hsplit, hanswered, hlost, htrap⟩ := h.parts
  cases hanswer : answerFrame component s with
  | none =>
      have hreply : (Schema.deliver component s).reply = none := by
        cases component with
        | none => rfl
        | some c =>
            rw [Schema.deliver, Option.bind_some, hanswer]
            rfl
      refine ⟨nofun, answered, lost ++ [Schema.deliver component s], ?_, hanswered, ?_, ?_⟩
      · rw [hsplit, List.append_assoc]
      · intro d hd
        rcases List.mem_append.mp hd with hd | hd
        · exact hlost d hd
        · rw [List.mem_singleton.mp hd]
          exact hreply
      · exact iff_of_true rfl (List.append_ne_nil_of_right_ne_nil _ (List.cons_ne_nil _ _))
  | some r =>
      obtain ⟨vs, c'⟩ := r
      obtain ⟨c, rfl, hp⟩ := answerFrame_eq_some.mp hanswer
      have hreply : (Schema.deliver (some c) s).reply
          = some (vs, decide (c'.errors ≠ c.errors)) := by
        rw [Schema.deliver, Option.bind_some, hanswer]
        rfl
      -- nothing was lost before, as the component has not trapped
      have hnil : lost = [] := by
        by_contra hne
        cases htrap.mpr hne
      subst hnil
      rw [List.append_nil] at hsplit
      subst hsplit
      obtain ⟨hprocessed, herrors⟩ := h.counters c rfl
      refine ⟨?_, delivered ++ [Schema.deliver (some c) s], [], (List.append_nil _).symm, ?_, nofun,
        iff_of_false nofun fun hne => hne rfl⟩
      · rintro c₁ ⟨⟩
        simp only [List.countP_append, List.countP_singleton, Delivery.counts, hreply,
          Option.any_some, UInt64.ofNat_add]
        rcases processFrame_ok hp with ⟨-, -, rfl⟩ | ⟨-, -, rfl⟩
        · simp [hprocessed, herrors]
        · simp [hprocessed, herrors]
      · intro d hd
        rcases List.mem_append.mp hd with hd | hd
        · exact hanswered d hd
        · rw [List.mem_singleton.mp hd, hreply]
          rfl

/-- The slot of a tenant exists. -/
theorem bucket_lt (tenant : UInt32) : tenant &&& 0xFF < 256 := by
  rw [UInt32.lt_iff_toNat_lt, UInt32.toNat_and]
  exact Nat.lt_of_le_of_lt Nat.and_le_right (by decide)

theorem FramesAccounted.packet (h : FramesAccounted f) (cpu : ℕ) (data : List UInt8)
    (metaGranted : Bool) :
    FramesAccounted (f.classified payload cpu data
      (nexuscoreClassify f.schemaMap metaGranted data)) := by
  rcases @classified_cases payload f cpu data metaGranted with
    ⟨heq, -⟩ | ⟨t, value, -, -, -, heq⟩
  · rwa [heq]
  rw [heq]
  refine ⟨?_, ?_, h.replies⟩
  · intro cpu' slot
    show countPacket f.pktCounters cpu (t &&& 0xFF) cpu' slot
      = UInt64.ofNat (List.countP _ (_ ++ _))
    rw [countPacket, List.countP_append, List.countP_singleton, h.counters cpu' slot]
    by_cases hslot : cpu' = cpu ∧ slot = t &&& 0xFF
    · rw [if_pos ⟨bucket_lt t, hslot⟩, if_pos (decide_eq_true ⟨hslot.1.symm, hslot.2.symm⟩),
        UInt64.ofNat_add]
      rfl
    · rw [if_neg fun hc => hslot hc.2, if_neg, Nat.add_zero]
      intro hc
      obtain ⟨hcpu, hbucket⟩ := of_decide_eq_true hc
      exact hslot ⟨hcpu.symm, hbucket.symm⟩
  · intro t'
    show List.countP _ (_ ++ _) = (Function.update f.frames t _ t').length + _
    rw [List.countP_append, List.countP_singleton, h.frames t']
    by_cases ht : t = t'
    · subst ht
      rw [Function.update_self, List.length_append, if_pos (decide_eq_true rfl)]
      exact Nat.add_right_comm _ _ _
    · rw [Function.update_of_ne (Ne.symm ht), if_neg (fun hc => ht (of_decide_eq_true hc)),
        Nat.add_zero]

theorem FramesAccounted.deliverUpdate (h : FramesAccounted f) {i : ℕ}
    (hf : f.step payload (.deliverUpdate tenant i) = some f') : FramesAccounted f' := by
  obtain ⟨raw, -, rfl⟩ := Fleet.step_deliverUpdate hf
  refine ⟨h.counters, h.frames, fun t => ?_⟩
  by_cases ht : t = tenant
  · subst ht
    simp only [Function.update_self]
    exact (h.replies t).update raw
  · simp only [Function.update_of_ne ht]
    exact h.replies t

theorem FramesAccounted.deliverFrame (h : FramesAccounted f) {i : ℕ}
    (hf : f.step payload (.deliverFrame tenant i) = some f') : FramesAccounted f' := by
  obtain ⟨s, hs, rfl⟩ := Fleet.step_deliverFrame hf
  have hi : i < (f.frames tenant).length := (List.getElem?_eq_some_iff.mp hs).1
  refine ⟨h.counters, ?_, ?_⟩
  · intro t
    rw [h.frames t]
    by_cases ht : t = tenant
    · subst ht
      simp only [Function.update_self, List.length_eraseIdx_of_lt hi, List.length_append,
        List.length_singleton]
      omega
    · simp only [Function.update_of_ne ht]
  · intro t
    by_cases ht : t = tenant
    · subst ht
      simp only [Function.update_self]
      exact (h.replies t).deliver s
    · simp only [Function.update_of_ne ht]
      exact h.replies t

theorem FramesAccounted.step (h : FramesAccounted f) {e : FleetEvent}
    (hf : f.step payload e = some f') : FramesAccounted f' := by
  cases e with
  | push spec =>
      cases hf
      exact ⟨h.counters, h.frames, h.replies⟩
  | evict tenantID =>
      cases hf
      exact ⟨h.counters, h.frames, h.replies⟩
  | packet cpu data metaGranted =>
      cases hf
      exact h.packet cpu data metaGranted
  | deliverUpdate tenant i => exact h.deliverUpdate hf
  | deliverFrame tenant i => exact h.deliverFrame hf

/-- If there was a reply, the frame was rejected, or decoded with the descriptor that it was stamped
under. -/
def DecodedAsStamped (d : Delivery) : Prop :=
  ∀ vs rejected, d.reply = some (vs, rejected) → rejected = true ∧ vs = [] ∨
    rejected = false ∧ decodeFields (readDescriptor d.frame.stampedUnder) d.frame.frame
      (readDescriptor d.frame.stampedUnder).fieldCount.toNat 0 = .ok vs

theorem reply_deliver {component : Option Component} {s : StampedFrame} {vs : List FieldValue}
    {rejected : Bool} (h : (deliver component s).reply = some (vs, rejected)) :
    ∃ c c', component = some c ∧ processFrame c s.frame s.version = .ok (vs, c') ∧
      rejected = decide (c'.errors ≠ c.errors) := by
  obtain ⟨c, rfl, hreply⟩ := Option.bind_eq_some_iff.mp h
  obtain ⟨⟨vs, c'⟩, hanswer, heq⟩ := Option.map_eq_some_iff.mp hreply
  cases heq
  obtain ⟨c₁, hc₁, hp⟩ := answerFrame_eq_some.mp hanswer
  cases hc₁
  exact ⟨c, c', rfl, hp, rfl⟩

/-- What a component returns while its frames in flight are sound. -/
theorem delivery_decoded {w : World} (hsound : SoundDecodes w) (e : Event) :
    ∀ d ∈ w.delivery e, DecodedAsStamped d := by
  intro d hd vs rejected hreply
  cases e with
  | deliverFrame i =>
      obtain ⟨s, hs, rfl⟩ := Option.map_eq_some_iff.mp (Option.mem_toList.mp hd)
      obtain ⟨c, c', hc, hp, rfl⟩ := reply_deliver hreply
      by_cases herrors : c'.errors = c.errors
      · exact Or.inr ⟨decide_eq_false (not_not.mpr herrors),
          (hsound s (List.mem_of_getElem? hs) c vs c' hc hp herrors).2⟩
      · refine Or.inl ⟨decide_eq_true herrors, ?_⟩
        rcases processFrame_ok hp with ⟨-, -, rfl⟩ | ⟨-, hnil, -⟩
        · exact absurd rfl herrors
        · exact hnil
  | push spec => cases hd
  | evict tenantID => cases hd
  | packet data metaGranted => cases hd
  | deliverUpdate i => cases hd

theorem lane_step {l l' : Lane} {e : Event} (h : l.step tenant payload e = some l') :
    l.world.step tenant payload e = some l'.world ∧
      l'.delivered = l.delivered ++ l.world.delivery e := by
  obtain ⟨w, hw, rfl⟩ := Option.map_eq_some_iff.mp h
  exact ⟨hw, rfl⟩

/-- The component has not trapped, and every frame was answered. -/
structure Answers (l : Lane) : Prop where
  alive : l.world.component.isSome
  replies : ∀ d ∈ l.delivered, d.reply.isSome

theorem answerFrame_isSome {c : Component} (h : FieldsFit c.schema) (s : StampedFrame) :
    (answerFrame (some c) s).isSome ∧ (deliver (some c) s).reply.isSome := by
  obtain ⟨vs, c', hp, -, -⟩ := processFrame_returns h s.frame s.version
  have hanswer : answerFrame (some c) s = some (vs, c') := answerFrame_eq_some.mpr ⟨c, rfl, hp⟩
  rw [deliver, Option.bind_some, hanswer]
  exact ⟨rfl, rfl⟩

/-- **Descriptors of at most 64 fields trap no component.** -/
theorem Answers.step {l l' : Lane} (h : Answers l) (hfrom : FromPushed tenant specs l.world)
    (hfit : ∀ d ∈ pushedDescriptors tenant specs, FieldsFit d) {e : Event}
    (hstep : l.step tenant payload e = some l') : Answers l' := by
  obtain ⟨hworld, hnew⟩ := lane_step hstep
  obtain ⟨c, hc⟩ := Option.isSome_iff_exists.mp h.alive
  have hschema : FieldsFit c.schema := by
    rcases hfrom.component c hc with hempty | hpushed
    · rw [hempty]
      exact Nat.zero_le _
    · exact hfit _ hpushed
  have hreplies : (∀ d ∈ l.world.delivery e, d.reply.isSome) → ∀ d ∈ l'.delivered, d.reply.isSome :=
    fun hnow => by
      rw [hnew]
      exact List.forall_mem_append.mpr ⟨h.replies, hnow⟩
  cases e with
  | push spec =>
      obtain ⟨w, hw, rfl⟩ := Option.map_eq_some_iff.mp hstep
      cases hw
      exact ⟨h.alive, hreplies nofun⟩
  | evict tenantID =>
      obtain ⟨w, hw, rfl⟩ := Option.map_eq_some_iff.mp hstep
      cases hw
      exact ⟨h.alive, hreplies nofun⟩
  | packet data metaGranted =>
      refine ⟨?_, hreplies nofun⟩
      rw [component_packet hworld]
      exact h.alive
  | deliverUpdate i =>
      refine ⟨?_, hreplies nofun⟩
      obtain ⟨raw, -, hcomponent⟩ := component_deliverUpdate hworld
      rw [hcomponent, Option.isSome_map]
      exact h.alive
  | deliverFrame i =>
      obtain ⟨s, hs, hcomponent⟩ := component_deliverFrame hworld
      obtain ⟨hanswer, hreply⟩ := answerFrame_isSome hschema s
      refine ⟨?_, hreplies ?_⟩
      · rw [hcomponent, hc, Option.isSome_map]
        exact hanswer
      · rw [World.delivery, hs, hc]
        intro d hd
        rw [List.mem_singleton.mp hd]
        exact hreply

/-- The pushes that a tenant sees are among those of the fleet. -/
theorem push_of_seen {es : List FleetEvent} {spec : SchemaSpec}
    (h : .push spec ∈ es.filterMap (see tenant)) : .push spec ∈ es := by
  obtain ⟨e, he, hsee⟩ := List.mem_filterMap.mp h
  cases e with
  | push spec' =>
      obtain ⟨-, heq⟩ := Option.ite_none_right_eq_some.mp hsee
      cases heq
      exact he
  | evict tenantID => cases (Option.ite_none_right_eq_some.mp hsee).2
  | packet cpu data metaGranted => cases (Option.ite_none_right_eq_some.mp hsee).2
  | deliverUpdate tenant' i => cases (Option.ite_none_right_eq_some.mp hsee).2
  | deliverFrame tenant' i => cases (Option.ite_none_right_eq_some.mp hsee).2

/-- A tenant's part, up to now: what was answered is right, and so will be the answer to what is in
flight; and every frame was answered, if no descriptor has more than 64 fields. -/
structure LaneDecodes (tenant : UInt32) (specs : Set SchemaSpec) (l : Lane) : Prop where
  fromPushed : FromPushed tenant specs l.world
  decoded : ∀ d ∈ l.delivered, DecodedAsStamped d
  answers : (∀ d ∈ pushedDescriptors tenant specs, FieldsFit d) → Answers l

/-- **One tenant.** -/
theorem lane_decodes (hver : VersionsDetermine tenant specs) {es : List Event} {l : Lane}
    (hes : ∀ spec, .push spec ∈ es → spec ∈ specs)
    (hrun : run (Lane.step tenant payload) Lane.init es = some l) :
    LaneDecodes tenant specs l := by
  have hpushes : EachStep (Lane.step tenant payload)
      (fun _ e _ => ∀ spec, e = .push spec → spec ∈ specs) Lane.init es := by
    refine eachStep_of_forall fun e he _ _ spec hspec => ?_
    rw [hspec] at he
    exact hes spec he
  have hnil : ∀ d ∈ Lane.init.delivered, DecodedAsStamped d ∧ d.reply.isSome := fun _ hd =>
    absurd hd List.not_mem_nil
  have hinit : LaneDecodes tenant specs Lane.init :=
    ⟨FromPushed.init, fun d hd => (hnil d hd).1, fun _ => ⟨rfl, fun d hd => (hnil d hd).2⟩⟩
  refine run_invariant (I := LaneDecodes tenant specs) ?_ hinit hpushes hrun
  rintro l e l' h hpush hstep
  obtain ⟨hworld, hnew⟩ := lane_step hstep
  have hdecoded : ∀ d ∈ l'.delivered, DecodedAsStamped d := by
    rw [hnew]
    exact List.forall_mem_append.mpr
      ⟨h.decoded, delivery_decoded (h.fromPushed.soundDecodes hver) e⟩
  exact ⟨h.fromPushed.step hpush hworld, hdecoded,
    fun hfit => (h.answers hfit).step h.fromPushed hfit hstep⟩

/-- A tenant whose versions determine its descriptors, among whatever others. -/
theorem tenant_decodes (hver : VersionsDetermine tenant specs) {es : List FleetEvent}
    (hes : ∀ spec, .push spec ∈ es → spec ∈ specs)
    (hrun : Fleet.run payload Fleet.init es = some f) :
    LaneDecodes tenant specs (f.lane tenant) := by
  have hpart := (shows_lane payload tenant).run hrun
  rw [lane_init] at hpart
  exact lane_decodes hver (fun spec hspec => hes spec (push_of_seen hspec)) hpart

/-- **A fleet decodes as stamped.**  Let any specifications be pushed for any tenants, with
versions that determine each tenant's descriptors.  In every run, whatever is evicted, delayed or
reordered, each frame that a component has answered was rejected or decoded with the descriptor
that the classifier stamped it under, and no frame in flight will be decoded otherwise.  If a
tenant's descriptors have at most 64 fields, every frame that was delivered to it was answered. -/
theorem fleet_decodes_as_stamped (payload : List UInt8 → List UInt8)
    (hver : ∀ tenant, VersionsDetermine tenant specs) {es : List FleetEvent} {f : Fleet}
    (hes : ∀ spec, .push spec ∈ es → spec ∈ specs)
    (hrun : Fleet.run payload Fleet.init es = some f) :
    ∀ tenant, (∀ d ∈ f.delivered tenant, DecodedAsStamped d) ∧ SoundDecodes (f.lane tenant).world ∧
      ((∀ d ∈ pushedDescriptors tenant specs, FieldsFit d) →
        ∀ d ∈ f.delivered tenant, d.reply.isSome) := by
  intro tenant
  have h := tenant_decodes (hver tenant) hes hrun
  exact ⟨h.decoded, h.fromPushed.soundDecodes (hver tenant), fun hfit => (h.answers hfit).replies⟩

/-! ### The simulated updates -/

/-- The specifications that the control plane pushes when the live updates of each tenant are
simulated, as many as `count` says. -/
def simulatedSpecs (count : UInt32 → ℕ) : Set SchemaSpec :=
  {spec | spec ∈ simulateLiveUpdates spec.tenantID (count spec.tenantID)}

theorem version_pushedValue (spec : SchemaSpec) :
    (readDescriptor (pushedValue spec)).version = spec.version := by
  rw [readDescriptor_pushedValue]
  exact (fillFields_header _ _ _).1

theorem fieldCount_pushedValue (spec : SchemaSpec) :
    (readDescriptor (pushedValue spec)).fieldCount = UInt16.ofNat spec.fields.length := by
  rw [readDescriptor_pushedValue]
  exact (fillFields_header _ _ _).2

/-- The simulated updates of a tenant are told apart by their versions, which begin with 1. -/
theorem simulated_versionsDetermine {count : UInt32 → ℕ} (hcount : ∀ tenant, count tenant < 2 ^ 63)
    (tenant : UInt32) : VersionsDetermine tenant (simulatedSpecs count) := by
  have hversion : ∀ d ∈ pushedDescriptors tenant (simulatedSpecs count), ∃ i < 2 ^ 63,
      d.version = UInt64.ofNat (i + 1) ∧ d = readDescriptor (pushedValue ⟨tenant,
        UInt64.ofNat (i + 1), baseFields.take (min (2 + i % 3 + 1) baseFields.length)⟩) := by
    rintro d ⟨spec, hspec, rfl, rfl⟩
    obtain ⟨i, hi, heq⟩ := List.mem_map.mp hspec
    refine ⟨i, (List.mem_range.mp hi).trans (hcount _), ?_, ?_⟩
    · rw [version_pushedValue, ← heq]
    · rw [heq]
  have hword : ∀ i < 2 ^ 63, (UInt64.ofNat (i + 1)).toNat = i + 1 := by
    intro i hi
    exact UInt64.toNat_ofNat_of_lt' (show i + 1 < 2 ^ 64 by omega)
  have hpos : ∀ d ∈ pushedDescriptors tenant (simulatedSpecs count),
      d.version ≠ emptySchema.version := by
    intro d hd heq
    obtain ⟨i, hi, hd, -⟩ := hversion d hd
    have hzero := hword i hi
    rw [← hd, heq] at hzero
    exact absurd hzero (Nat.succ_ne_zero i).symm
  rintro a (rfl | ha) b (rfl | hb) - hab
  · rfl
  · exact absurd hab.symm (hpos b hb)
  · exact absurd hab (hpos a ha)
  · obtain ⟨i, hi, hva, hia⟩ := hversion a ha
    obtain ⟨j, hj, hvb, hjb⟩ := hversion b hb
    have hij : i = j := by
      have hto := congrArg UInt64.toNat (hva.symm.trans (hab.trans hvb))
      rw [hword i hi, hword j hj] at hto
      omega
    rw [hia, hjb, hij]

/-- They have no more than four fields. -/
theorem simulated_fit (count : UInt32 → ℕ) (tenant : UInt32) :
    ∀ d ∈ pushedDescriptors tenant (simulatedSpecs count), FieldsFit d := by
  rintro d ⟨spec, hspec, rfl, rfl⟩
  obtain ⟨i, hi, heq⟩ := List.mem_map.mp hspec
  have hlength : spec.fields.length ≤ 4 := by
    rw [← heq]
    exact (List.length_take_le' _ _).trans (by decide)
  rw [FieldsFit, fieldCount_pushedValue, UInt16.toNat_ofNat_of_lt' (Nat.lt_of_le_of_lt hlength
    (by decide))]
  exact hlength.trans (by decide)

/-- **Simulated updates are always decoded as stamped**, for any number of tenants at once, any
number of updates of each, and any order of the pushes, packets and deliveries; and every frame
that is delivered is answered. -/
theorem simulated_fleet_decodes (payload : List UInt8 → List UInt8) {count : UInt32 → ℕ}
    (hcount : ∀ tenant, count tenant < 2 ^ 63) {es : List FleetEvent} {f : Fleet}
    (hes : ∀ spec, .push spec ∈ es → spec ∈ simulateLiveUpdates spec.tenantID (count spec.tenantID))
    (hrun : Fleet.run payload Fleet.init es = some f) :
    ∀ tenant, (∀ d ∈ f.delivered tenant, DecodedAsStamped d ∧ d.reply.isSome) ∧
      SoundDecodes (f.lane tenant).world := by
  intro tenant
  have hver := simulated_versionsDetermine hcount tenant
  have h : LaneDecodes tenant (simulatedSpecs count) (f.lane tenant) := tenant_decodes hver hes hrun
  exact ⟨fun d hd => ⟨h.decoded d hd, (h.answers (simulated_fit count tenant)).replies d hd⟩,
    h.fromPushed.soundDecodes hver⟩

/-- One update of every tenant. -/
def firstUpdates : Set SchemaSpec := simulatedSpecs fun _ => 1

theorem push_twoTenants {spec : SchemaSpec} (h : .push spec ∈ twoTenants) :
    spec ∈ simulateLiveUpdates spec.tenantID 1 := by
  simp only [twoTenants, List.mem_cons, FleetEvent.push.injEq, reduceCtorEq, List.not_mem_nil,
    or_false] at h
  rcases h with rfl | rfl <;> decide

theorem fleet_decodes_as_stamped_two :
    ∃ f, Fleet.run id Fleet.init twoTenants = some f ∧
      ∀ d ∈ f.delivered 7, DecodedAsStamped d := by
  obtain ⟨f, hf⟩ := run_twoTenants
  have hver : ∀ tenant, VersionsDetermine tenant firstUpdates :=
    simulated_versionsDetermine fun _ => by norm_num
  exact ⟨f, hf, (fleet_decodes_as_stamped id hver (fun _ => push_twoTenants) hf 7).1⟩

theorem simulated_fleet_decodes_two :
    ∃ f, Fleet.run id Fleet.init twoTenants = some f ∧
      ∀ d ∈ f.delivered 9, DecodedAsStamped d ∧ d.reply.isSome := by
  obtain ⟨f, hf⟩ := run_twoTenants
  have hcount : ∀ tenant : UInt32, (fun _ => 1 : UInt32 → ℕ) tenant < 2 ^ 63 := fun _ => by norm_num
  have hdecodes := simulated_fleet_decodes id hcount (fun _ => push_twoTenants) hf
  exact ⟨f, hf, (hdecodes 9).1⟩

/-! ### A fleet is as sound as its tenants -/

/-- Every fleet that can be reached with the given pushes decodes soundly for every tenant. -/
def FleetAlwaysSound (payload : List UInt8 → List UInt8) (specs : Set SchemaSpec) : Prop :=
  ∀ es f, (∀ spec, .push spec ∈ es → spec ∈ specs) →
    Fleet.run payload Fleet.init es = some f → ∀ tenant, SoundDecodes (f.lane tenant).world

/-- The system of a tenant inside the fleet, with the whole map. -/
def Fleet.world (tenant : UInt32) (f : Fleet) : World :=
  ⟨f.schemaMap, f.component tenant, f.updates tenant, f.frames tenant⟩

/-- A tenant's event as the fleet knows it; its packets arrive on CPU 0. -/
def embed (tenant : UInt32) : Event → FleetEvent
  | .push spec => .push spec
  | .evict tenantID => .evict tenantID
  | .packet data metaGranted => .packet 0 data metaGranted
  | .deliverUpdate i => .deliverUpdate tenant i
  | .deliverFrame i => .deliverFrame tenant i

theorem hosts_packet (f : Fleet) (data : List UInt8) (metaGranted : Bool) :
    (f.world tenant).step tenant payload (.packet data metaGranted)
      = some ((f.classified payload 0 data
          (nexuscoreClassify f.schemaMap metaGranted data)).world tenant) := by
  have hmap : (f.world tenant).schemaMap = f.schemaMap := rfl
  cases hstamp : (nexuscoreClassify f.schemaMap metaGranted data).stamp with
  | none =>
      simp only [World.step, Fleet.classified, hmap, hstamp]
      rfl
  | some mt =>
      obtain ⟨value, hvalue, -⟩ := stamp_of_classify hstamp
      simp only [World.step, Fleet.classified, hmap, hstamp]
      by_cases ht : mt.tenantId = tenant
      · subst ht
        simp only [if_true, Fleet.world, hvalue, Function.update_self]
      · simp only [if_neg ht, Fleet.world, hvalue, Function.update_of_ne (Ne.symm ht)]

theorem hosts_world (payload : List UInt8 → List UInt8) (tenant : UInt32) :
    Hosts (Fleet.step payload) (World.step tenant payload) (Fleet.world tenant) (embed tenant) := by
  intro f e w hstep
  cases e with
  | push spec =>
      cases hstep
      refine ⟨_, rfl, ?_⟩
      by_cases ht : spec.tenantID = tenant
      · subst ht
        simp only [Fleet.world, if_true, Function.update_self]
      · simp only [Fleet.world, if_neg ht, Function.update_of_ne (Ne.symm ht)]
  | evict tenantID =>
      cases hstep
      exact ⟨_, rfl, rfl⟩
  | packet data metaGranted =>
      rw [hosts_packet] at hstep
      cases hstep
      exact ⟨_, rfl, rfl⟩
  | deliverUpdate i =>
      rw [World.step] at hstep
      cases hraw : (f.updates tenant)[i]? with
      | none =>
          simp only [Fleet.world, hraw] at hstep
          cases hstep
      | some raw =>
          simp only [Fleet.world, hraw] at hstep
          cases hstep
          refine ⟨_, by rw [embed, Fleet.step, hraw], ?_⟩
          simp only [Fleet.world, Function.update_self]
  | deliverFrame i =>
      rw [World.step] at hstep
      cases hs : (f.frames tenant)[i]? with
      | none =>
          simp only [Fleet.world, hs] at hstep
          cases hstep
      | some s =>
          simp only [Fleet.world, hs] at hstep
          cases hstep
          refine ⟨_, by rw [embed, Fleet.step, hs], ?_⟩
          simp only [Fleet.world, Function.update_self]

/-- **A fleet decodes soundly if and only if each of its tenants does on its own.** -/
theorem fleet_sound_iff (payload : List UInt8 → List UInt8) (specs : Set SchemaSpec) :
    FleetAlwaysSound payload specs ↔ ∀ tenant, AlwaysSound tenant payload specs := by
  constructor
  · intro h tenant es w hes hw
    have hw : run (World.step tenant payload) (Fleet.init.world tenant) es = some w := hw
    obtain ⟨f, hf, rfl⟩ := Hosts.run (hosts_world payload tenant) hw
    refine h (es.map (embed tenant)) f ?_ hf tenant
    intro spec hspec
    obtain ⟨e, he, heq⟩ := List.mem_map.mp hspec
    cases e <;> cases heq
    exact hes spec he
  · intro h es f hes hf tenant
    have hpart := (shows_lane payload tenant).run hf
    rw [lane_init] at hpart
    have hworld : Shows (Lane.step tenant payload) (World.step tenant payload) Lane.world some :=
      ⟨fun hstep he => by cases he; exact (lane_step hstep).1, nofun⟩
    refine h tenant (es.filterMap (see tenant)) _ (fun spec hspec =>
      hes spec (push_of_seen hspec)) ?_
    have hrun := hworld.run hpart
    rwa [List.filterMap_some] at hrun

end NexusCore.Schema
