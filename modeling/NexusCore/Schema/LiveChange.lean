import NexusCore.Foundation.Transition
import NexusCore.Schema.Classifier
import NexusCore.Schema.Traps

/-!
# Changing a schema while frames are in flight

Three parties follow three rules: the control plane overwrites the tenant's map entry, the
classifier stamps each frame with the version it finds there, and the component installs a
descriptor when its version is newer.  Pushed descriptors and stamped frames travel to the
component unchanged, in any order and with any delay.  A component that has trapped takes no
more calls, and what is forwarded to it is lost.

A `World` is the state of all of it.  Each stamped frame also carries, for the statement
only, the map value that it was stamped under.  `SoundDecodes` says that whichever frame in
flight reaches the component now, `process_frame` counts it as an error or decodes it with
the descriptor it was stamped under; `live_change_sound_iff` says for which pushed
specifications that holds in every reachable world.
-/

namespace NexusCore.Schema

open Foundation.Machine Foundation.Transition

/-- A frame on its way to the component. -/
structure StampedFrame where
  frame : List UInt8
  version : UInt64
  /-- the map value at the moment of the stamp -/
  stampedUnder : List UInt8

/-- The schema map, the component of one tenant, and what is in flight to it. -/
structure World where
  schemaMap : SchemaMap
  /-- `none` after a trap -/
  component : Option Component
  updates : List (List UInt8)
  frames : List StampedFrame

def World.init : World := ⟨fun _ => none, some Component.init, [], []⟩

inductive Event
  /-- the control plane pushes a specification -/
  | push (spec : SchemaSpec)
  /-- an entry leaves the map: a deletion, or an eviction of the least recently used one -/
  | evict (tenantID : UInt32)
  /-- a packet arrives at the classifier -/
  | packet (data : List UInt8) (metaGranted : Bool)
  /-- an update in flight reaches the component -/
  | deliverUpdate (i : ℕ)
  /-- a stamped frame in flight reaches the component -/
  | deliverFrame (i : ℕ)

/-- What an instance returns to a frame, and its state then: nothing if `process_frame` traps, or
if the instance has trapped before. -/
def answerFrame (component : Option Component) (f : StampedFrame) :
    Option (List FieldValue × Component) :=
  component.bind fun c => (processFrame c f.frame f.version).toOption

/-- One step of the system for a tenant.  `payload` is the part of a packet that the host
hands to the component as the frame. -/
def World.step (tenant : UInt32) (payload : List UInt8 → List UInt8) (w : World) :
    Event → Option World
  | .push spec => some
      { w with
        schemaMap := pushSchema w.schemaMap spec
        updates := if spec.tenantID = tenant then w.updates ++ [pushedValue spec] else w.updates }
  | .evict tenantID => some { w with schemaMap := Function.update w.schemaMap tenantID none }
  | .packet data metaGranted =>
      match (nexuscoreClassify w.schemaMap metaGranted data).stamp with
      | none => some w
      | some mt =>
          if mt.tenantId = tenant then
            match w.schemaMap tenant with
            | none => some w
            | some value => some
                { w with frames := w.frames ++ [⟨payload data, mt.schemaVersion, value⟩] }
          else some w
  | .deliverUpdate i =>
      match w.updates[i]? with
      | none => none
      | some raw => some
          { w with
            updates := w.updates.eraseIdx i
            component := w.component.map fun c => (applySchemaUpdate c raw).2 }
  | .deliverFrame i =>
      match w.frames[i]? with
      | none => none
      | some f => some
          { w with
            frames := w.frames.eraseIdx i
            component := (answerFrame w.component f).map Prod.snd }

/-- A run of the system. -/
def World.run (tenant : UInt32) (payload : List UInt8 → List UInt8) :
    World → List Event → Option World :=
  Foundation.Transition.run (World.step tenant payload)

/-- Whichever frame in flight comes next: if `process_frame` returns and does not count an error,
the descriptor it has decoded with is the one that the frame was stamped under, and the fields
are those of that descriptor. -/
def SoundDecodes (w : World) : Prop :=
  ∀ f ∈ w.frames, ∀ c vs c', w.component = some c →
    processFrame c f.frame f.version = .ok (vs, c') → c'.errors = c.errors →
    c.schema = readDescriptor f.stampedUnder ∧
      decodeFields (readDescriptor f.stampedUnder) f.frame
        (readDescriptor f.stampedUnder).fieldCount.toNat 0 = .ok vs

/-- The descriptors that a set of specifications can bring to a tenant. -/
def pushedDescriptors (tenant : UInt32) (specs : Set SchemaSpec) : Set RawSchemaDescriptor :=
  {d | ∃ spec ∈ specs, spec.tenantID = tenant ∧ d = readDescriptor (pushedValue spec)}

/-- A version tells apart the descriptors that a tenant may get, the empty one included, as far
as they can be decoded with: beyond 64 fields the component traps. -/
def VersionsDetermine (tenant : UInt32) (specs : Set SchemaSpec) : Prop :=
  ∀ a ∈ insert emptySchema (pushedDescriptors tenant specs),
    ∀ b ∈ insert emptySchema (pushedDescriptors tenant specs),
      a.fieldCount.toNat ≤ 64 → a.version = b.version → a = b

/-! ### Frames are decoded as stamped -/

variable {tenant : UInt32} {payload : List UInt8 → List UInt8} {specs : Set SchemaSpec}
  {w w' : World}

/-- Everything in the system comes from a pushed descriptor. -/
structure FromPushed (tenant : UInt32) (specs : Set SchemaSpec) (w : World) : Prop where
  map : ∀ value, w.schemaMap tenant = some value →
    readDescriptor value ∈ pushedDescriptors tenant specs
  updates : ∀ raw ∈ w.updates, readDescriptor raw ∈ pushedDescriptors tenant specs
  component : ∀ c, w.component = some c →
    c.schema ∈ insert emptySchema (pushedDescriptors tenant specs)
  frames : ∀ f ∈ w.frames, readDescriptor f.stampedUnder ∈ pushedDescriptors tenant specs ∧
    f.version = (readDescriptor f.stampedUnder).version

theorem FromPushed.init : FromPushed tenant specs World.init where
  map := by
    intro value h
    cases h
  updates := by
    intro raw h
    cases h
  component := by
    rintro c ⟨⟩
    exact Set.mem_insert _ _
  frames := by
    intro f h
    cases h

theorem FromPushed.push (h : FromPushed tenant specs w) {spec : SchemaSpec} (hspec : spec ∈ specs)
    (hw : w.step tenant payload (.push spec) = some w') : FromPushed tenant specs w' := by
  cases hw
  have hnew : spec.tenantID = tenant →
      readDescriptor (pushedValue spec) ∈ pushedDescriptors tenant specs := fun ht =>
    ⟨spec, hspec, ht, rfl⟩
  refine ⟨?_, ?_, h.component, h.frames⟩
  · intro value hvalue
    by_cases ht : tenant = spec.tenantID
    · have hput : pushSchema w.schemaMap spec tenant = some (pushedValue spec) := by
        rw [ht]
        exact Function.update_self _ _ _
      cases hput.symm.trans hvalue
      exact hnew ht.symm
    · have hkeep : pushSchema w.schemaMap spec tenant = w.schemaMap tenant :=
        Function.update_of_ne ht _ _
      exact h.map value (hkeep.symm.trans hvalue)
  · intro raw hraw
    by_cases ht : spec.tenantID = tenant
    · simp only [if_pos ht] at hraw
      rcases List.mem_append.mp hraw with hold | hlast
      · exact h.updates raw hold
      · rw [List.mem_singleton.mp hlast]
        exact hnew ht
    · simp only [if_neg ht] at hraw
      exact h.updates raw hraw

theorem FromPushed.evict (h : FromPushed tenant specs w) {tenantID : UInt32}
    (hw : w.step tenant payload (.evict tenantID) = some w') : FromPushed tenant specs w' := by
  cases hw
  refine ⟨?_, h.updates, h.component, h.frames⟩
  intro value hvalue
  by_cases ht : tenant = tenantID
  · have hgone : Function.update w.schemaMap tenantID none tenant = none := by
      rw [ht]
      exact Function.update_self _ _ _
    cases hgone.symm.trans hvalue
  · have hkeep : Function.update w.schemaMap tenantID none tenant = w.schemaMap tenant :=
      Function.update_of_ne ht _ _
    exact h.map value (hkeep.symm.trans hvalue)

theorem FromPushed.packet (h : FromPushed tenant specs w) {data : List UInt8} {metaGranted : Bool}
    (hw : w.step tenant payload (.packet data metaGranted) = some w') :
    FromPushed tenant specs w' := by
  rw [World.step] at hw
  cases hstamp : (nexuscoreClassify w.schemaMap metaGranted data).stamp with
  | none =>
      rw [hstamp] at hw
      cases hw
      exact h
  | some mt =>
      rw [hstamp] at hw
      obtain ⟨value, hvalue, hversion⟩ := stamp_of_classify hstamp
      by_cases ht : mt.tenantId = tenant
      · rw [ht] at hvalue
        simp only [if_pos ht, hvalue] at hw
        cases hw
        refine ⟨h.map, h.updates, h.component, ?_⟩
        intro f hf
        rcases List.mem_append.mp hf with hold | hlast
        · exact h.frames f hold
        · rw [List.mem_singleton.mp hlast]
          exact ⟨h.map value hvalue, hversion⟩
      · simp only [if_neg ht] at hw
        cases hw
        exact h

theorem FromPushed.deliverUpdate (h : FromPushed tenant specs w) {i : ℕ}
    (hw : w.step tenant payload (.deliverUpdate i) = some w') : FromPushed tenant specs w' := by
  rw [World.step] at hw
  cases hi : w.updates[i]? with
  | none =>
      rw [hi] at hw
      cases hw
  | some raw =>
      rw [hi] at hw
      cases hw
      refine ⟨h.map, ?_, ?_, h.frames⟩
      · exact fun raw' hraw' => h.updates raw' (List.mem_of_mem_eraseIdx hraw')
      · intro c' hc'
        obtain ⟨c, hc, rfl⟩ := Option.map_eq_some_iff.mp hc'
        rcases applySchemaUpdate_cases c raw with ⟨-, heq⟩ | ⟨-, -, heq⟩ | ⟨-, -, heq⟩
        · rw [heq]
          exact h.component c hc
        · rw [heq]
          exact h.component c hc
        · rw [heq]
          exact Set.mem_insert_of_mem _ (h.updates raw (List.mem_of_getElem? hi))

/-- **What `process_frame` returns**: the fields that the current descriptor has in the frame,
counted as processed, or nothing, counted as an error. -/
theorem processFrame_ok {c c' : Component} {frame : List UInt8} {schemaVersion : UInt64}
    {vs : List FieldValue} (h : processFrame c frame schemaVersion = .ok (vs, c')) :
    (schemaVersion = c.schema.version ∧
      decodeFields c.schema frame c.schema.fieldCount.toNat 0 = .ok vs ∧
      c' = { c with processed := c.processed + 1 }) ∨
    (schemaVersion ≠ c.schema.version ∧ vs = [] ∧ c' = { c with errors := c.errors + 1 }) := by
  unfold processFrame at h
  by_cases hver : schemaVersion = c.schema.version
  · rw [if_neg (not_not.mpr hver)] at h
    obtain ⟨fields, hfields, hok⟩ := bind_eq_ok.mp h
    cases hok
    exact Or.inl ⟨hver, hfields, rfl⟩
  · rw [if_pos hver] at h
    cases h
    exact Or.inr ⟨hver, rfl, rfl⟩

/-- A frame that is not counted as an error was decoded. -/
theorem processFrame_decoded {c c' : Component} {frame : List UInt8} {schemaVersion : UInt64}
    {vs : List FieldValue} (h : processFrame c frame schemaVersion = .ok (vs, c'))
    (herrors : c'.errors = c.errors) : schemaVersion = c.schema.version ∧
      decodeFields c.schema frame c.schema.fieldCount.toNat 0 = .ok vs ∧ FieldsFit c.schema := by
  rcases processFrame_ok h with ⟨hver, hfields, -⟩ | ⟨-, -, rfl⟩
  · refine ⟨hver, hfields, ?_⟩
    by_contra hfit
    rw [hver, processFrame_overrun hfit] at h
    cases h
  · exact absurd (UInt64.add_eq_left.mp herrors) (by decide)

theorem answerFrame_eq_some {component : Option Component} {f : StampedFrame}
    {vs : List FieldValue} {c' : Component} :
    answerFrame component f = some (vs, c') ↔
      ∃ c, component = some c ∧ processFrame c f.frame f.version = .ok (vs, c') := by
  rw [answerFrame, Option.bind_eq_some_iff]
  refine exists_congr fun c => and_congr_right fun _ => ?_
  cases processFrame c f.frame f.version with
  | error e => exact iff_of_false nofun nofun
  | ok r => simp only [Except.toOption, Option.some.injEq, Except.ok.injEq]

theorem FromPushed.deliverFrame (h : FromPushed tenant specs w) {i : ℕ}
    (hw : w.step tenant payload (.deliverFrame i) = some w') : FromPushed tenant specs w' := by
  rw [World.step] at hw
  cases hi : w.frames[i]? with
  | none =>
      rw [hi] at hw
      cases hw
  | some f =>
      rw [hi] at hw
      cases hw
      refine ⟨h.map, h.updates, ?_, fun f' hf' => h.frames f' (List.mem_of_mem_eraseIdx hf')⟩
      intro c' hc'
      obtain ⟨⟨vs, c₁⟩, hanswer, rfl⟩ := Option.map_eq_some_iff.mp hc'
      obtain ⟨c, hc, hp⟩ := answerFrame_eq_some.mp hanswer
      rcases processFrame_ok hp with ⟨-, -, rfl⟩ | ⟨-, -, rfl⟩
      · exact h.component c hc
      · exact h.component c hc

/-- A packet does not reach the component. -/
theorem component_packet {data : List UInt8} {metaGranted : Bool}
    (hw : w.step tenant payload (.packet data metaGranted) = some w') :
    w'.component = w.component := by
  rw [World.step] at hw
  split at hw
  · cases hw
    rfl
  · split at hw
    · split at hw <;> cases hw <;> rfl
    · cases hw
      rfl

theorem component_deliverUpdate {i : ℕ}
    (hw : w.step tenant payload (.deliverUpdate i) = some w') :
    ∃ raw, w.updates[i]? = some raw ∧
      w'.component = w.component.map fun c => (applySchemaUpdate c raw).2 := by
  rw [World.step] at hw
  cases hi : w.updates[i]? with
  | none =>
      rw [hi] at hw
      cases hw
  | some raw =>
      rw [hi] at hw
      cases hw
      exact ⟨raw, rfl, rfl⟩

theorem component_deliverFrame {i : ℕ}
    (hw : w.step tenant payload (.deliverFrame i) = some w') :
    ∃ f, w.frames[i]? = some f ∧ w'.component = (answerFrame w.component f).map Prod.snd := by
  rw [World.step] at hw
  cases hi : w.frames[i]? with
  | none =>
      rw [hi] at hw
      cases hw
  | some f =>
      rw [hi] at hw
      cases hw
      exact ⟨f, rfl, rfl⟩

/-- **One step keeps the system to the pushed descriptors.** -/
theorem FromPushed.step (h : FromPushed tenant specs w) {e : Event}
    (he : ∀ spec, e = .push spec → spec ∈ specs) (hw : w.step tenant payload e = some w') :
    FromPushed tenant specs w' := by
  cases e with
  | push spec => exact h.push (he spec rfl) hw
  | evict tenantID => exact h.evict hw
  | packet data metaGranted => exact h.packet hw
  | deliverUpdate i => exact h.deliverUpdate hw
  | deliverFrame i => exact h.deliverFrame hw

theorem FromPushed.run (h : FromPushed tenant specs w) {es : List Event}
    (hes : ∀ spec, .push spec ∈ es → spec ∈ specs) (hw : World.run tenant payload w es = some w') :
    FromPushed tenant specs w' := by
  have hpushes : EachStep (World.step tenant payload)
      (fun _ e _ => ∀ spec, e = .push spec → spec ∈ specs) w es := by
    refine eachStep_of_forall fun e he _ _ spec hspec => ?_
    rw [hspec] at he
    exact hes spec he
  refine run_invariant (I := FromPushed tenant specs) ?_ h hpushes hw
  exact fun w e w' h hpush hstep => h.step hpush hstep

/-- Versions that determine descriptors make every decode sound. -/
theorem FromPushed.soundDecodes (h : FromPushed tenant specs w)
    (hdet : VersionsDetermine tenant specs) : SoundDecodes w := by
  intro f hf c vs c' hc hp herrors
  obtain ⟨hmem, hstamp⟩ := h.frames f hf
  obtain ⟨hver, hfields, hfit⟩ := processFrame_decoded hp herrors
  have hsame : c.schema = readDescriptor f.stampedUnder :=
    hdet _ (h.component c hc) _ (Set.mem_insert_of_mem _ hmem) hfit (hver.symm.trans hstamp)
  rw [hsame] at hfields
  exact ⟨hsame, hfields⟩

/-! ### Two descriptors of one version -/

/-- The frame of a packet that was stamped under a pushed specification. -/
def frameOf (tenant : UInt32) (payload : List UInt8 → List UInt8) (spec : SchemaSpec) :
    StampedFrame :=
  ⟨payload (tenantPacket tenant), storedVersion (pushedValue spec), pushedValue spec⟩

/-- After a push to the tenant, the next packet is stamped under the pushed value. -/
theorem run_push_packet (w : World) {spec : SchemaSpec} (ht : spec.tenantID = tenant) :
    World.run tenant payload w [.push spec, .packet (tenantPacket tenant) true] = some
      { schemaMap := pushSchema w.schemaMap spec
        component := w.component
        updates := w.updates ++ [pushedValue spec]
        frames := w.frames ++ [frameOf tenant payload spec] } := by
  have hput : pushSchema w.schemaMap spec tenant = some (pushedValue spec) := by
    rw [← ht]
    exact Function.update_self _ _ _
  have hstamp : (nexuscoreClassify (pushSchema w.schemaMap spec) true (tenantPacket tenant)).stamp
      = some ⟨storedVersion (pushedValue spec), tenant, 0⟩ := by
    simp only [classify_tenantPacket, stampTenant, hput]
    rfl
  simp only [World.run, Foundation.Transition.run, World.step, Option.bind_some, if_pos ht, hstamp,
    hput, if_true, frameOf]

/-- A pushed descriptor that reaches a fresh component is installed, unless its version is 0. -/
theorem run_push_deliver (payload : List UInt8 → List UInt8) {spec : SchemaSpec}
    (ht : spec.tenantID = tenant) (hpos : 0 < versionOf (readDescriptor (pushedValue spec))) :
    ∃ w c, World.run tenant payload World.init [.push spec, .deliverUpdate 0] = some w ∧
      w.component = some c ∧ c.schema = readDescriptor (pushedValue spec) := by
  have hdesc : IsDescriptor (pushedValue spec) := Nat.le_of_eq (pushedValue_length spec).symm
  have hrun : World.run tenant payload World.init [.push spec, .deliverUpdate 0] = some
      { schemaMap := pushSchema World.init.schemaMap spec
        component := some (applySchemaUpdate Component.init (pushedValue spec)).2
        updates := []
        frames := [] } := by
    simp only [World.run, Foundation.Transition.run, World.step, Option.bind_some, if_pos ht]
    rfl
  refine ⟨_, _, hrun, rfl, ?_⟩
  rcases applySchemaUpdate_cases Component.init (pushedValue spec) with
    ⟨hbad, -⟩ | ⟨-, hle, -⟩ | ⟨-, -, heq⟩
  · exact absurd hdesc hbad
  · exact absurd hpos (Nat.not_lt.mpr hle)
  · exact congrArg (fun r => r.2.schema) heq

/-- Every world that can be reached with the given pushes decodes soundly. -/
def AlwaysSound (tenant : UInt32) (payload : List UInt8 → List UInt8) (specs : Set SchemaSpec) :
    Prop :=
  ∀ es w, (∀ spec, .push spec ∈ es → spec ∈ specs) →
    World.run tenant payload World.init es = some w → SoundDecodes w

/-- A component that holds a descriptor of at most 64 fields decodes the frames of the next
pushed descriptor of this version with it. -/
theorem AlwaysSound.eq_of_version (h : AlwaysSound tenant payload specs) {es : List Event}
    (hes : ∀ spec, .push spec ∈ es → spec ∈ specs)
    (hw : World.run tenant payload World.init es = some w) {c : Component}
    (hc : w.component = some c) (hfit : FieldsFit c.schema) {spec : SchemaSpec}
    (hspec : spec ∈ specs) (ht : spec.tenantID = tenant)
    (hver : c.schema.version = (readDescriptor (pushedValue spec)).version) :
    c.schema = readDescriptor (pushedValue spec) := by
  have hrun : World.run tenant payload World.init
      (es ++ [.push spec, .packet (tenantPacket tenant) true])
        = World.run tenant payload w [.push spec, .packet (tenantPacket tenant) true] := by
    rw [World.run, run_append]
    show (World.run tenant payload World.init es).bind _ = _
    rw [hw]
    rfl
  rw [run_push_packet w ht] at hrun
  have hsound := h _ _ ?_ hrun
  · -- the frame is of the version that is held, so it is decoded
    obtain ⟨vs, hvs, -⟩ := decodeFields_returns c.schema (payload (tenantPacket tenant))
      (k := c.schema.fieldCount.toNat) (i := 0) (by rw [Nat.zero_add]; exact hfit)
    have hp : processFrame c (payload (tenantPacket tenant)) (storedVersion (pushedValue spec))
        = .ok (vs, { c with processed := c.processed + 1 }) := by
      have hsame : ¬ storedVersion (pushedValue spec) ≠ c.schema.version := not_not.mpr hver.symm
      rw [processFrame, if_neg hsame, hvs]
      rfl
    exact (hsound (frameOf tenant payload spec) (List.mem_append_right _ List.mem_cons_self)
      c vs _ hc hp rfl).1
  intro spec' hspec'
  rcases List.mem_append.mp hspec' with hold | hnew
  · exact hes spec' hold
  · rcases List.mem_cons.mp hnew with heq | hnew
    · cases heq
      exact hspec
    · cases List.mem_singleton.mp hnew

/-- **A live schema change never mis-decodes exactly when versions determine descriptors**: among
the descriptors of the specifications that may be pushed for the tenant, together with the
empty schema of version 0 that the component starts with, none of at most 64 fields has the
version of another. -/
theorem live_change_sound_iff (tenant : UInt32) (payload : List UInt8 → List UInt8)
    (specs : Set SchemaSpec) :
    AlwaysSound tenant payload specs ↔ VersionsDetermine tenant specs := by
  constructor
  · intro hsound
    -- the empty schema is installed from the start
    have hempty : ∀ b ∈ pushedDescriptors tenant specs, emptySchema.version = b.version →
        emptySchema = b := by
      rintro b ⟨spec, hspec, ht, rfl⟩ hver
      exact @AlwaysSound.eq_of_version _ _ _ _ hsound [] (fun _ h => by cases h) rfl
        Component.init rfl (Nat.zero_le _) _ hspec ht hver
    rintro a (rfl | ha) b (rfl | hb) hfit hver
    · rfl
    · exact hempty b hb hver
    · exact (hempty a ha hver.symm).symm
    · by_cases hzero : versionOf a = 0
      · have ha₀ : emptySchema.version = a.version := UInt64.toNat_inj.mp hzero.symm
        rw [← hempty a ha ha₀, ← hempty b hb (ha₀.trans hver)]
      · obtain ⟨spec, hspec, ht, rfl⟩ := ha
        obtain ⟨w, c, hw, hc, hschema⟩ := run_push_deliver payload ht (Nat.pos_of_ne_zero hzero)
        obtain ⟨spec', hspec', ht', rfl⟩ := hb
        rw [← hschema] at hver hfit ⊢
        refine hsound.eq_of_version ?_ hw hc hfit hspec' ht' hver
        intro spec₁ hmem
        rcases List.mem_cons.mp hmem with heq | hmem
        · cases heq
          exact hspec
        · cases List.mem_singleton.mp hmem
  · intro hdet es w hes hw
    exact (FromPushed.init.run hes hw).soundDecodes hdet

/-- The demonstration script pushes two descriptors of version 1 for tenant 1001: the example
schema, then the first of the simulated updates. -/
theorem live_change_misdecodes :
    ¬ ∀ payload, AlwaysSound 1001 payload
      {spec | spec = exampleSchema ∨ spec ∈ simulateLiveUpdates 1001 5} := by
  intro hsound
  let simulated : SchemaSpec := ⟨1001, 1, baseFields.take 3⟩
  have hmem : simulated ∈ simulateLiveUpdates 1001 5 := by decide +kernel
  have hpos : 0 < versionOf (readDescriptor (pushedValue exampleSchema)) := by decide +kernel
  have htenant : exampleSchema.tenantID = 1001 := rfl
  obtain ⟨w, c, hw, hc, hschema⟩ := run_push_deliver id htenant hpos
  have hsame : c.schema = readDescriptor (pushedValue simulated) := by
    refine (hsound id).eq_of_version ?_ hw hc ?_ (Or.inr hmem) rfl ?_
    · intro spec hspec
      rcases List.mem_cons.mp hspec with heq | hspec
      · cases heq
        exact Or.inl rfl
      · cases List.mem_singleton.mp hspec
    · rw [hschema]
      exact Nat.le_of_ble_eq_true (by decide +kernel)
    · rw [hschema]
      decide +kernel
  have hcount : (readDescriptor (pushedValue exampleSchema)).fieldCount
      = (readDescriptor (pushedValue simulated)).fieldCount := by rw [← hschema, hsame]
  exact absurd hcount (by decide +kernel)

end NexusCore.Schema
