import NexusCore.Schema.Component
import NexusCore.Foundation.Newest

/-!
# Schema updates converge

To its schema the component is a register that keeps the newest descriptor
(`deliverAll_schema`), so the order and the repetition of the updates do not matter: the
final schema is the descriptor of greatest version (`schema_updates_converge`).  Along the
way the version never falls, and the update counter never exceeds it (`CountsVersions`), so
counting an accepted update never wraps.
-/

namespace NexusCore.Schema

open Foundation.Machine Foundation.Newest

/-- The number of a descriptor's version. -/
def versionOf (d : RawSchemaDescriptor) : ℕ := d.version.toNat

/-- Long enough to be read as a descriptor. -/
def IsDescriptor (raw : List UInt8) : Prop := descriptorSize ≤ raw.length

instance : DecidablePred IsDescriptor := fun raw =>
  inferInstanceAs (Decidable (descriptorSize ≤ raw.length))

/-- Updates delivered one after another. -/
def deliverAll : Component → List (List UInt8) → Component
  | c, [] => c
  | c, raw :: raws => deliverAll (applySchemaUpdate c raw).2 raws

/-- The descriptors among the messages. -/
def descriptors (raws : List (List UInt8)) : List RawSchemaDescriptor :=
  (raws.filter fun raw => decide (IsDescriptor raw)).map readDescriptor

theorem mem_descriptors {raws : List (List UInt8)} {d : RawSchemaDescriptor} :
    d ∈ descriptors raws ↔ ∃ raw ∈ raws, IsDescriptor raw ∧ readDescriptor raw = d := by
  simp only [descriptors, List.mem_map, List.mem_filter, decide_eq_true_eq, and_assoc]

theorem descriptors_singleton {raw : List UInt8} (h : IsDescriptor raw) :
    descriptors [raw] = [readDescriptor raw] := by
  rw [descriptors, List.filter_cons_of_pos (by simpa using h), List.filter_nil,
    List.map_singleton]

theorem descriptors_singleton_of_not {raw : List UInt8} (h : ¬ IsDescriptor raw) :
    descriptors [raw] = [] := by
  rw [descriptors, List.filter_cons_of_neg (by simpa using h), List.filter_nil, List.map_nil]

/-! ### One update -/

variable {c : Component} {raw : List UInt8}

/-- **What an update does**: it is malformed, stale, or installed. -/
theorem applySchemaUpdate_cases (c : Component) (raw : List UInt8) :
    (¬ IsDescriptor raw ∧ applySchemaUpdate c raw = (.invalidDescriptor, c)) ∨
    (IsDescriptor raw ∧ versionOf (readDescriptor raw) ≤ versionOf c.schema ∧
      applySchemaUpdate c raw = (.staleUpdate, c)) ∨
    (IsDescriptor raw ∧ versionOf c.schema < versionOf (readDescriptor raw) ∧
      applySchemaUpdate c raw = (.ok, { c with
        schema := readDescriptor raw
        schemaUpdates := c.schemaUpdates + 1 })) := by
  unfold applySchemaUpdate
  by_cases hlen : raw.length < descriptorSize
  · exact Or.inl ⟨Nat.not_le.mpr hlen, if_pos hlen⟩
  · have hdesc : IsDescriptor raw := Nat.not_lt.mp hlen
    rw [if_neg hlen]
    by_cases hver : (readDescriptor raw).version ≤ c.schema.version
    · exact Or.inr (Or.inl ⟨hdesc, UInt64.le_iff_toNat_le.mp hver, if_pos hver⟩)
    · refine Or.inr (Or.inr ⟨hdesc, ?_, if_neg hver⟩)
      exact Nat.not_le.mp fun hle => hver (UInt64.le_iff_toNat_le.mpr hle)

/-- An update offers its descriptor to the schema register. -/
theorem applySchemaUpdate_schema (c : Component) (raw : List UInt8) :
    (applySchemaUpdate c raw).2.schema
      = newest versionOf c.schema (descriptors [raw]) := by
  rcases applySchemaUpdate_cases c raw with ⟨hbad, h⟩ | ⟨hdesc, hle, h⟩ | ⟨hdesc, hlt, h⟩
  · rw [h, descriptors_singleton_of_not hbad]
    rfl
  · rw [h, descriptors_singleton hdesc]
    exact (if_pos hle).symm
  · rw [h, descriptors_singleton hdesc]
    exact (if_neg (Nat.not_le.mpr hlt)).symm

/-- **The component refines the register.** -/
theorem deliverAll_schema (c : Component) (raws : List (List UInt8)) :
    (deliverAll c raws).schema = newest versionOf c.schema (descriptors raws) := by
  induction raws generalizing c with
  | nil => rfl
  | cons raw raws ih =>
      have hsplit : descriptors (raw :: raws) = descriptors [raw] ++ descriptors raws := by
        rw [descriptors, descriptors, descriptors, ← List.map_append, ← List.filter_append,
          List.singleton_append]
      rw [deliverAll, ih, applySchemaUpdate_schema, hsplit, newest, newest, newest,
        List.foldl_append]

/-! ### The counter -/

/-- No more updates were counted than versions passed. -/
def CountsVersions (c : Component) : Prop := c.schemaUpdates.toNat ≤ versionOf c.schema

theorem CountsVersions.init : CountsVersions Component.init := Nat.le_refl _

/-- Counting an accepted update does not wrap. -/
theorem CountsVersions.toNat_succ (h : CountsVersions c) {version : UInt64}
    (hlt : versionOf c.schema < version.toNat) :
    (c.schemaUpdates + 1).toNat = c.schemaUpdates.toNat + 1 := by
  have hmax := version.toNat_lt
  unfold CountsVersions at h
  exact toNat_add64_of_lt (by
    show c.schemaUpdates.toNat + 1 < 2 ^ 64
    omega)

theorem CountsVersions.apply (h : CountsVersions c) (raw : List UInt8) :
    CountsVersions (applySchemaUpdate c raw).2 := by
  rcases applySchemaUpdate_cases c raw with ⟨-, heq⟩ | ⟨-, -, heq⟩ | ⟨-, hlt, heq⟩
  · rw [heq]
    exact h
  · rw [heq]
    exact h
  · rw [heq]
    show (c.schemaUpdates + 1).toNat ≤ versionOf (readDescriptor raw)
    rw [h.toNat_succ hlt]
    exact Nat.succ_le_of_lt (Nat.lt_of_le_of_lt h hlt)

theorem CountsVersions.of_deliverAll (h : CountsVersions c) (raws : List (List UInt8)) :
    CountsVersions (deliverAll c raws) := by
  induction raws generalizing c with
  | nil => exact h
  | cons raw raws ih => exact ih (h.apply raw)

/-- What one update may do to the version, the update counter and the rest. -/
structure Advances (c : Component) (raw : List UInt8) : Prop where
  version_mono : versionOf c.schema ≤ versionOf (applySchemaUpdate c raw).2.schema
  accepted : (applySchemaUpdate c raw).1 = .ok →
    versionOf c.schema < versionOf (applySchemaUpdate c raw).2.schema ∧
      (applySchemaUpdate c raw).2.schemaUpdates.toNat = c.schemaUpdates.toNat + 1
  refused : (applySchemaUpdate c raw).1 = .invalidDescriptor ∨
    (applySchemaUpdate c raw).1 = .staleUpdate → (applySchemaUpdate c raw).2 = c

theorem CountsVersions.advances (h : CountsVersions c) (raw : List UInt8) : Advances c raw := by
  rcases applySchemaUpdate_cases c raw with ⟨-, heq⟩ | ⟨-, -, heq⟩ | ⟨-, hlt, heq⟩
  · refine ⟨?_, ?_, ?_⟩ <;> rw [heq]
    · intro hr
      cases hr
    · exact fun _ => rfl
  · refine ⟨?_, ?_, ?_⟩ <;> rw [heq]
    · intro hr
      cases hr
    · exact fun _ => rfl
  · refine ⟨?_, ?_, ?_⟩ <;> rw [heq]
    · exact Nat.le_of_lt hlt
    · exact fun _ => ⟨hlt, h.toNat_succ hlt⟩
    · rintro (hr | hr) <;> cases hr

/-! ### Convergence -/

/-- Messages of one version carry one descriptor. -/
def OnePerVersion (raws : List (List UInt8)) : Prop :=
  ∀ a ∈ descriptors raws, ∀ b ∈ descriptors raws, versionOf a = versionOf b → a = b

/-- The schema that a set of messages leads to, starting from the empty schema. -/
def IsOutcome (raws : List (List UInt8)) (d : RawSchemaDescriptor) : Prop :=
  ((∀ a ∈ descriptors raws, versionOf a = 0) ∧ d = emptySchema) ∨
    (d ∈ descriptors raws ∧ 0 < versionOf d ∧ ∀ a ∈ descriptors raws, versionOf a ≤ versionOf d)

/-- The outcome is what every delivery of the messages ends with. -/
theorem deliverAll_eq_outcome {raws order : List (List UInt8)} (huniq : OnePerVersion raws)
    (horder : ∀ raw, raw ∈ order ↔ raw ∈ raws) {d : RawSchemaDescriptor} (hd : IsOutcome raws d) :
    (deliverAll Component.init order).schema = d := by
  have hsame : ∀ a, a ∈ descriptors order ↔ a ∈ descriptors raws := by
    intro a
    simp only [mem_descriptors, horder]
  have hempty : versionOf Component.init.schema = 0 := rfl
  rw [deliverAll_schema]
  rcases hd with ⟨hzero, rfl⟩ | ⟨hmem, hpos, hmax⟩
  · apply newest_eq_self
    intro b hb
    rw [hempty, hzero b ((hsame b).mp hb)]
  · refine newest_eq_of_greatest versionOf ((hsame d).mpr hmem) (by rwa [hempty]) ?_ ?_
    · exact fun b hb => hmax b ((hsame b).mp hb)
    · exact fun b hb heq => huniq b ((hsame b).mp hb) d hmem heq

/-- Every set of messages has an outcome. -/
theorem exists_outcome (raws : List (List UInt8)) : ∃ d, IsOutcome raws d := by
  by_cases hzero : ∀ a ∈ descriptors raws, versionOf a = 0
  · exact ⟨emptySchema, Or.inl ⟨hzero, rfl⟩⟩
  · obtain ⟨a, ha, hne⟩ : ∃ a ∈ descriptors raws, versionOf a ≠ 0 := by
      simpa only [not_forall, exists_prop] using hzero
    obtain ⟨d, hd, hmax⟩ :=
      (descriptors raws).toFinset.exists_max_image versionOf ⟨a, List.mem_toFinset.mpr ha⟩
    have hle := hmax a (List.mem_toFinset.mpr ha)
    refine ⟨d, Or.inr ⟨List.mem_toFinset.mp hd, by omega, ?_⟩⟩
    exact fun b hb => hmax b (List.mem_toFinset.mpr hb)

/-- **Schema updates converge whatever their order.**  Messages of which any two of one version
carry one descriptor lead every delivery, in any order and with any repetition, to one
schema, the outcome.  At every point of a delivery, an accepted update raises the version and
the update counter, any other leaves the component as it is, and the version never falls. -/
theorem schema_updates_converge (raws : List (List UInt8)) (huniq : OnePerVersion raws) :
    (∃ d, IsOutcome raws d ∧ ∀ order : List (List UInt8), (∀ raw, raw ∈ order ↔ raw ∈ raws) →
      (deliverAll Component.init order).schema = d) ∧
    ∀ (delivered : List (List UInt8)) (raw : List UInt8),
      Advances (deliverAll Component.init delivered) raw := by
  constructor
  · obtain ⟨d, hd⟩ := exists_outcome raws
    exact ⟨d, hd, fun order horder => deliverAll_eq_outcome huniq horder hd⟩
  · intro delivered raw
    exact (CountsVersions.init.of_deliverAll delivered).advances raw

theorem schema_updates_converge_pair :
    ∃ d, IsOutcome [1 :: List.replicate 201 0, [9], 2 :: List.replicate 201 0] d ∧
      (deliverAll Component.init [2 :: List.replicate 201 0, [9], 1 :: List.replicate 201 0,
        2 :: List.replicate 201 0]).schema = d := by
  have hsame : ∀ a b s raw : List UInt8, raw ∈ [b, s, a, b] ↔ raw ∈ [a, s, b] := by
    intro a b s raw
    simp only [List.mem_cons, List.not_mem_nil, or_false]
    tauto
  have hversions : (descriptors [1 :: List.replicate 201 0, [9], 2 :: List.replicate 201 0]).map
      versionOf = [1, 2] := by decide +kernel
  have huniq : OnePerVersion [1 :: List.replicate 201 0, [9], 2 :: List.replicate 201 0] :=
    List.inj_on_of_nodup_map (by
      rw [hversions]
      decide)
  obtain ⟨⟨d, hd, horder⟩, -⟩ := schema_updates_converge _ huniq
  exact ⟨d, hd, horder _ (hsame _ _ _)⟩

end NexusCore.Schema
