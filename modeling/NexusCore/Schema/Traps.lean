import NexusCore.Schema.Convergence
import NexusCore.Schema.ControlPlane

/-!
# When the component traps

A descriptor's field count is a 16-bit number, its tables have 64 slots, and an update checks
neither against the other.  `decodeFields_returns` and `decodeFields_overrun` say what a
frame's decoding does on either side of 64; `tenant_never_traps_iff` says which descriptors
may be delivered so that no sequence of calls traps.
-/

namespace NexusCore.Schema

open Foundation.Machine

/-! ### Decoding a frame -/

/-- A field whose two length bytes lie in the frame is decoded. -/
theorem lengthPrefixed_returns {frame : List UInt8} {offset : ℕ} (h : offset + 2 ≤ frame.length)
    (wrap : List UInt8 → FieldValue) : ∃ v, lengthPrefixed frame offset wrap = .ok v := by
  have hhi : index frame offset = .ok frame[offset] := index_of_lt (by omega)
  have hlo : index frame (offset + 1) = .ok frame[offset + 1] := index_of_lt (by omega)
  simp only [lengthPrefixed, hhi, hlo, ok_bind]
  split
  · next hstop => exact ⟨_, by rw [slice_of_le (by omega) hstop, ok_bind]⟩
  · exact ⟨_, rfl⟩

/-- **Every field is decoded**, whatever its offset, its type and the frame. -/
theorem decodeField_returns (frame : List UInt8) (offset : ℕ) (ftype : UInt8) :
    ∃ v, decodeField frame offset ftype = .ok v := by
  unfold decodeField
  split
  · next h => exact ⟨_, by rw [slice_of_le (Nat.le_add_right _ _) h.2, ok_bind]⟩
  · split
    · next h => exact ⟨_, by rw [slice_of_le (Nat.le_add_right _ _) h.2, ok_bind]⟩
    · split
      · next h => exact lengthPrefixed_returns h.2 _
      · split
        · next h => exact lengthPrefixed_returns h.2 _
        · exact ⟨_, rfl⟩

/-- A slot of the tables. -/
theorem index_vector {α : Type} (v : Vector α 64) {i : ℕ} (hi : i < 64) :
    index v.toList i = .ok v[i] := by
  rw [index_of_lt (by rwa [Vector.length_toList]), Vector.getElem_toList]

/-- Up to 64 fields are decoded, one value for each. -/
theorem decodeFields_returns (d : RawSchemaDescriptor) (frame : List UInt8) {k i : ℕ}
    (h : i + k ≤ 64) : ∃ vs, decodeFields d frame k i = .ok vs ∧ vs.length = k := by
  induction k generalizing i with
  | zero => exact ⟨[], rfl, rfl⟩
  | succ k ih =>
      have hi : i < 64 := by omega
      obtain ⟨v, hv⟩ := decodeField_returns frame d.fieldOffsets[i].toNat d.fieldTypes[i]
      obtain ⟨vs, hvs, hlen⟩ := ih (i := i + 1) (by omega)
      refine ⟨v :: vs, ?_, by rw [List.length_cons, hlen]⟩
      rw [decodeFields, index_vector _ hi, ok_bind, index_vector _ hi, ok_bind, hv, ok_bind, hvs,
        ok_bind]

/-- More than 64 fields lead past the tables. -/
theorem decodeFields_overrun (d : RawSchemaDescriptor) (frame : List UInt8) {k i : ℕ}
    (hi : i ≤ 64) (h : 64 < i + k) : decodeFields d frame k i = .error .bounds := by
  induction k generalizing i with
  | zero => omega
  | succ k ih =>
      rcases Nat.lt_or_eq_of_le hi with hlt | rfl
      · obtain ⟨v, hv⟩ := decodeField_returns frame d.fieldOffsets[i].toNat d.fieldTypes[i]
        rw [decodeFields, index_vector _ hlt, ok_bind, index_vector _ hlt, ok_bind, hv, ok_bind,
          ih (by omega) (by omega), error_bind]
      · rw [decodeFields, index_of_ge (Nat.le_of_eq (Vector.length_toList ..)), error_bind]

/-- The field count respects the tables. -/
def FieldsFit (d : RawSchemaDescriptor) : Prop := d.fieldCount.toNat ≤ 64

theorem processFrame_returns {c : Component} (h : FieldsFit c.schema) (frame : List UInt8)
    (schemaVersion : UInt64) :
    ∃ vs c', processFrame c frame schemaVersion = .ok (vs, c') ∧ c'.schema = c.schema ∧
      (schemaVersion = c.schema.version → vs.length = c.schema.fieldCount.toNat) := by
  unfold processFrame
  by_cases hver : schemaVersion = c.schema.version
  · obtain ⟨vs, hvs, hlen⟩ := decodeFields_returns c.schema frame (k := c.schema.fieldCount.toNat)
      (i := 0) (by rw [Nat.zero_add]; exact h)
    rw [if_neg (not_not.mpr hver), hvs, ok_bind]
    exact ⟨_, _, rfl, rfl, fun _ => hlen⟩
  · rw [if_pos hver]
    exact ⟨_, _, rfl, rfl, fun heq => absurd heq hver⟩

/-- A frame at the version of a schema with too many fields traps. -/
theorem processFrame_overrun {c : Component} (h : ¬ FieldsFit c.schema) (frame : List UInt8) :
    processFrame c frame c.schema.version = .error .bounds := by
  have hlt : 64 < 0 + c.schema.fieldCount.toNat := by
    rw [Nat.zero_add]
    exact Nat.not_le.mp h
  rw [processFrame, if_neg (not_not.mpr rfl), decodeFields_overrun _ _ (Nat.zero_le _) hlt,
    error_bind]

/-! ### Runs -/

/-- The descriptor of the last update that was answered `ok`. -/
def lastAccepted : RawSchemaDescriptor → List Call → List Reply → RawSchemaDescriptor
  | _, .applySchemaUpdate raw :: calls, .update .ok :: replies =>
      lastAccepted (readDescriptor raw) calls replies
  | d, _ :: calls, _ :: replies => lastAccepted d calls replies
  | d, _, _ => d

/-- What the component owes its callers after a run: the run ended, the schema is the last
accepted one, and a frame of its version gives one value for each of its fields. -/
def Served (calls : List Call) : Prop :=
  ∃ replies c, runCalls Component.init calls = .ok (replies, c) ∧
    c.schema = lastAccepted emptySchema calls replies ∧
    ∀ frame, ∃ vs c', processFrame c frame c.schema.version = .ok (vs, c') ∧
      vs.length = c.schema.fieldCount.toNat

/-- One call keeps the field count within the tables. -/
theorem call_fieldsFit {c : Component} (h : FieldsFit c.schema) (call : Call)
    (hcall : ∀ raw, call = .applySchemaUpdate raw → IsDescriptor raw →
      0 < versionOf (readDescriptor raw) → FieldsFit (readDescriptor raw)) :
    ∃ reply c', c.call call = .ok (reply, c') ∧ FieldsFit c'.schema ∧
      ∀ calls replies, lastAccepted c.schema (call :: calls) (reply :: replies)
        = lastAccepted c'.schema calls replies := by
  cases call with
  | applySchemaUpdate raw =>
      refine ⟨_, _, rfl, ?_⟩
      rcases applySchemaUpdate_cases c raw with ⟨-, heq⟩ | ⟨-, -, heq⟩ | ⟨hdesc, hlt, heq⟩
      · rw [heq]
        exact ⟨h, fun _ _ => rfl⟩
      · rw [heq]
        exact ⟨h, fun _ _ => rfl⟩
      · rw [heq]
        exact ⟨hcall raw rfl hdesc (Nat.zero_lt_of_lt hlt), fun _ _ => rfl⟩
  | processFrame frame schemaVersion =>
      obtain ⟨vs, c', hvs, hschema, -⟩ := processFrame_returns h frame schemaVersion
      refine ⟨.fields vs, c', ?_, ?_, ?_⟩
      · simp only [Component.call, hvs, ok_bind]
      · rwa [hschema]
      · intro calls replies
        rw [hschema]
        rfl

/-- Runs whose descriptors respect the tables end. -/
theorem runCalls_fieldsFit {c : Component} (h : FieldsFit c.schema) (calls : List Call)
    (hcalls : ∀ raw, .applySchemaUpdate raw ∈ calls → IsDescriptor raw →
      0 < versionOf (readDescriptor raw) → FieldsFit (readDescriptor raw)) :
    ∃ replies c', runCalls c calls = .ok (replies, c') ∧ FieldsFit c'.schema ∧
      c'.schema = lastAccepted c.schema calls replies := by
  induction calls generalizing c with
  | nil => exact ⟨[], c, rfl, h, rfl⟩
  | cons call calls ih =>
      obtain ⟨reply, c₁, hcall, h₁, hlast⟩ := call_fieldsFit h call fun raw hraw =>
        hcalls raw (by rw [hraw]; exact List.mem_cons_self)
      obtain ⟨replies, c', hrun, h', hlast'⟩ := ih h₁ fun raw hraw =>
        hcalls raw (List.mem_cons_of_mem _ hraw)
      refine ⟨reply :: replies, c', ?_, h', ?_⟩
      · simp only [runCalls, hcall, hrun, ok_bind]
      · rw [hlast', hlast]

/-- **The component serves every run exactly when no descriptor that may be delivered has more
than 64 fields**, those of version 0 aside, which are never installed. -/
theorem tenant_never_traps_iff (deliverable : Set (List UInt8)) :
    (∀ calls : List Call, (∀ raw, .applySchemaUpdate raw ∈ calls → raw ∈ deliverable) →
      Served calls) ↔
    ∀ raw ∈ deliverable, IsDescriptor raw → 0 < versionOf (readDescriptor raw) →
      (readDescriptor raw).fieldCount.toNat ≤ 64 := by
  constructor
  · intro hserved raw hraw hdesc hpos
    by_contra hfit
    -- install the descriptor; the next frame at its version traps
    obtain ⟨replies, c, hrun, -, hframe⟩ := hserved [.applySchemaUpdate raw] (by
      intro raw' hraw'
      cases List.mem_singleton.mp hraw'
      exact hraw)
    have hinstalled : c.schema = readDescriptor raw := by
      rcases applySchemaUpdate_cases Component.init raw with ⟨hbad, -⟩ | ⟨-, hle, -⟩ | ⟨-, -, heq⟩
      · exact absurd hdesc hbad
      · exact absurd hpos (Nat.not_lt.mpr hle)
      · simp only [runCalls, Component.call, heq, ok_bind] at hrun
        cases hrun
        rfl
    obtain ⟨vs, c', hvs, -⟩ := hframe []
    rw [processFrame_overrun (by rwa [hinstalled])] at hvs
    cases hvs
  · intro hfit calls hcalls
    have hempty : FieldsFit Component.init.schema := Nat.zero_le _
    obtain ⟨replies, c, hrun, h, hlast⟩ := runCalls_fieldsFit hempty calls fun raw hraw =>
      hfit raw (hcalls raw hraw)
    refine ⟨replies, c, hrun, hlast, fun frame => ?_⟩
    obtain ⟨vs, c', hvs, -, hlen⟩ := processFrame_returns h frame c.schema.version
    exact ⟨vs, c', hvs, hlen rfl⟩

/-- A specification of 65 fields, pushed and delivered, traps the component at its first frame. -/
theorem tenant_traps_on_65_fields : ¬ ∀ calls : List Call, Served calls := by
  intro hserved
  let spec : SchemaSpec := ⟨1001, 1, List.replicate 65 ⟨"f", "u64", 0⟩⟩
  obtain ⟨replies, c, hrun, -⟩ :=
    hserved [.applySchemaUpdate (pushedValue spec), .processFrame [] 1]
  have htrap : runCalls Component.init [.applySchemaUpdate (pushedValue spec), .processFrame [] 1]
      = .error .bounds := by decide +kernel
  rw [htrap] at hrun
  cases hrun

end NexusCore.Schema
