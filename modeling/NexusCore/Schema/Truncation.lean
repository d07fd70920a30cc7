import NexusCore.Schema.Traps

/-!
# Truncated frames

A frame that was cut short decodes to the values of the whole frame or to `Unknown`: a field
is read only behind a test against the frame's end, and what passes the test in the prefix is
the same in the whole frame.
-/

namespace NexusCore.Schema

open Foundation.Machine Foundation.ByteOrder

/-- A value decoded from a part against the value decoded from the whole. -/
def Agrees (v w : FieldValue) : Prop := v = .unknown ∨ v = w

/-- A length-prefixed field whose length lies in the part. -/
theorem lengthPrefixed_agrees {part rest : List UInt8} {offset : ℕ}
    (h : offset + 2 ≤ part.length) (wrap : List UInt8 → FieldValue) :
    ∃ v w, lengthPrefixed part offset wrap = .ok v ∧
      lengthPrefixed (part ++ rest) offset wrap = .ok w ∧ Agrees v w := by
  have hhi : index (part ++ rest) offset = index part offset := index_append_of_lt (by omega)
  have hlo : index (part ++ rest) (offset + 1) = index part (offset + 1) :=
    index_append_of_lt (by omega)
  have hwhole : offset + 2 ≤ (part ++ rest).length := by
    rw [List.length_append]
    omega
  obtain ⟨w, hw⟩ := lengthPrefixed_returns hwhole wrap
  obtain ⟨v, hv⟩ := lengthPrefixed_returns h wrap
  refine ⟨v, w, hv, hw, ?_⟩
  have hi₀ : index part offset = .ok part[offset] := index_of_lt (by omega)
  have lo₀ : index part (offset + 1) = .ok part[offset + 1] := index_of_lt (by omega)
  rw [lengthPrefixed, hhi, hlo, hi₀, ok_bind, lo₀, ok_bind] at hw
  rw [lengthPrefixed, hi₀, ok_bind, lo₀, ok_bind] at hv
  by_cases hstop : offset + 2 + (u16FromBe [part[offset], part[offset + 1]]).toNat ≤ part.length
  · -- the body lies in the part, so both read it there
    have hstop' : offset + 2 + (u16FromBe [part[offset], part[offset + 1]]).toNat
        ≤ (part ++ rest).length := by
      rw [List.length_append]
      omega
    simp only [if_pos hstop, if_pos hstop', slice_append_of_le (Nat.le_add_right _ _) hstop]
      at hv hw
    rw [hv] at hw
    exact Or.inr (Except.ok.inj hw)
  · simp only [if_neg hstop] at hv
    exact Or.inl (Except.ok.inj hv).symm

/-- Eight bytes that lie in the part. -/
theorem number_agrees {part rest : List UInt8} {offset : ℕ} (h : offset + 8 ≤ part.length)
    (wrap : UInt64 → FieldValue) :
    ∃ v w, (do let buf ← slice part offset (offset + 8)
               .ok (wrap (u64FromBe buf)) : Checked FieldValue) = .ok v ∧
      (do let buf ← slice (part ++ rest) offset (offset + 8)
          .ok (wrap (u64FromBe buf)) : Checked FieldValue) = .ok w ∧ Agrees v w := by
  rw [slice_append_of_le (Nat.le_add_right _ _) h, slice_of_le (Nat.le_add_right _ _) h, ok_bind]
  exact ⟨_, _, rfl, rfl, Or.inr rfl⟩

/-- A field that is read behind a test of its first `k` bytes agrees when the reading does. -/
theorem tested_agrees {part rest : List UInt8} {offset k : ℕ} {x y : Checked FieldValue}
    (hin : offset + k ≤ part.length → ∃ v w, x = .ok v ∧ y = .ok w ∧ Agrees v w)
    (hwhole : ∃ w, (if offset + k ≤ (part ++ rest).length then y else .ok .unknown) = .ok w) :
    ∃ v w, (if offset + k ≤ part.length then x else .ok .unknown) = .ok v ∧
      (if offset + k ≤ (part ++ rest).length then y else .ok .unknown) = .ok w ∧ Agrees v w := by
  by_cases h : offset + k ≤ part.length
  · have h' : offset + k ≤ (part ++ rest).length := by
      rw [List.length_append]
      omega
    rw [if_pos h, if_pos h']
    exact hin h
  · obtain ⟨w, hw⟩ := hwhole
    rw [if_neg h]
    exact ⟨_, w, rfl, hw, Or.inl rfl⟩

/-- The `match` by its type codes. -/
theorem decodeField_match (frame : List UInt8) (offset : ℕ) :
    (decodeField frame offset 0 = if offset + 8 ≤ frame.length then
        (do let buf ← slice frame offset (offset + 8)
            .ok (.u64Val (u64FromBe buf)))
      else .ok .unknown) ∧
    (decodeField frame offset 1 = if offset + 8 ≤ frame.length then
        (do let buf ← slice frame offset (offset + 8)
            .ok (.f64Val (u64FromBe buf)))
      else .ok .unknown) ∧
    (decodeField frame offset 2 = if offset + 2 ≤ frame.length then
        lengthPrefixed frame offset .bytesVal
      else .ok .unknown) ∧
    (decodeField frame offset 3 = if offset + 2 ≤ frame.length then
        lengthPrefixed frame offset strValue
      else .ok .unknown) ∧
    ∀ ftype : UInt8, ftype ≠ 0 → ftype ≠ 1 → ftype ≠ 2 → ftype ≠ 3 →
      decodeField frame offset ftype = .ok .unknown := by
  refine ⟨by simp [decodeField], by simp [decodeField], by simp [decodeField],
    by simp [decodeField], ?_⟩
  intro ftype h₀ h₁ h₂ h₃
  simp [decodeField, h₀, h₁, h₂, h₃]

/-- **A field of a truncated frame** decodes as in the whole frame, or to `Unknown`. -/
theorem decodeField_agrees (part rest : List UInt8) (offset : ℕ) (ftype : UInt8) :
    ∃ v w, decodeField part offset ftype = .ok v ∧
      decodeField (part ++ rest) offset ftype = .ok w ∧ Agrees v w := by
  obtain ⟨p₀, p₁, p₂, p₃, pᵣ⟩ := decodeField_match part offset
  obtain ⟨w₀, w₁, w₂, w₃, wᵣ⟩ := decodeField_match (part ++ rest) offset
  have hwhole := decodeField_returns (part ++ rest) offset ftype
  by_cases h₀ : ftype = 0
  · subst h₀
    rw [w₀] at hwhole
    rw [p₀, w₀]
    exact tested_agrees (fun h => number_agrees h .u64Val) hwhole
  by_cases h₁ : ftype = 1
  · subst h₁
    rw [w₁] at hwhole
    rw [p₁, w₁]
    exact tested_agrees (fun h => number_agrees h .f64Val) hwhole
  by_cases h₂ : ftype = 2
  · subst h₂
    rw [w₂] at hwhole
    rw [p₂, w₂]
    exact tested_agrees (fun h => lengthPrefixed_agrees h .bytesVal) hwhole
  by_cases h₃ : ftype = 3
  · subst h₃
    rw [w₃] at hwhole
    rw [p₃, w₃]
    exact tested_agrees (fun h => lengthPrefixed_agrees h strValue) hwhole
  rw [pᵣ ftype h₀ h₁ h₂ h₃, wᵣ ftype h₀ h₁ h₂ h₃]
  exact ⟨_, _, rfl, rfl, Or.inr rfl⟩

/-- The fields of a truncated frame, one by one. -/
theorem decodeFields_agrees (d : RawSchemaDescriptor) (part rest : List UInt8) {k i : ℕ}
    (h : i + k ≤ 64) :
    ∃ vs ws, decodeFields d part k i = .ok vs ∧ decodeFields d (part ++ rest) k i = .ok ws ∧
      List.Forall₂ Agrees vs ws := by
  induction k generalizing i with
  | zero => exact ⟨[], [], rfl, rfl, List.Forall₂.nil⟩
  | succ k ih =>
      have hi : i < 64 := by omega
      obtain ⟨v, w, hv, hw, hvw⟩ :=
        decodeField_agrees part rest d.fieldOffsets[i].toNat d.fieldTypes[i]
      obtain ⟨vs, ws, hvs, hws, hall⟩ := ih (i := i + 1) (by omega)
      refine ⟨v :: vs, w :: ws, ?_, ?_, List.Forall₂.cons hvw hall⟩
      · rw [decodeFields, index_vector _ hi, ok_bind, index_vector _ hi, ok_bind, hv, ok_bind, hvs,
          ok_bind]
      · rw [decodeFields, index_vector _ hi, ok_bind, index_vector _ hi, ok_bind, hw, ok_bind, hws,
          ok_bind]

/-- **A truncated frame never yields a wrong value.**  For every prefix of a frame, at the
version of a schema that respects the tables, both calls answer one value for each field, and
the values of the prefix are those of the frame or `Unknown`. -/
theorem truncated_frame_agrees {c : Component} (h : c.schema.fieldCount.toNat ≤ 64)
    {frame part : List UInt8} (hpart : part <+: frame) :
    ∃ vs ws c₁ c₂, processFrame c part c.schema.version = .ok (vs, c₁) ∧
      processFrame c frame c.schema.version = .ok (ws, c₂) ∧
      vs.length = ws.length ∧ List.Forall₂ Agrees vs ws := by
  obtain ⟨rest, rfl⟩ := hpart
  obtain ⟨vs, ws, hvs, hws, hall⟩ := decodeFields_agrees c.schema part rest
    (k := c.schema.fieldCount.toNat) (i := 0) (by rw [Nat.zero_add]; exact h)
  refine ⟨vs, ws, { c with processed := c.processed + 1 }, { c with processed := c.processed + 1 },
    ?_, ?_, hall.length_eq, hall⟩
  · rw [processFrame, if_neg (not_not.mpr rfl), hvs, ok_bind]
  · rw [processFrame, if_neg (not_not.mpr rfl), hws, ok_bind]

theorem truncated_frame_agrees_string :
    ∃ vs ws c₁ c₂, processFrame ⟨⟨1, 1, Vector.replicate 64 0, Vector.replicate 64 3⟩, 0, 0, 1⟩
        [0, 2, 0xC3] 1 = .ok (vs, c₁) ∧
      processFrame ⟨⟨1, 1, Vector.replicate 64 0, Vector.replicate 64 3⟩, 0, 0, 1⟩
        [0, 2, 0xC3, 0xA9] 1 = .ok (ws, c₂) ∧
      vs.length = ws.length ∧ List.Forall₂ Agrees vs ws :=
  truncated_frame_agrees (c := ⟨⟨1, 1, Vector.replicate 64 0, Vector.replicate 64 3⟩, 0, 0, 1⟩)
    (by decide) ⟨[0xA9], rfl⟩

end NexusCore.Schema
