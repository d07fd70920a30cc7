import NexusCore.Foundation.StructLayout
import NexusCore.Schema.Classifier
import NexusCore.Schema.Convergence

/-!
# One descriptor, three definitions

The control plane fills a Go structure, the kernel copies as many bytes of it as the packed C
structure has, and the component reads them back as a packed Rust structure.

* `memory_eq_naturalImage`: the Go structure in memory is the natural image of its members;
* `pushedValue_eq_packedImage`: its first 202 bytes are the packed image, since every member
  already stands at its alignment;
* `readDescriptor_sections`: the component reads every member back;
* `schema_descriptor_agrees`: so a pushed specification arrives as it was written.
-/

namespace NexusCore.Schema

open Foundation.ByteOrder Foundation.StructLayout

/-! ### The layouts -/

/-- The members of `SchemaDescriptor`, `struct schema_descriptor` and `RawSchemaDescriptor`. -/
def descriptorMembers : List Member := [⟨8, 8⟩, ⟨2, 2⟩, ⟨128, 2⟩, ⟨64, 1⟩]

/-- The members with the bytes they hold. -/
def descriptorFields (sd : SchemaDescriptor) : List (Member × List UInt8) :=
  [(⟨8, 8⟩, u64ToLe sd.version), (⟨2, 2⟩, u16ToLe sd.fieldCount),
    (⟨128, 2⟩, sd.fieldOffsets.toList.flatMap u16ToLe), (⟨64, 1⟩, sd.fieldTypes.toList)]

theorem members_descriptorFields (sd : SchemaDescriptor) :
    members (descriptorFields sd) = descriptorMembers := rfl

theorem offsets_length (v : Vector UInt16 64) : (v.toList.flatMap u16ToLe).length = 128 := by
  rw [List.length_flatMap]
  simp only [u16ToLe_length, List.map_const', List.sum_replicate, Vector.length_toList]
  rfl

theorem descriptorFields_sizes (sd : SchemaDescriptor) : SizesMatch (descriptorFields sd) := by
  intro f hf
  simp only [descriptorFields, List.mem_cons, List.not_mem_nil, or_false] at hf
  rcases hf with rfl | rfl | rfl | rfl
  · exact u64ToLe_length _
  · exact u16ToLe_length _
  · exact offsets_length _
  · exact Vector.length_toList ..

/-- **The Go structure in memory** has its members at their natural offsets. -/
theorem memory_eq_naturalImage (sd : SchemaDescriptor) :
    sd.memory = naturalImage (descriptorFields sd) := by
  have hlen := packedImage_length (descriptorFields_sizes sd)
  have hpad : roundUp (packedImage (descriptorFields sd)).length
      (recordAlign (members (descriptorFields sd))) - (packedImage (descriptorFields sd)).length
        = 6 := by
    rw [hlen, members_descriptorFields]
    decide
  rw [naturalImage_eq (by rw [members_descriptorFields]; decide), hpad, packedImage_eq]
  simp only [SchemaDescriptor.memory, descriptorFields, List.map_cons, List.map_nil,
    List.flatten_cons, List.flatten_nil, List.append_nil, List.append_assoc]

/-- **What the kernel copies** is the packed structure. -/
theorem pushedValue_eq_packedImage (spec : SchemaSpec) :
    pushedValue spec = packedImage (descriptorFields (buildDescriptor spec)) := by
  have htake := take_naturalImage (by rw [members_descriptorFields]; decide)
    (descriptorFields_sizes (buildDescriptor spec))
  rw [members_descriptorFields, show packedSize descriptorMembers = 202 from rfl,
    ← memory_eq_naturalImage] at htake
  exact htake

/-! ### Reading the members back -/

/-- Offset `i` behind the version and the count. -/
theorem readOffset_sections (version : UInt64) (fieldCount : UInt16)
    (fieldOffsets : Vector UInt16 64) (rest : List UInt8) {i : ℕ} (hi : i < 64) :
    u16FromLe (((u64ToLe version ++ (u16ToLe fieldCount ++
      (fieldOffsets.toList.flatMap u16ToLe ++ rest))).drop (10 + 2 * i)).take 2)
        = fieldOffsets[i] := by
  have hi' : i < fieldOffsets.toList.length := by rwa [Vector.length_toList]
  rw [← List.drop_drop, show 10 = 8 + 2 from rfl, ← List.drop_drop,
    List.drop_left' (u64ToLe_length version), List.drop_left' (u16ToLe_length fieldCount),
    piece_flatMap 2 u16ToLe _ _ (fun _ _ => u16ToLe_length _) hi', u16FromLe_u16ToLe,
    Vector.getElem_toList]

/-- Type code `i` behind the offsets. -/
theorem readType_sections (version : UInt64) (fieldCount : UInt16)
    (fieldOffsets : Vector UInt16 64) (fieldTypes : Vector UInt8 64) (rest : List UInt8) {i : ℕ}
    (hi : i < 64) :
    (u64ToLe version ++ (u16ToLe fieldCount ++
      (fieldOffsets.toList.flatMap u16ToLe ++ (fieldTypes.toList ++ rest)))).getD (138 + i) 0
        = fieldTypes[i] := by
  have h8 := u64ToLe_length version
  have h2 := u16ToLe_length fieldCount
  have hoff := offsets_length fieldOffsets
  have hi' : i < fieldTypes.toList.length := by rwa [Vector.length_toList]
  rw [List.getD_eq_getElem?_getD, List.getElem?_append_right (by omega),
    List.getElem?_append_right (by omega), List.getElem?_append_right (by omega)]
  have hidx : 138 + i - (u64ToLe version).length - (u16ToLe fieldCount).length
      - (fieldOffsets.toList.flatMap u16ToLe).length = i := by omega
  rw [hidx, List.getElem?_append_left hi', List.getElem?_eq_getElem hi', Option.getD_some,
    Vector.getElem_toList]

/-- **The component reads back what was packed**, whatever follows. -/
theorem readDescriptor_sections (version : UInt64) (fieldCount : UInt16)
    (fieldOffsets : Vector UInt16 64) (fieldTypes : Vector UInt8 64) (rest : List UInt8) :
    readDescriptor (u64ToLe version ++ (u16ToLe fieldCount ++
      (fieldOffsets.toList.flatMap u16ToLe ++ (fieldTypes.toList ++ rest))))
        = ⟨version, fieldCount, fieldOffsets, fieldTypes⟩ := by
  simp only [readDescriptor, RawSchemaDescriptor.mk.injEq]
  refine ⟨?_, ?_, ?_, ?_⟩
  · rw [List.take_left' (u64ToLe_length version), u64FromLe_u64ToLe]
  · rw [List.drop_left' (u64ToLe_length version), List.take_left' (u16ToLe_length fieldCount),
      u16FromLe_u16ToLe]
  · apply Vector.ext
    intro i hi
    rw [Vector.getElem_ofFn]
    exact readOffset_sections version fieldCount fieldOffsets _ hi
  · apply Vector.ext
    intro i hi
    rw [Vector.getElem_ofFn]
    exact readType_sections version fieldCount fieldOffsets fieldTypes rest hi

/-- The pushed bytes are read as the structure that was filled. -/
theorem readDescriptor_pushedValue (spec : SchemaSpec) :
    readDescriptor (pushedValue spec) = ⟨(buildDescriptor spec).version,
      (buildDescriptor spec).fieldCount, (buildDescriptor spec).fieldOffsets,
      (buildDescriptor spec).fieldTypes⟩ := by
  have hread := readDescriptor_sections (buildDescriptor spec).version
    (buildDescriptor spec).fieldCount (buildDescriptor spec).fieldOffsets
    (buildDescriptor spec).fieldTypes []
  rw [pushedValue_eq_packedImage, packedImage_eq]
  simpa only [descriptorFields, List.map_cons, List.map_nil, List.flatten_cons,
    List.flatten_nil] using hread

/-- The kernel reads the version where the structure was filled with it. -/
theorem storedVersion_pushedValue (spec : SchemaSpec) :
    storedVersion (pushedValue spec) = (buildDescriptor spec).version := by
  rw [pushedValue_eq_packedImage, packedImage_eq, storedVersion]
  simp only [descriptorFields, List.map_cons, List.flatten_cons]
  rw [List.take_left' (u64ToLe_length _), u64FromLe_u64ToLe]

/-! ### Filling the structure -/

/-- The loop leaves the header alone. -/
theorem fillFields_header (i : ℕ) (fields : List FieldSpec) (sd : SchemaDescriptor) :
    (fillFields i fields sd).version = sd.version ∧
      (fillFields i fields sd).fieldCount = sd.fieldCount := by
  induction fields generalizing i sd with
  | nil => exact ⟨rfl, rfl⟩
  | cons f fields ih =>
      rw [fillFields]
      split
      · exact ih _ _
      · exact ⟨rfl, rfl⟩

/-- **The loop fills the slots from `i` on**, one for each field, and no other. -/
theorem fillFields_slot (i : ℕ) (fields : List FieldSpec) (sd : SchemaDescriptor) {j : ℕ}
    (hj : j < 64) :
    (fillFields i fields sd).fieldOffsets[j]
        = (if i ≤ j then (fields[j - i]?.map FieldSpec.offset).getD sd.fieldOffsets[j]
          else sd.fieldOffsets[j]) ∧
      (fillFields i fields sd).fieldTypes[j]
        = (if i ≤ j then
            (fields[j - i]?.map fun f => fieldTypeFromString f.type).getD sd.fieldTypes[j]
          else sd.fieldTypes[j]) := by
  induction fields generalizing i sd with
  | nil => simp [fillFields]
  | cons f fields ih =>
      rw [fillFields]
      split
      · obtain ⟨hoffset, htype⟩ := ih (i + 1) { sd with
          fieldOffsets := sd.fieldOffsets.set i f.offset
          fieldTypes := sd.fieldTypes.set i (fieldTypeFromString f.type) }
        rw [hoffset, htype]
        simp only [Vector.getElem_set]
        rcases Nat.lt_trichotomy i j with hlt | rfl | hgt
        · have hnext : j - i = (j - (i + 1)) + 1 := by omega
          rw [if_pos (show i + 1 ≤ j from hlt), if_pos (show i + 1 ≤ j from hlt),
            if_neg (Nat.ne_of_lt hlt), if_neg (Nat.ne_of_lt hlt), if_pos (Nat.le_of_lt hlt),
            if_pos (Nat.le_of_lt hlt), hnext, List.getElem?_cons_succ]
          exact ⟨rfl, rfl⟩
        · simp
        · rw [if_neg (by omega), if_neg (by omega), if_neg (by omega), if_neg (by omega),
            if_neg (by omega), if_neg (by omega)]
          exact ⟨rfl, rfl⟩
      · have hgt : ¬ i ≤ j := by omega
        rw [if_neg hgt, if_neg hgt]
        exact ⟨rfl, rfl⟩

/-! ### A specification on its way to the component -/

/-- `FIELD_TYPE_*` of the header, by the type names of a specification. -/
def typeCodes : List (String × UInt8) := [("u64", 0), ("f64", 1), ("bytes", 2), ("str", 3)]

/-- The type names. -/
def typeNames : List String := typeCodes.map Prod.fst

theorem fieldTypeFromString_mem {s : String} (h : s ∈ typeNames) :
    (s, fieldTypeFromString s) ∈ typeCodes := by
  simp only [typeNames, typeCodes, List.map_cons, List.map_nil, List.mem_cons, List.not_mem_nil,
    or_false] at h
  rcases h with rfl | rfl | rfl | rfl <;> decide

/-- The descriptor says what the specification says, and nothing in the slots behind it. -/
structure Describes (d : RawSchemaDescriptor) (spec : SchemaSpec) : Prop where
  version : d.version = spec.version
  field_count : d.fieldCount.toNat = spec.fields.length
  fields : ∀ i (hi : i < 64) f, spec.fields[i]? = some f →
    d.fieldOffsets[i] = f.offset ∧ (f.type, d.fieldTypes[i]) ∈ typeCodes
  rest : ∀ i (hi : i < 64), spec.fields.length ≤ i → d.fieldOffsets[i] = 0 ∧ d.fieldTypes[i] = 0

/-- What is read from a pushed value describes the specification. -/
theorem describes_pushedValue {spec : SchemaSpec} (hcount : spec.fields.length ≤ 64)
    (htypes : ∀ f ∈ spec.fields, f.type ∈ typeNames) :
    Describes (readDescriptor (pushedValue spec)) spec := by
  have hheader : (buildDescriptor spec).version = spec.version ∧
      (buildDescriptor spec).fieldCount = UInt16.ofNat spec.fields.length :=
    fillFields_header 0 spec.fields _
  have hslot : ∀ j (hj : j < 64),
      (buildDescriptor spec).fieldOffsets[j] = (spec.fields[j]?.map FieldSpec.offset).getD 0 ∧
      (buildDescriptor spec).fieldTypes[j]
        = (spec.fields[j]?.map fun f => fieldTypeFromString f.type).getD 0 := by
    intro j hj
    obtain ⟨hoffset, htype⟩ := fillFields_slot 0 spec.fields ⟨spec.version,
      UInt16.ofNat spec.fields.length, Vector.replicate 64 0, Vector.replicate 64 0⟩ hj
    rw [if_pos (Nat.zero_le j), Nat.sub_zero, Vector.getElem_replicate] at hoffset htype
    exact ⟨hoffset, htype⟩
  rw [readDescriptor_pushedValue]
  refine ⟨hheader.1, ?_, ?_, ?_⟩
  · show (buildDescriptor spec).fieldCount.toNat = spec.fields.length
    rw [hheader.2, UInt16.toNat_ofNat', Nat.mod_eq_of_lt (by omega)]
  · intro i hi f hf
    obtain ⟨hoffset, htype⟩ := hslot i hi
    rw [hf, Option.map_some, Option.getD_some] at hoffset htype
    refine ⟨hoffset, ?_⟩
    show (f.type, (buildDescriptor spec).fieldTypes[i]) ∈ typeCodes
    rw [htype]
    exact fieldTypeFromString_mem (htypes f (List.mem_of_getElem? hf))
  · intro i hi hge
    have hslot := hslot i hi
    rw [List.getElem?_eq_none hge] at hslot
    exact hslot

/-- **Three definitions of the descriptor agree byte for byte.**  The value that a push leaves
in the map is the natural image of the Go structure cut to the packed size, which is the packed
image; the component reads the specification back from it, the kernel its version, and an
update with it installs that specification on every component with an older schema. -/
theorem schema_descriptor_agrees (schemaMap : SchemaMap) (spec : SchemaSpec)
    (hcount : spec.fields.length ≤ 64) (htypes : ∀ f ∈ spec.fields, f.type ∈ typeNames) :
    (naturalOffsets descriptorMembers = [0, 8, 10, 138] ∧
      packedOffsets descriptorMembers = [0, 8, 10, 138] ∧
      packedSize descriptorMembers = descriptorSize) ∧
    ∃ value, pushSchema schemaMap spec spec.tenantID = some value ∧
      value = (naturalImage (descriptorFields (buildDescriptor spec))).take descriptorSize ∧
      value = packedImage (descriptorFields (buildDescriptor spec)) ∧
      storedVersion value = spec.version ∧
      Describes (readDescriptor value) spec ∧
      ∀ c : Component, versionOf c.schema < spec.version.toNat →
        applySchemaUpdate c value = (.ok, { c with
          schema := readDescriptor value
          schemaUpdates := c.schemaUpdates + 1 }) := by
  have hdesc := describes_pushedValue hcount htypes
  refine ⟨⟨by decide, by decide, rfl⟩, pushedValue spec, ?_, ?_, ?_, ?_, hdesc, ?_⟩
  · rw [pushSchema, Function.update_self]
  · rw [← memory_eq_naturalImage]
    rfl
  · exact pushedValue_eq_packedImage spec
  · rw [storedVersion_pushedValue]
    exact (fillFields_header 0 spec.fields _).1
  · intro c hlt
    rcases applySchemaUpdate_cases c (pushedValue spec) with ⟨hbad, -⟩ | ⟨-, hle, -⟩ | ⟨-, -, heq⟩
    · rw [IsDescriptor, pushedValue_length] at hbad
      exact absurd (Nat.le_refl _) hbad
    · rw [versionOf, hdesc.version] at hle
      exact absurd hlt (Nat.not_lt.mpr hle)
    · exact heq

theorem schema_descriptor_agrees_example :
    ∃ value, pushSchema (fun _ => none) exampleSchema 1001 = some value ∧
      Describes (readDescriptor value) exampleSchema := by
  obtain ⟨-, value, hvalue, -, -, -, hdesc, -⟩ :=
    schema_descriptor_agrees (fun _ => none) exampleSchema (by decide) (by decide)
  exact ⟨value, hvalue, hdesc⟩

end NexusCore.Schema
