import NexusCore.Foundation.ByteOrder
import NexusCore.Foundation.Machine
import NexusCore.Foundation.Overlay

/-!
# The control plane's push

`pushSchema` builds a descriptor from a schema specification and puts it into the schema map
under the specification's tenant.  The map is handed a pointer to the descriptor and copies
its own value size from there: the first 202 of the 208 bytes that the structure takes in
memory, where the last six are padding.

`buildTestPayload` fills a buffer of 256 bytes for a specification, an eight-byte header and a
constant for each field; a write that does not fit the buffer panics.
-/

namespace NexusCore.Schema

open Foundation.ByteOrder Foundation.Machine Foundation.Overlay

/-- `FieldSpec`. -/
structure FieldSpec where
  name : String
  type : String
  offset : UInt16
  deriving DecidableEq, Repr

/-- `SchemaSpec`. -/
structure SchemaSpec where
  tenantID : UInt32
  version : UInt64
  fields : List FieldSpec
  deriving DecidableEq, Repr

/-- `SchemaDescriptor` of the control plane. -/
structure SchemaDescriptor where
  version : UInt64
  fieldCount : UInt16
  fieldOffsets : Vector UInt16 64
  fieldTypes : Vector UInt8 64
  deriving DecidableEq, Repr

def fieldTypeFromString (s : String) : UInt8 :=
  if s = "u64" then 0
  else if s = "f64" then 1
  else if s = "bytes" then 2
  else if s = "str" then 3
  else 0

/-- `for i, f := range spec.Fields`, which leaves the loop at the 65th field. -/
def fillFields : ℕ → List FieldSpec → SchemaDescriptor → SchemaDescriptor
  | _, [], sd => sd
  | i, f :: fields, sd =>
      if h : i < 64 then
        fillFields (i + 1) fields { sd with
          fieldOffsets := sd.fieldOffsets.set i f.offset
          fieldTypes := sd.fieldTypes.set i (fieldTypeFromString f.type) }
      else sd

/-- The descriptor that `pushSchema` builds; the count is the length cut to 16 bits. -/
def buildDescriptor (spec : SchemaSpec) : SchemaDescriptor :=
  fillFields 0 spec.fields
    { version := spec.version
      fieldCount := UInt16.ofNat spec.fields.length
      fieldOffsets := Vector.replicate 64 0
      fieldTypes := Vector.replicate 64 0 }

/-- The structure in memory, padded to its alignment. -/
def SchemaDescriptor.memory (sd : SchemaDescriptor) : List UInt8 :=
  u64ToLe sd.version ++ u16ToLe sd.fieldCount ++ sd.fieldOffsets.toList.flatMap u16ToLe ++
    sd.fieldTypes.toList ++ List.replicate 6 0

/-- The map value that a push leaves under the tenant. -/
def pushedValue (spec : SchemaSpec) : List UInt8 := (buildDescriptor spec).memory.take 202

/-- The schema map: values of 202 bytes by tenant. -/
abbrev SchemaMap := UInt32 → Option (List UInt8)

/-- `pushSchema`. -/
def pushSchema (m : SchemaMap) (spec : SchemaSpec) : SchemaMap :=
  Function.update m spec.tenantID (some (pushedValue spec))

/-! ### The specifications that the repository pushes -/

/-- `example_schema.json`. -/
def exampleSchema : SchemaSpec :=
  ⟨1001, 1, [⟨"timestamp", "u64", 0⟩, ⟨"device_id", "u64", 8⟩, ⟨"temp_c", "f64", 16⟩,
    ⟨"location", "str", 24⟩]⟩

/-- `baseFields` of `simulateLiveUpdates`. -/
def baseFields : List FieldSpec :=
  [⟨"timestamp", "u64", 0⟩, ⟨"sensor_id", "u64", 8⟩, ⟨"value", "f64", 16⟩, ⟨"label", "str", 24⟩]

/-- The specifications that `simulateLiveUpdates` pushes, in order. -/
def simulateLiveUpdates (tenantID : UInt32) (count : ℕ) : List SchemaSpec :=
  (List.range count).map fun i =>
    ⟨tenantID, UInt64.ofNat (i + 1), baseFields.take (min (2 + i % 3 + 1) baseFields.length)⟩

/-! ### The test payload -/

/-- `binary.BigEndian.PutUint…(buf[off:], …)`. -/
def putBytes (buf : List UInt8) (off : ℕ) (bs : List UInt8) : Checked (List UInt8) :=
  if off + bs.length ≤ buf.length then .ok (overwrite buf off bs) else .error .bounds

/-- `copy(buf[off:], …)`, which stops at the end of the buffer. -/
def copyBytes (buf : List UInt8) (off : ℕ) (bs : List UInt8) : Checked (List UInt8) :=
  if off ≤ buf.length then .ok (overwrite buf off (bs.take (buf.length - off)))
  else .error .bounds

/-- The `switch f.Type` of `buildTestPayload`; other types are left out. -/
def putTestField (buf : List UInt8) (f : FieldSpec) : Checked (List UInt8) :=
  let off := f.offset.toNat + 8
  if f.type = "u64" then putBytes buf off (beBytes 8 0xDEADBEEFCAFEBABE)
  else if f.type = "f64" then putBytes buf off (beBytes 8 0x400921FB54442D18)
  else if f.type = "str" then do
    let str := "nexuscore".toByteArray.data.toList
    let buf ← putBytes buf off (beBytes 2 str.length)
    copyBytes buf (off + 2) str
  else .ok buf

def putTestFields : List UInt8 → List FieldSpec → Checked (List UInt8)
  | buf, [] => .ok buf
  | buf, f :: fields => do
      let buf ← putTestField buf f
      putTestFields buf fields

def buildTestPayload (spec : SchemaSpec) : Checked (List UInt8) := do
  let buf := List.replicate 256 0
  let buf ← putBytes buf 0 (beBytes 4 spec.tenantID.toNat)
  let buf ← putBytes buf 4 (beBytes 2 buf.length)
  let buf ← store buf 6 0
  let buf ← store buf 7 0
  putTestFields buf spec.fields

/-! ### The size of a pushed value -/

theorem SchemaDescriptor.memory_length (sd : SchemaDescriptor) : sd.memory.length = 208 := by
  have hoffsets : (sd.fieldOffsets.toList.flatMap u16ToLe).length = 128 := by
    rw [List.length_flatMap]
    simp only [u16ToLe_length, List.map_const', List.sum_replicate, Vector.length_toList]
    rfl
  simp only [memory, List.length_append, u64ToLe_length, u16ToLe_length, hoffsets,
    Vector.length_toList, List.length_replicate]

theorem pushedValue_length (spec : SchemaSpec) : (pushedValue spec).length = 202 := by
  rw [pushedValue, List.length_take, SchemaDescriptor.memory_length]
  rfl

end NexusCore.Schema
