import NexusCore.Foundation.ByteOrder
import NexusCore.Foundation.Machine

/-!
# The tenant component

The component holds one schema descriptor and three counters.  `applySchemaUpdate` takes a
raw descriptor and installs it when its version is greater than the current one;
`processFrame` decodes a frame with the current descriptor when the frame's version is the
current one, and rejects it otherwise.

The descriptor is the packed 202-byte record of the source: a 64-bit version, a 16-bit field
count, 64 offsets of 16 bits and 64 type codes of 8 bits, little-endian.  A frame's numbers
are big-endian.  The component is built for release, so its counters wrap.
-/

namespace NexusCore.Schema

open Foundation.Machine Foundation.ByteOrder

/-- `RawSchemaDescriptor`. -/
structure RawSchemaDescriptor where
  version : UInt64
  fieldCount : UInt16
  fieldOffsets : Vector UInt16 64
  fieldTypes : Vector UInt8 64
  deriving DecidableEq, Repr

/-- `size_of::<RawSchemaDescriptor>()`. -/
def descriptorSize : ℕ := 202

/-- `read_unaligned` of a packed descriptor. -/
def readDescriptor (raw : List UInt8) : RawSchemaDescriptor where
  version := u64FromLe (raw.take 8)
  fieldCount := u16FromLe ((raw.drop 8).take 2)
  fieldOffsets := Vector.ofFn fun i => u16FromLe ((raw.drop (10 + 2 * i.val)).take 2)
  fieldTypes := Vector.ofFn fun i => raw.getD (138 + i.val) 0

/-- `SCHEMA` as it is initialised. -/
def emptySchema : RawSchemaDescriptor := ⟨0, 0, Vector.replicate 64 0, Vector.replicate 64 0⟩

/-- `FieldValue`; a float is its 64 bits. -/
inductive FieldValue
  | u64Val (v : UInt64)
  | f64Val (bits : UInt64)
  | bytesVal (bs : List UInt8)
  | strVal (s : String)
  | unknown
  deriving DecidableEq, Repr

/-- `SchemaResult`. -/
inductive SchemaResult
  | ok
  | staleUpdate
  | invalidDescriptor
  | versionConflict (version : UInt64)
  deriving DecidableEq, Repr

/-- The static variables of the component. -/
structure Component where
  schema : RawSchemaDescriptor
  processed : UInt64
  errors : UInt64
  schemaUpdates : UInt64
  deriving DecidableEq, Repr

def Component.init : Component := ⟨emptySchema, 0, 0, 0⟩

/-! ### Schema updates -/

def applySchemaUpdate (c : Component) (raw : List UInt8) : SchemaResult × Component :=
  if raw.length < descriptorSize then (.invalidDescriptor, c)
  else
    let newSchema := readDescriptor raw
    if newSchema.version ≤ c.schema.version then (.staleUpdate, c)
    else (.ok, { c with schema := newSchema, schemaUpdates := c.schemaUpdates + 1 })

/-! ### Frames -/

/-- A 16-bit length at `offset` and the bytes after it, when they lie in the frame. -/
def lengthPrefixed (frame : List UInt8) (offset : ℕ) (wrap : List UInt8 → FieldValue) :
    Checked FieldValue := do
  let hi ← index frame offset
  let lo ← index frame (offset + 1)
  let stop := offset + 2 + (u16FromBe [hi, lo]).toNat
  if stop ≤ frame.length then do
    let bytes ← slice frame (offset + 2) stop
    .ok (wrap bytes)
  else .ok .unknown

/-- `str::from_utf8`, with `Unknown` for an error. -/
def strValue (bytes : List UInt8) : FieldValue :=
  match String.fromUTF8? ⟨bytes.toArray⟩ with
  | some s => .strVal s
  | none => .unknown

/-- The `match ftype` of `process_frame`. -/
def decodeField (frame : List UInt8) (offset : ℕ) (ftype : UInt8) : Checked FieldValue :=
  if ftype = 0 ∧ offset + 8 ≤ frame.length then do
    let buf ← slice frame offset (offset + 8)
    .ok (.u64Val (u64FromBe buf))
  else if ftype = 1 ∧ offset + 8 ≤ frame.length then do
    let buf ← slice frame offset (offset + 8)
    .ok (.f64Val (u64FromBe buf))
  else if ftype = 2 ∧ offset + 2 ≤ frame.length then lengthPrefixed frame offset .bytesVal
  else if ftype = 3 ∧ offset + 2 ≤ frame.length then lengthPrefixed frame offset strValue
  else .ok .unknown

/-- What is left of `for i in 0..field_count`: `k` fields from `i` on. -/
def decodeFields (d : RawSchemaDescriptor) (frame : List UInt8) :
    ℕ → ℕ → Checked (List FieldValue)
  | 0, _ => .ok []
  | k + 1, i => do
      let offset ← index d.fieldOffsets.toList i
      let ftype ← index d.fieldTypes.toList i
      let value ← decodeField frame offset.toNat ftype
      let fields ← decodeFields d frame k (i + 1)
      .ok (value :: fields)

def processFrame (c : Component) (frame : List UInt8) (schemaVersion : UInt64) :
    Checked (List FieldValue × Component) :=
  if schemaVersion ≠ c.schema.version then .ok ([], { c with errors := c.errors + 1 })
  else do
    let fields ← decodeFields c.schema frame c.schema.fieldCount.toNat 0
    .ok (fields, { c with processed := c.processed + 1 })

/-! ### Calls in any order -/

/-- A call into the component. -/
inductive Call
  | applySchemaUpdate (raw : List UInt8)
  | processFrame (frame : List UInt8) (schemaVersion : UInt64)
  deriving DecidableEq, Repr

inductive Reply
  | update (r : SchemaResult)
  | fields (vs : List FieldValue)
  deriving DecidableEq, Repr

def Component.call (c : Component) : Call → Checked (Reply × Component)
  | .applySchemaUpdate raw => .ok (.update (applySchemaUpdate c raw).1, (applySchemaUpdate c raw).2)
  | .processFrame frame schemaVersion => do
      let (vs, c) ← processFrame c frame schemaVersion
      .ok (.fields vs, c)

/-- A sequence of calls, with the reply to each. -/
def runCalls : Component → List Call → Checked (List Reply × Component)
  | c, [] => .ok ([], c)
  | c, call :: calls => do
      let (reply, c) ← c.call call
      let (replies, c) ← runCalls c calls
      .ok (reply :: replies, c)

end NexusCore.Schema
