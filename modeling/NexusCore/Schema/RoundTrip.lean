import NexusCore.Foundation.Overlay
import NexusCore.Schema.Descriptor
import NexusCore.Schema.Traps

/-!
# Decoding undoes encoding

A frame carries typed values at the offsets of a schema: eight big-endian bytes, or a
big-endian length and the bytes it counts.

* `decodeField_of_shows`: a field whose encoding stands in the frame decodes to its value;
* `processFrame_overlay`: values written apart from each other decode to themselves;
* `processFrame_testPayload`: the control plane's test payload is such a frame behind its header;
* `frame_decoding_inverts`: both directions of the path.
-/

namespace NexusCore.Schema

open Foundation.Machine Foundation.ByteOrder Foundation.Overlay

/-! ### Typed values and their encodings -/

/-- A value that a field can carry; a length fits its two bytes. -/
inductive TypedValue
  | u64 (v : UInt64)
  | f64 (bits : UInt64)
  | bytes (bs : List UInt8) (short : bs.length ≤ 65535)
  | str (s : String) (short : s.toByteArray.data.toList.length ≤ 65535)

namespace TypedValue

/-- The bytes behind a length, or the eight bytes of a number. -/
def encode : TypedValue → List UInt8
  | u64 v => beBytes 8 v.toNat
  | f64 bits => beBytes 8 bits.toNat
  | bytes bs _ => beBytes 2 bs.length ++ bs
  | str s _ => beBytes 2 s.toByteArray.data.toList.length ++ s.toByteArray.data.toList

/-- The type code that a schema gives the field. -/
def typeCode : TypedValue → UInt8
  | u64 _ => 0
  | f64 _ => 1
  | bytes _ _ => 2
  | str _ _ => 3

/-- The value as the component answers it. -/
def fieldValue : TypedValue → FieldValue
  | u64 v => .u64Val v
  | f64 bits => .f64Val bits
  | bytes bs _ => .bytesVal bs
  | str s _ => .strVal s

end TypedValue

theorem u64FromBe_beBytes (v : UInt64) : u64FromBe (beBytes 8 v.toNat) = v := by
  rw [u64FromBe, beValue_beBytes 8 _ v.toNat_lt, UInt64.ofNat_toNat]

theorem u16FromBe_beBytes {n : ℕ} (h : n ≤ 65535) : (u16FromBe (beBytes 2 n)).toNat = n := by
  rw [u16FromBe, beValue_beBytes 2 _ (by omega), UInt16.toNat_ofNat', Nat.mod_eq_of_lt (by omega)]

/-- The bytes of a string are read as that string. -/
theorem strValue_toByteArray (s : String) : strValue s.toByteArray.data.toList = .strVal s := by
  have hvalid : String.fromUTF8? ⟨s.toByteArray.data.toList.toArray⟩ = some s := by
    rw [Array.toArray_toList]
    exact dif_pos s.isValidUTF8
  rw [strValue, hvalid]

/-! ### One field -/

/-- A slice over what stands in a frame. -/
theorem slice_of_shows {frame bs : List UInt8} {pos stop : ℕ} (h : Shows frame pos bs)
    (hin : pos + bs.length ≤ frame.length) (hstop : stop = pos + bs.length) :
    slice frame pos stop = .ok bs :=
  slice_append (h.append hin) (by rw [List.length_take]; omega) hstop

/-- A length and its bytes, standing in a frame, are read. -/
theorem lengthPrefixed_of_shows {frame bs : List UInt8} {pos : ℕ} (hshort : bs.length ≤ 65535)
    (h : Shows frame pos (beBytes 2 bs.length ++ bs))
    (hin : pos + (beBytes 2 bs.length ++ bs).length ≤ frame.length)
    (wrap : List UInt8 → FieldValue) : lengthPrefixed frame pos wrap = .ok (wrap bs) := by
  obtain ⟨hi, lo, hpair⟩ : ∃ hi lo, beBytes 2 bs.length = [hi, lo] :=
    List.length_eq_two.mp (beBytes_length 2 bs.length)
  have hlen := u16FromBe_beBytes hshort
  rw [hpair] at h hin hlen
  simp only [List.length_append, List.length_cons, List.length_nil] at hin
  have hhi : index frame pos = .ok hi := by
    have hget := h 0 (by simp)
    rw [index, ← Nat.add_zero pos, hget]
    rfl
  have hlo : index frame (pos + 1) = .ok lo := by
    have hget := h 1 (by simp)
    rw [index, hget]
    rfl
  have hbody : Shows frame (pos + 2) bs := h.right
  rw [lengthPrefixed, hhi, ok_bind, hlo, ok_bind]
  simp only [hlen]
  rw [if_pos (by omega), slice_of_shows hbody (by omega) rfl, ok_bind]

/-- **A field whose encoding stands in the frame decodes to its value.** -/
theorem decodeField_of_shows {frame : List UInt8} {pos : ℕ} (v : TypedValue)
    (h : Shows frame pos v.encode) (hin : pos + v.encode.length ≤ frame.length) :
    decodeField frame pos v.typeCode = .ok v.fieldValue := by
  cases v with
  | u64 v =>
      have hlen : (TypedValue.u64 v).encode.length = 8 := beBytes_length 8 _
      show decodeField frame pos 0 = _
      rw [decodeField, if_pos ⟨rfl, by omega⟩, slice_of_shows h hin (by omega), ok_bind]
      exact congrArg (fun x => Except.ok (FieldValue.u64Val x)) (u64FromBe_beBytes v)
  | f64 bits =>
      have hlen : (TypedValue.f64 bits).encode.length = 8 := beBytes_length 8 _
      show decodeField frame pos 1 = _
      rw [decodeField, if_neg (fun hc => absurd hc.1 (by decide)), if_pos ⟨rfl, by omega⟩,
        slice_of_shows h hin (by omega), ok_bind]
      exact congrArg (fun x => Except.ok (FieldValue.f64Val x)) (u64FromBe_beBytes bits)
  | bytes bs short =>
      have hlen : (TypedValue.bytes bs short).encode.length = 2 + bs.length := by
        rw [TypedValue.encode, List.length_append, beBytes_length]
      show decodeField frame pos 2 = _
      rw [decodeField, if_neg (fun hc => absurd hc.1 (by decide)),
        if_neg (fun hc => absurd hc.1 (by decide)), if_pos ⟨rfl, by omega⟩]
      exact lengthPrefixed_of_shows short h hin _
  | str s short =>
      have hlen : (TypedValue.str s short).encode.length
          = 2 + s.toByteArray.data.toList.length := by
        rw [TypedValue.encode, List.length_append, beBytes_length]
      show decodeField frame pos 3 = _
      rw [decodeField, if_neg (fun hc => absurd hc.1 (by decide)),
        if_neg (fun hc => absurd hc.1 (by decide)), if_neg (fun hc => absurd hc.1 (by decide)),
        if_pos ⟨rfl, by omega⟩, lengthPrefixed_of_shows short h hin strValue,
        strValue_toByteArray]
      rfl

/-! ### All fields of a schema -/

/-- A value and the offset a schema gives it. -/
structure Placement where
  offset : UInt16
  value : TypedValue

/-- The write that puts the value into a frame. -/
def Placement.write (q : Placement) : ℕ × List UInt8 := (q.offset.toNat, q.value.encode)

/-- The schema lists the placements, in order. -/
structure Lists (d : RawSchemaDescriptor) (qs : List Placement) : Prop where
  count_le : qs.length ≤ 64
  field_count : d.fieldCount.toNat = qs.length
  slots : ∀ i (hi : i < 64) q, qs[i]? = some q →
    d.fieldOffsets[i] = q.offset ∧ d.fieldTypes[i] = q.value.typeCode

/-- The fields from `i` on, when every encoding stands in the frame. -/
theorem decodeFields_of_shows {d : RawSchemaDescriptor} {all : List Placement}
    (hd : Lists d all) {frame : List UInt8}
    (hin : ∀ q ∈ all, q.offset.toNat + q.value.encode.length ≤ frame.length)
    (hshows : ∀ q ∈ all, Shows frame q.offset.toNat q.value.encode) (qs : List Placement) (i : ℕ)
    (hqs : all.drop i = qs) :
    decodeFields d frame qs.length i = .ok (qs.map fun q => q.value.fieldValue) := by
  induction qs generalizing i with
  | nil => rfl
  | cons q qs ih =>
      have hget : all[i]? = some q := by
        have hhead := congrArg (fun l : List Placement => l[0]?) hqs
        simpa using hhead
      have hi : i < all.length := (List.getElem?_eq_some_iff.mp hget).1
      have hi64 : i < 64 := Nat.lt_of_lt_of_le hi hd.count_le
      have hq : q ∈ all := List.mem_of_getElem? hget
      obtain ⟨hoffset, htype⟩ := hd.slots i hi64 q hget
      have htail : all.drop (i + 1) = qs := by
        rw [← List.tail_drop, hqs, List.tail_cons]
      rw [List.length_cons, decodeFields, index_vector _ hi64, ok_bind, index_vector _ hi64,
        ok_bind, hoffset, htype, decodeField_of_shows q.value (hshows q hq) (hin q hq), ok_bind,
        ih (i + 1) htail, ok_bind, List.map_cons]

/-- A frame in which every encoding stands decodes to the values. -/
theorem processFrame_of_shows {c : Component} {qs : List Placement} (hd : Lists c.schema qs)
    {frame : List UInt8}
    (hin : ∀ q ∈ qs, q.offset.toNat + q.value.encode.length ≤ frame.length)
    (hshows : ∀ q ∈ qs, Shows frame q.offset.toNat q.value.encode) :
    processFrame c frame c.schema.version
      = .ok (qs.map fun q => q.value.fieldValue, { c with processed := c.processed + 1 }) := by
  rw [processFrame, if_neg (not_not.mpr rfl), hd.field_count,
    decodeFields_of_shows hd hin hshows qs 0 rfl, ok_bind]

/-- The encodings lie inside the frame. -/
def FitsFrame (qs : List Placement) (n : ℕ) : Prop := InRange n (qs.map Placement.write)

/-- The encodings do not meet. -/
def DisjointRanges (qs : List Placement) : Prop :=
  (qs.map Placement.write).Pairwise fun v w => Apart (extent v) (extent w)

/-- **Values written apart from each other decode to themselves**, whatever the frame held. -/
theorem processFrame_overlay {c : Component} {qs : List Placement} (hd : Lists c.schema qs)
    {base : List UInt8} (hin : FitsFrame qs base.length) (hdisj : DisjointRanges qs) :
    processFrame c (overlay base (qs.map Placement.write)) c.schema.version
      = .ok (qs.map fun q => q.value.fieldValue, { c with processed := c.processed + 1 }) := by
  apply processFrame_of_shows hd
  · intro q hq
    rw [overlay_length hin]
    exact hin _ (List.mem_map_of_mem hq)
  · intro q hq
    exact shows_overlay hin hdisj _ (List.mem_map_of_mem hq)

/-! ### The test payload -/

/-- The types that the test payload writes a constant for. -/
def testNames : List String := ["u64", "f64", "str"]

/-- The constant of a type. -/
def testValue (type : String) : TypedValue :=
  if type = "u64" then .u64 0xDEADBEEFCAFEBABE
  else if type = "f64" then .f64 0x400921FB54442D18
  else .str "nexuscore" (by decide)

/-- The constants at the offsets of the specification. -/
def testPlacements (spec : SchemaSpec) : List Placement :=
  spec.fields.map fun f => ⟨f.offset, testValue f.type⟩

/-- The writes into the buffer, behind its header. -/
def testWrites (fields : List FieldSpec) : List (ℕ × List UInt8) :=
  fields.map fun f => (f.offset.toNat + 8, (testValue f.type).encode)

/-- **One field of the payload** is one write. -/
theorem putTestField_eq {buf : List UInt8} {f : FieldSpec} (htype : f.type ∈ testNames)
    (hin : f.offset.toNat + 8 + (testValue f.type).encode.length ≤ buf.length) :
    putTestField buf f = .ok (overwrite buf (f.offset.toNat + 8) (testValue f.type).encode) := by
  simp only [testNames, List.mem_cons, List.not_mem_nil, or_false] at htype
  rcases htype with h | h | h
  · rw [h] at hin ⊢
    rw [putTestField, if_pos h]
    exact if_pos hin
  · rw [h] at hin ⊢
    rw [putTestField, if_neg (by rw [h]; decide), if_pos h]
    exact if_pos hin
  · rw [h] at hin ⊢
    rw [putTestField, if_neg (by rw [h]; decide), if_neg (by rw [h]; decide), if_pos h]
    have hstr : "nexuscore".toByteArray.data.toList.length = 9 := by decide
    have hlen : (beBytes 2 "nexuscore".toByteArray.data.toList.length).length = 2 :=
      beBytes_length 2 _
    have hencode : (testValue "str").encode
        = beBytes 2 "nexuscore".toByteArray.data.toList.length
          ++ "nexuscore".toByteArray.data.toList := rfl
    rw [hencode, List.length_append, hlen, hstr] at hin
    have hput : f.offset.toNat + 8
        + (beBytes 2 "nexuscore".toByteArray.data.toList.length).length ≤ buf.length := by omega
    have hroom := overwrite_length hput
    simp only [putBytes]
    rw [if_pos hput, ok_bind, copyBytes, if_pos (by omega), List.take_of_length_le (by omega),
      hencode, ← overwrite_overwrite (by omega), hlen]

theorem putTestFields_eq {fields : List FieldSpec} {buf : List UInt8}
    (htypes : ∀ f ∈ fields, f.type ∈ testNames) (hin : InRange buf.length (testWrites fields)) :
    putTestFields buf fields = .ok (overlay buf (testWrites fields)) := by
  induction fields generalizing buf with
  | nil => rfl
  | cons f fields ih =>
      have hf := hin _ (List.mem_cons_self (a := (f.offset.toNat + 8, (testValue f.type).encode)))
      have hlen := overwrite_length hf
      rw [putTestFields, putTestField_eq (htypes f (by simp)) hf, ok_bind,
        ih (fun f' hf' => htypes f' (by simp [hf'])) (by
          rw [hlen]
          exact fun w hw => hin w (List.mem_cons_of_mem _ hw))]
      rfl

/-- The header is written into the first eight bytes of the buffer. -/
theorem buildTestPayload_header (spec : SchemaSpec) :
    ∃ header : List UInt8, header.length = 256 ∧
      buildTestPayload spec = putTestFields header spec.fields := by
  have h₀ : (List.replicate 256 (0 : UInt8)).length = 256 := List.length_replicate
  have h₁ : 0 + (beBytes 4 spec.tenantID.toNat).length
      ≤ (List.replicate 256 (0 : UInt8)).length := by
    rw [beBytes_length, h₀]
    decide
  have l₁ := overwrite_length h₁
  let b₁ := overwrite (List.replicate 256 0) 0 (beBytes 4 spec.tenantID.toNat)
  have h₂ : 4 + (beBytes 2 b₁.length).length ≤ b₁.length := by
    rw [beBytes_length, l₁, h₀]
    decide
  have l₂ := overwrite_length h₂
  let b₂ := overwrite b₁ 4 (beBytes 2 b₁.length)
  have l₂' : b₂.length = 256 := l₂.trans (l₁.trans h₀)
  refine ⟨(b₂.set 6 0).set 7 0, by rw [List.length_set, List.length_set, l₂'], ?_⟩
  have hput₁ : putBytes (List.replicate 256 0) 0 (beBytes 4 spec.tenantID.toNat) = .ok b₁ :=
    if_pos h₁
  have hput₂ : putBytes b₁ 4 (beBytes 2 b₁.length) = .ok b₂ := if_pos h₂
  have hset₁ : store b₂ 6 0 = .ok (b₂.set 6 0) := store_of_lt _ (by omega)
  have hset₂ : store (b₂.set 6 0) 7 0 = .ok ((b₂.set 6 0).set 7 0) :=
    store_of_lt _ (by rw [List.length_set]; omega)
  simp only [buildTestPayload, hput₁, ok_bind, hput₂, hset₁, hset₂]

/-- Every constant takes eight bytes at least. -/
theorem testValue_length (type : String) : 8 ≤ (testValue type).encode.length := by
  unfold testValue
  split
  · exact Nat.le_of_eq (beBytes_length 8 _).symm
  · split
    · exact Nat.le_of_eq (beBytes_length 8 _).symm
    · decide

/-- The code of a constant is the code of its type. -/
theorem testValue_typeCode {type : String} {code : UInt8} (htype : type ∈ testNames)
    (hcode : (type, code) ∈ typeCodes) : code = (testValue type).typeCode := by
  simp only [testNames, List.mem_cons, List.not_mem_nil, or_false] at htype
  simp only [typeCodes, List.mem_cons, Prod.mk.injEq, List.not_mem_nil, or_false] at hcode
  rcases htype with rfl | rfl | rfl <;> simpa [testValue, TypedValue.typeCode] using hcode

/-- A payload that has room for all constants has few fields. -/
theorem testPlacements_length_le {spec : SchemaSpec} (hin : FitsFrame (testPlacements spec) 248)
    (hdisj : DisjointRanges (testPlacements spec)) : spec.fields.length ≤ 31 := by
  have hapart : (((testPlacements spec).map Placement.write).map extent).Pairwise Apart := by
    rw [List.pairwise_map]
    exact hdisj
  have hsum := sum_length_le hapart (n := 248) (by
    intro r hr
    obtain ⟨w, hw, rfl⟩ := List.mem_map.mp hr
    exact hin w hw)
  have hmin := List.card_nsmul_le_sum
    ((((testPlacements spec).map Placement.write).map extent).map Prod.snd) 8 (by
      intro n hn
      simp only [testPlacements, List.mem_map] at hn
      obtain ⟨r, ⟨w, ⟨q, ⟨f, -, rfl⟩, rfl⟩, rfl⟩, rfl⟩ := hn
      exact testValue_length f.type)
  simp only [testPlacements, List.length_map, smul_eq_mul] at hmin hsum
  omega

/-- A schema that describes the specification lists the constants. -/
theorem lists_testPlacements {d : RawSchemaDescriptor} {spec : SchemaSpec} (hd : Describes d spec)
    (htypes : ∀ f ∈ spec.fields, f.type ∈ testNames) (hcount : spec.fields.length ≤ 64) :
    Lists d (testPlacements spec) where
  count_le := by rwa [testPlacements, List.length_map]
  field_count := by rw [hd.field_count, testPlacements, List.length_map]
  slots := by
    intro i hi q hq
    rw [testPlacements, List.getElem?_map, Option.map_eq_some_iff] at hq
    obtain ⟨f, hf, rfl⟩ := hq
    obtain ⟨hoffset, hcode⟩ := hd.fields i hi f hf
    exact ⟨hoffset, testValue_typeCode (htypes f (List.mem_of_getElem? hf)) hcode⟩

/-- **The test payload decodes to its constants** behind the header. -/
theorem processFrame_testPayload {c : Component} {spec : SchemaSpec}
    (hd : Describes c.schema spec) (htypes : ∀ f ∈ spec.fields, f.type ∈ testNames)
    (hin : FitsFrame (testPlacements spec) 248) (hdisj : DisjointRanges (testPlacements spec)) :
    ∃ buf, buildTestPayload spec = .ok buf ∧
      processFrame c (buf.drop 8) c.schema.version
        = .ok (spec.fields.map fun f => (testValue f.type).fieldValue,
            { c with processed := c.processed + 1 }) := by
  obtain ⟨header, hlen, hbuild⟩ := buildTestPayload_header spec
  have hroom : ∀ f ∈ spec.fields, f.offset.toNat + (testValue f.type).encode.length ≤ 248 :=
    fun f hf => hin _ (List.mem_map_of_mem (List.mem_map_of_mem hf))
  have hwrites : InRange header.length (testWrites spec.fields) := by
    intro w hw
    obtain ⟨f, hf, rfl⟩ := List.mem_map.mp hw
    have hle := hroom f hf
    show f.offset.toNat + 8 + (testValue f.type).encode.length ≤ header.length
    omega
  have hapart : (testWrites spec.fields).Pairwise fun v w => Apart (extent v) (extent w) := by
    rw [DisjointRanges, testPlacements, List.map_map, List.pairwise_map] at hdisj
    rw [testWrites, List.pairwise_map]
    apply hdisj.imp
    intro f f' hff
    simp only [Apart, extent, Function.comp_apply, Placement.write] at hff ⊢
    omega
  have hbuf : (overlay header (testWrites spec.fields)).length = 256 :=
    (overlay_length hwrites).trans hlen
  refine ⟨_, hbuild.trans (putTestFields_eq htypes hwrites), ?_⟩
  have hlists := lists_testPlacements hd htypes
    (Nat.le_trans (testPlacements_length_le hin hdisj) (by decide))
  rw [processFrame_of_shows hlists]
  · rw [testPlacements, List.map_map]
    rfl
  · intro q hq
    obtain ⟨f, hf, rfl⟩ := List.mem_map.mp hq
    have hle := hroom f hf
    rw [List.length_drop, hbuf]
    show f.offset.toNat + (testValue f.type).encode.length ≤ 256 - 8
    omega
  · intro q hq
    obtain ⟨f, hf, rfl⟩ := List.mem_map.mp hq
    exact (shows_overlay hwrites hapart _ (List.mem_map_of_mem hf)).drop

/-! ### Both directions -/

/-- **Decoding undoes encoding.**  Typed values whose encodings lie apart from each other in a
frame, whatever else it holds, are answered in the order of the schema; and so are the
constants of a test payload, for every specification that has room for them. -/
theorem frame_decoding_inverts :
    (∀ (c : Component) (qs : List Placement) (base : List UInt8), Lists c.schema qs →
      FitsFrame qs base.length → DisjointRanges qs →
      processFrame c (overlay base (qs.map Placement.write)) c.schema.version
        = .ok (qs.map fun q => q.value.fieldValue, { c with processed := c.processed + 1 })) ∧
    (∀ (c : Component) (spec : SchemaSpec), Describes c.schema spec →
      (∀ f ∈ spec.fields, f.type ∈ testNames) → FitsFrame (testPlacements spec) 248 →
      DisjointRanges (testPlacements spec) →
      ∃ buf, buildTestPayload spec = .ok buf ∧
        processFrame c (buf.drop 8) c.schema.version
          = .ok (spec.fields.map fun f => (testValue f.type).fieldValue,
              { c with processed := c.processed + 1 })) :=
  ⟨fun _ _ _ hd hin hdisj => processFrame_overlay hd hin hdisj,
    fun _ _ hd htypes hin hdisj => processFrame_testPayload hd htypes hin hdisj⟩

/-- The example specification, pushed, installed and fed its own test payload. -/
theorem frame_decoding_inverts_example :
    ∃ buf, buildTestPayload exampleSchema = .ok buf ∧
      processFrame ⟨readDescriptor (pushedValue exampleSchema), 0, 0, 1⟩ (buf.drop 8)
        (readDescriptor (pushedValue exampleSchema)).version
          = .ok ([.u64Val 0xDEADBEEFCAFEBABE, .u64Val 0xDEADBEEFCAFEBABE,
              .f64Val 0x400921FB54442D18, .strVal "nexuscore"],
            ⟨readDescriptor (pushedValue exampleSchema), 1, 0, 1⟩) :=
  frame_decoding_inverts.2 ⟨readDescriptor (pushedValue exampleSchema), 0, 0, 1⟩ exampleSchema
    (describes_pushedValue (by decide) (by decide)) (by decide)
    (by unfold FitsFrame InRange; decide) (by unfold DisjointRanges; decide)

end NexusCore.Schema
