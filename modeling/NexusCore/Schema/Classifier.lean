import NexusCore.Schema.ControlPlane

/-!
# The packet classifier

`nexuscoreClassify` parses an Ethernet, IPv4 and UDP packet to port 9900 down to the
eight-byte tenant header, looks the tenant up in the schema map and stamps the packet's
metadata with the version stored there.

The checks against `data_end` are comparisons of lengths; a field is read only behind the
check of its header.  Whether the driver grants the metadata area is an input.
-/

namespace NexusCore.Schema

open Foundation.ByteOrder

inductive XdpAction
  | drop
  | pass
  deriving DecidableEq, Repr

/-- `struct nexuscore_meta`. -/
structure NexuscoreMeta where
  schemaVersion : UInt64
  tenantId : UInt32
  pad : UInt32
  deriving DecidableEq, Repr

/-- What the classifier leaves: the action, the metadata if it stamped any, and the slot of
the packet counters that it raised. -/
structure Verdict where
  action : XdpAction
  stamp : Option NexuscoreMeta
  counted : Option UInt32
  deriving DecidableEq, Repr

def Verdict.drop : Verdict := ⟨.drop, none, none⟩

def Verdict.pass : Verdict := ⟨.pass, none, none⟩

/-- A big-endian 16-bit field. -/
def be16At (data : List UInt8) (off : ℕ) : UInt16 := u16FromBe ((data.drop off).take 2)

/-- A big-endian 32-bit field. -/
def be32At (data : List UInt8) (off : ℕ) : UInt32 := u32FromBe ((data.drop off).take 4)

/-- `iph->ihl`, the low half of the first header byte. -/
def ihl (data : List UInt8) : ℕ := (data.getD 14 0).toNat % 16

/-- `sd->version` of a map value. -/
def storedVersion (value : List UInt8) : UInt64 := u64FromLe (value.take 8)

/-- The last part, behind the tenant header: look the tenant up and stamp. -/
def stampTenant (schemaMap : SchemaMap) (metaGranted : Bool) (tenantId : UInt32) : Verdict :=
  match schemaMap tenantId with
  | none => .pass
  | some value =>
      if metaGranted then
        ⟨.pass, some ⟨storedVersion value, tenantId, 0⟩, some (tenantId &&& 0xFF)⟩
      else .pass

/-- `nexuscore_classify`. -/
def nexuscoreClassify (schemaMap : SchemaMap) (metaGranted : Bool) (data : List UInt8) : Verdict :=
  if data.length < 14 then .drop
  else if be16At data 12 ≠ 0x0800 then .pass
  else if data.length < 34 then .drop
  else if data.getD 23 0 ≠ 17 then .pass
  else
    let udph := 14 + ihl data * 4
    if data.length < udph + 8 then .drop
    else if be16At data (udph + 2) ≠ 9900 then .pass
    else
      let hdr := udph + 8
      if data.length < hdr + 8 then .drop
      else stampTenant schemaMap metaGranted (be32At data hdr)

/-- A check that gives up without a stamp was passed by every stamped packet. -/
theorem stamp_of_check {check : Prop} [Decidable check] {giveUp rest : Verdict} {mt : NexuscoreMeta}
    (hnone : giveUp.stamp = none) (h : (if check then giveUp else rest).stamp = some mt) :
    ¬ check ∧ rest.stamp = some mt := by
  by_cases hc : check
  · rw [if_pos hc, hnone] at h
    cases h
  · rw [if_neg hc] at h
    exact ⟨hc, h⟩

theorem stamp_of_stampTenant {schemaMap : SchemaMap} {metaGranted : Bool} {tenantId : UInt32}
    {mt : NexuscoreMeta} (h : (stampTenant schemaMap metaGranted tenantId).stamp = some mt) :
    ∃ value, schemaMap mt.tenantId = some value ∧ mt.schemaVersion = storedVersion value := by
  unfold stampTenant at h
  cases hmap : schemaMap tenantId with
  | none =>
      rw [hmap] at h
      cases h
  | some value =>
      rw [hmap] at h
      cases metaGranted with
      | false => cases h
      | true =>
          cases h
          exact ⟨value, hmap, rfl⟩

/-- **What a stamp says**: it names a tenant of the map and the version stored for it. -/
theorem stamp_of_classify {schemaMap : SchemaMap} {metaGranted : Bool} {data : List UInt8}
    {mt : NexuscoreMeta} (h : (nexuscoreClassify schemaMap metaGranted data).stamp = some mt) :
    ∃ value, schemaMap mt.tenantId = some value ∧ mt.schemaVersion = storedVersion value := by
  obtain ⟨-, h⟩ := stamp_of_check rfl h
  obtain ⟨-, h⟩ := stamp_of_check rfl h
  obtain ⟨-, h⟩ := stamp_of_check rfl h
  obtain ⟨-, h⟩ := stamp_of_check rfl h
  obtain ⟨-, h⟩ := stamp_of_check rfl h
  obtain ⟨-, h⟩ := stamp_of_check rfl h
  obtain ⟨-, h⟩ := stamp_of_check rfl h
  exact stamp_of_stampTenant h

/-! ### A packet of a tenant -/

/-- The smallest packet to a tenant: no IP options, no payload. -/
def tenantPacket (tenantId : UInt32) : List UInt8 :=
  List.replicate 12 0 ++ [8, 0] ++ (0x45 :: List.replicate 8 0 ++ [17] ++ List.replicate 10 0) ++
    [0, 0, 0x26, 0xAC, 0, 16, 0, 0] ++ beBytes 4 tenantId.toNat ++ [0, 0, 0, 0]

theorem classify_tenantPacket (schemaMap : SchemaMap) (tenantId : UInt32) :
    nexuscoreClassify schemaMap true (tenantPacket tenantId)
      = stampTenant schemaMap true tenantId := by
  have hid : be32At (tenantPacket tenantId) 42 = tenantId := by
    show u32FromBe (beBytes 4 tenantId.toNat) = tenantId
    rw [u32FromBe, beValue_beBytes 4 _ tenantId.toNat_lt, UInt32.ofNat_toNat]
  have hlen : (tenantPacket tenantId).length = 50 := by
    simp [tenantPacket]
  have hihl : ihl (tenantPacket tenantId) = 5 := by
    have hfirst : (tenantPacket tenantId).getD 14 0 = 0x45 := rfl
    rw [ihl, hfirst]
    rfl
  have htype : ¬ be16At (tenantPacket tenantId) 12 ≠ 0x0800 := by
    rw [not_not]
    rfl
  have hproto : ¬ (tenantPacket tenantId).getD 23 0 ≠ 17 := by
    rw [not_not]
    rfl
  have hport : ¬ be16At (tenantPacket tenantId) (14 + 5 * 4 + 2) ≠ 9900 := by
    rw [not_not]
    rfl
  simp only [nexuscoreClassify, hlen, hihl, if_neg htype, if_neg hproto, if_neg hport, hid]
  rfl

end NexusCore.Schema
