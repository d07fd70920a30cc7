import NexusCore.Schema.Classifier

/-!
# The grammar of the classified packets

`InGrammar` is the packet that the classifier is for: Ethernet, IPv4 with a header of at least
five words, UDP to port 9900, and the tenant header.  `nexuscoreReads` lists the fields that
the classifier looks at on its way, with their places; `classify_of_same_reads` says that the
verdict depends on nothing else.

`KeepsGrammar` collects what is wanted for one packet: a stamp for the packets of the grammar
and no others, port and tenant taken from behind the IP header, and no drop but for a packet
that ends too early.  The parser has no lower bound for the length of the IP header, and
`keepsGrammar_iff` says which packets it treats as wanted.
-/

namespace NexusCore.Schema

open Foundation.ByteOrder

/-! ### The fields that are read -/

inductive PacketField
  | etherType
  | protocol
  | ihl
  | port
  | tenantId
  deriving DecidableEq, Repr

/-- A field and its place in the packet. -/
structure FieldRead where
  field : PacketField
  off : ℕ
  len : ℕ
  deriving DecidableEq, Repr

/-- What `nexuscore_classify` reads of a packet, check by check. -/
def nexuscoreReads (data : List UInt8) : List FieldRead :=
  if data.length < 14 then []
  else ⟨.etherType, 12, 2⟩ ::
    if be16At data 12 ≠ 0x0800 then []
    else if data.length < 34 then []
    else ⟨.protocol, 23, 1⟩ ::
      if data.getD 23 0 ≠ 17 then []
      else ⟨.ihl, 14, 1⟩ ::
        let udph := 14 + ihl data * 4
        if data.length < udph + 8 then []
        else ⟨.port, udph + 2, 2⟩ ::
          if be16At data (udph + 2) ≠ 9900 then []
          else
            let hdr := udph + 8
            if data.length < hdr + 8 then []
            else [⟨.tenantId, hdr, 4⟩]

/-- The bytes of a field. -/
def FieldRead.bytes (r : FieldRead) (data : List UInt8) : List UInt8 :=
  (data.drop r.off).take r.len

/-- A single byte is the window of length one. -/
theorem getD_eq_window (data : List UInt8) (i : ℕ) :
    data.getD i 0 = ((data.drop i).take 1).headD 0 := by
  rw [List.headD_eq_head?_getD, List.head?_take, if_neg one_ne_zero, List.head?_drop,
    List.getD_eq_getElem?_getD]

/-- **The list is complete**: a packet of the same length with the same bytes in these fields
gets the same verdict. -/
theorem classify_of_same_reads (schemaMap : SchemaMap) (metaGranted : Bool)
    {data other : List UInt8} (hlen : other.length = data.length)
    (hsame : ∀ r ∈ nexuscoreReads data, r.bytes other = r.bytes data) :
    nexuscoreClassify schemaMap metaGranted other
      = nexuscoreClassify schemaMap metaGranted data := by
  unfold nexuscoreReads at hsame
  unfold nexuscoreClassify
  rw [hlen]
  by_cases h14 : data.length < 14
  · rw [if_pos h14, if_pos h14]
  rw [if_neg h14] at hsame
  obtain ⟨htype, hsame⟩ := List.forall_mem_cons.mp hsame
  have htype : be16At other 12 = be16At data 12 := congrArg u16FromBe htype
  rw [if_neg h14, if_neg h14, htype]
  by_cases hip : be16At data 12 ≠ 0x0800
  · rw [if_pos hip, if_pos hip]
  rw [if_neg hip] at hsame
  rw [if_neg hip, if_neg hip]
  by_cases h34 : data.length < 34
  · rw [if_pos h34, if_pos h34]
  rw [if_neg h34] at hsame
  obtain ⟨hproto, hsame⟩ := List.forall_mem_cons.mp hsame
  have hproto : other.getD 23 0 = data.getD 23 0 := by
    rw [getD_eq_window, getD_eq_window]
    exact congrArg (fun w : List UInt8 => w.headD 0) hproto
  rw [if_neg h34, if_neg h34, hproto]
  by_cases hudp : data.getD 23 0 ≠ 17
  · rw [if_pos hudp, if_pos hudp]
  rw [if_neg hudp] at hsame
  obtain ⟨hfirst, hsame⟩ := List.forall_mem_cons.mp hsame
  have hihl : ihl other = ihl data := by
    rw [ihl, ihl, getD_eq_window, getD_eq_window]
    exact congrArg (fun w : List UInt8 => (w.headD 0).toNat % 16) hfirst
  rw [if_neg hudp, if_neg hudp, hihl]
  by_cases h8 : data.length < 14 + ihl data * 4 + 8
  · simp only [if_pos h8]
  simp only [if_neg h8] at hsame ⊢
  obtain ⟨hport, hsame⟩ := List.forall_mem_cons.mp hsame
  have hport : be16At other (14 + ihl data * 4 + 2) = be16At data (14 + ihl data * 4 + 2) :=
    congrArg u16FromBe hport
  rw [hport]
  by_cases h9900 : be16At data (14 + ihl data * 4 + 2) ≠ 9900
  · rw [if_pos h9900, if_pos h9900]
  rw [if_neg h9900] at hsame
  rw [if_neg h9900, if_neg h9900]
  by_cases h16 : data.length < 14 + ihl data * 4 + 8 + 8
  · rw [if_pos h16, if_pos h16]
  rw [if_neg h16] at hsame
  have htenant : be32At other (14 + ihl data * 4 + 8) = be32At data (14 + ihl data * 4 + 8) :=
    congrArg u32FromBe (hsame _ (List.mem_singleton_self _))
  rw [if_neg h16, if_neg h16, htenant]

/-! ### The ways through the parser -/

variable {schemaMap : SchemaMap} {metaGranted : Bool} {data : List UInt8}

/-- An IPv4 packet, with the fixed part of its header complete, that carries UDP. -/
structure IsUdp (data : List UInt8) : Prop where
  ip : 34 ≤ data.length
  etherType : be16At data 12 = 0x0800
  protocol : data.getD 23 0 = 17

/-- Such a packet with eight bytes where its IP header says that the UDP header begins. -/
structure ReadsPort (data : List UInt8) : Prop extends IsUdp data where
  udp : 14 + ihl data * 4 + 8 ≤ data.length

/-- Such a packet to port 9900 with eight more bytes. -/
structure ReadsTenant (data : List UInt8) : Prop extends ReadsPort data where
  port : be16At data (14 + ihl data * 4 + 2) = 9900
  header : 14 + ihl data * 4 + 8 + 8 ≤ data.length

/-- A packet that ends inside one of the four headers. -/
inductive CutShort (data : List UInt8) : Prop
  | ethernet (h : data.length < 14)
  | ip (h : data.length < 34) (etherType : be16At data 12 = 0x0800)
  | udp (h : data.length < 14 + ihl data * 4 + 8) (isUdp : IsUdp data)
  | header (h : data.length < 14 + ihl data * 4 + 8 + 8) (readsPort : ReadsPort data)
      (port : be16At data (14 + ihl data * 4 + 2) = 9900)

theorem classify_of_readsTenant (h : ReadsTenant data) :
    nexuscoreClassify schemaMap metaGranted data
      = stampTenant schemaMap metaGranted (be32At data (14 + ihl data * 4 + 8)) := by
  have h34 := h.ip
  simp only [nexuscoreClassify, if_neg (not_lt.mpr h.ip), if_neg (not_lt.mpr h.udp),
    if_neg (not_lt.mpr h.header), if_neg (show ¬ data.length < 14 by omega),
    if_neg (not_not.mpr h.etherType), if_neg (not_not.mpr h.protocol),
    if_neg (not_not.mpr h.port)]

/-- **Off the way**: a packet that does not get to its tenant header is passed on without a
stamp, or dropped because it ends too early. -/
theorem classify_of_not_readsTenant (schemaMap : SchemaMap) (metaGranted : Bool)
    (h : ¬ ReadsTenant data) :
    nexuscoreClassify schemaMap metaGranted data = .pass ∨
      nexuscoreClassify schemaMap metaGranted data = .drop ∧ CutShort data := by
  unfold nexuscoreClassify
  by_cases h14 : data.length < 14
  · rw [if_pos h14]
    exact Or.inr ⟨rfl, .ethernet h14⟩
  rw [if_neg h14]
  by_cases hip : be16At data 12 ≠ 0x0800
  · rw [if_pos hip]
    exact Or.inl rfl
  rw [if_neg hip]
  by_cases h34 : data.length < 34
  · rw [if_pos h34]
    exact Or.inr ⟨rfl, .ip h34 (not_not.mp hip)⟩
  rw [if_neg h34]
  by_cases hproto : data.getD 23 0 ≠ 17
  · rw [if_pos hproto]
    exact Or.inl rfl
  rw [if_neg hproto]
  have hudp : IsUdp data := ⟨not_lt.mp h34, not_not.mp hip, not_not.mp hproto⟩
  by_cases h8 : data.length < 14 + ihl data * 4 + 8
  · simp only [if_pos h8]
    exact Or.inr ⟨trivial, .udp h8 hudp⟩
  simp only [if_neg h8]
  have hreads : ReadsPort data := ⟨hudp, not_lt.mp h8⟩
  by_cases hport : be16At data (14 + ihl data * 4 + 2) ≠ 9900
  · rw [if_pos hport]
    exact Or.inl rfl
  rw [if_neg hport]
  by_cases h16 : data.length < 14 + ihl data * 4 + 8 + 8
  · rw [if_pos h16]
    exact Or.inr ⟨rfl, .header h16 hreads (not_not.mp hport)⟩
  exact absurd ⟨hreads, not_not.mp hport, not_lt.mp h16⟩ h

/-- **Where the port and the tenant are read.** -/
theorem mem_nexuscoreReads {r : FieldRead} (hr : r ∈ nexuscoreReads data) :
    (r.field = .port → ReadsPort data ∧ r.off = 14 + ihl data * 4 + 2) ∧
    (r.field = .tenantId → ReadsTenant data ∧ r.off = 14 + ihl data * 4 + 8) := by
  unfold nexuscoreReads at hr
  by_cases h14 : data.length < 14
  · rw [if_pos h14] at hr
    cases hr
  rw [if_neg h14] at hr
  rcases List.mem_cons.mp hr with rfl | hr
  · exact ⟨nofun, nofun⟩
  by_cases hip : be16At data 12 ≠ 0x0800
  · rw [if_pos hip] at hr
    cases hr
  rw [if_neg hip] at hr
  by_cases h34 : data.length < 34
  · rw [if_pos h34] at hr
    cases hr
  rw [if_neg h34] at hr
  rcases List.mem_cons.mp hr with rfl | hr
  · exact ⟨nofun, nofun⟩
  by_cases hproto : data.getD 23 0 ≠ 17
  · rw [if_pos hproto] at hr
    cases hr
  rw [if_neg hproto] at hr
  rcases List.mem_cons.mp hr with rfl | hr
  · exact ⟨nofun, nofun⟩
  have hudp : IsUdp data := ⟨not_lt.mp h34, not_not.mp hip, not_not.mp hproto⟩
  by_cases h8 : data.length < 14 + ihl data * 4 + 8
  · simp only [if_pos h8] at hr
    cases hr
  simp only [if_neg h8] at hr
  have hreads : ReadsPort data := ⟨hudp, not_lt.mp h8⟩
  rcases List.mem_cons.mp hr with rfl | hr
  · exact ⟨fun _ => ⟨hreads, rfl⟩, nofun⟩
  by_cases hport : be16At data (14 + ihl data * 4 + 2) ≠ 9900
  · rw [if_pos hport] at hr
    cases hr
  rw [if_neg hport] at hr
  by_cases h16 : data.length < 14 + ihl data * 4 + 8 + 8
  · rw [if_pos h16] at hr
    cases hr
  rw [if_neg h16] at hr
  cases List.mem_singleton.mp hr
  exact ⟨nofun, fun _ => ⟨⟨hreads, not_not.mp hport, not_lt.mp h16⟩, rfl⟩⟩

theorem port_mem_nexuscoreReads (h : ReadsPort data) :
    ⟨.port, 14 + ihl data * 4 + 2, 2⟩ ∈ nexuscoreReads data := by
  have h34 := h.ip
  simp only [nexuscoreReads, if_neg (not_lt.mpr h.ip), if_neg (not_lt.mpr h.udp),
    if_neg (show ¬ data.length < 14 by omega), if_neg (not_not.mpr h.etherType),
    if_neg (not_not.mpr h.protocol)]
  simp

/-! ### The grammar -/

/-- The packets that the classifier is for: an Ethernet header, an IPv4 header of at least five
words, a UDP header to port 9900 behind it, and the tenant header. -/
structure InGrammar (data : List UInt8) : Prop where
  ethernet : 14 ≤ data.length
  etherType : be16At data 12 = 0x0800
  ip : 14 + 4 * ihl data ≤ data.length
  words : 5 ≤ ihl data
  protocol : data.getD 23 0 = 17
  udp : 14 + 4 * ihl data + 8 ≤ data.length
  port : be16At data (14 + 4 * ihl data + 2) = 9900
  header : 14 + 4 * ihl data + 8 + 8 ≤ data.length

/-- The tenant id of the header behind the UDP header. -/
def tenantIdOf (data : List UInt8) : UInt32 := be32At data (14 + 4 * ihl data + 8)

/-- The end of the IP header: it has the length it says, and five words at least. -/
def ipHeaderEnd (data : List UInt8) : ℕ := 14 + max 20 (4 * ihl data)

/-- What is wanted of the verdict on one packet, when the metadata area is granted. -/
structure KeepsGrammar (schemaMap : SchemaMap) (data : List UInt8) : Prop where
  stamp : ∀ mt, (nexuscoreClassify schemaMap true data).stamp = some mt ↔
    InGrammar data ∧ ∃ value, schemaMap (tenantIdOf data) = some value ∧
      mt = ⟨storedVersion value, tenantIdOf data, 0⟩
  reads : ∀ r ∈ nexuscoreReads data, r.field = .port ∨ r.field = .tenantId →
    ipHeaderEnd data ≤ r.off
  drop : (nexuscoreClassify schemaMap true data).action = .drop → CutShort data

theorem inGrammar_iff : InGrammar data ↔ ReadsTenant data ∧ 5 ≤ ihl data := by
  constructor
  · intro h
    have hudp := h.udp
    have hport := h.port
    have hheader := h.header
    have hwords := h.words
    rw [Nat.mul_comm] at hudp hport hheader
    exact ⟨⟨⟨⟨by omega, h.etherType, h.protocol⟩, hudp⟩, hport, hheader⟩, hwords⟩
  · rintro ⟨h, hwords⟩
    have hip := h.ip
    have hudp := h.udp
    have hport := h.port
    have hheader := h.header
    rw [Nat.mul_comm] at hudp hport hheader
    exact ⟨by omega, h.etherType, by omega, hwords, h.protocol, hudp, hport, hheader⟩

/-- The stamp behind the tenant header. -/
theorem stampTenant_stamp (tenantId : UInt32) (mt : NexuscoreMeta) :
    (stampTenant schemaMap true tenantId).stamp = some mt ↔
      ∃ value, schemaMap tenantId = some value ∧ mt = ⟨storedVersion value, tenantId, 0⟩ := by
  unfold stampTenant
  cases schemaMap tenantId with
  | none => exact ⟨nofun, nofun⟩
  | some value =>
      constructor
      · intro h
        cases h
        exact ⟨value, rfl, rfl⟩
      · rintro ⟨_, hvalue, rfl⟩
        cases hvalue
        rfl

theorem stampTenant_action (tenantId : UInt32) :
    (stampTenant schemaMap metaGranted tenantId).action = .pass := by
  unfold stampTenant
  cases schemaMap tenantId with
  | none => rfl
  | some value => cases metaGranted <;> rfl

/-- **The parser keeps its grammar** on exactly the packets whose IP header is long enough,
or that it lets go before it takes a port from them. -/
theorem keepsGrammar_iff (schemaMap : SchemaMap) (data : List UInt8) :
    KeepsGrammar schemaMap data ↔ (ReadsPort data → 5 ≤ ihl data) := by
  constructor
  · intro h hport
    have hoff := h.reads _ (port_mem_nexuscoreReads hport) (Or.inl rfl)
    simp only [ipHeaderEnd] at hoff
    omega
  · intro h
    refine ⟨?_, ?_, ?_⟩
    · intro mt
      by_cases hreads : ReadsTenant data
      · have hgrammar : InGrammar data := inGrammar_iff.mpr ⟨hreads, h hreads.toReadsPort⟩
        rw [classify_of_readsTenant hreads, stampTenant_stamp, Nat.mul_comm]
        exact (and_iff_right hgrammar).symm
      · have hout : ¬ InGrammar data := fun hin => hreads (inGrammar_iff.mp hin).1
        rw [iff_false_right (fun hin => hout hin.1)]
        rcases classify_of_not_readsTenant schemaMap true hreads with hpass | ⟨hdrop, -⟩
        · rw [hpass]
          exact nofun
        · rw [hdrop]
          exact nofun
    · intro r hr hfield
      rcases hfield with hfield | hfield
      · obtain ⟨hreads, hoff⟩ := (mem_nexuscoreReads hr).1 hfield
        have hwords := h hreads
        rw [hoff, ipHeaderEnd]
        omega
      · obtain ⟨hreads, hoff⟩ := (mem_nexuscoreReads hr).2 hfield
        have hwords := h hreads.toReadsPort
        rw [hoff, ipHeaderEnd]
        omega
    · intro hdrop
      by_cases hreads : ReadsTenant data
      · rw [classify_of_readsTenant hreads, stampTenant_action] at hdrop
        cases hdrop
      · rcases classify_of_not_readsTenant schemaMap true hreads with hpass | ⟨-, hcut⟩
        · rw [hpass] at hdrop
          cases hdrop
        · exact hcut

/-- Thirty-four bytes with an IP header of no words.  Its total length, 9900, is taken for the
port, and its TTL, protocol and checksum for the tenant. -/
def overlappingPacket : List UInt8 :=
  List.replicate 12 0 ++ [8, 0] ++ [0x40, 0, 0x26, 0xAC, 0, 0, 0, 0, 64, 17, 0, 7] ++
    List.replicate 8 0

theorem overlappingPacket_stamped (value : List UInt8) :
    (nexuscoreClassify (Function.update (fun _ => none) 0x40110007 (some value)) true
        overlappingPacket).stamp
      = some ⟨storedVersion value, 0x40110007, 0⟩ := by
  have hreads : ReadsTenant overlappingPacket :=
    ⟨⟨⟨by decide, rfl, rfl⟩, by decide⟩, rfl, by decide⟩
  have htenant : be32At overlappingPacket (14 + ihl overlappingPacket * 4 + 8) = 0x40110007 := rfl
  rw [classify_of_readsTenant hreads, htenant, stampTenant_stamp]
  exact ⟨value, Function.update_self _ _ _, rfl⟩

theorem not_keepsGrammar_overlappingPacket :
    ¬ ∀ (schemaMap : SchemaMap) (data : List UInt8), KeepsGrammar schemaMap data := by
  intro h
  have hstamp := ((h _ overlappingPacket).stamp _).mp (overlappingPacket_stamped [1])
  have hwords : 5 ≤ ihl overlappingPacket := hstamp.1.words
  have hnone : ihl overlappingPacket = 0 := rfl
  omega

end NexusCore.Schema
