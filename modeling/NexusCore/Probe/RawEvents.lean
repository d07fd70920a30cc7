import NexusCore.Foundation.ByteOrder
import NexusCore.Foundation.Machine
import NexusCore.Foundation.StructLayout
import NexusCore.Probe.Output

/-!
# From the ring buffer to the loader

A probe fills in a `struct event` and submits its bytes; `readEvents` takes a sample, skips it if
it is too short, and reads the fields byte by byte.  The reader never goes out of bounds
(`readSample_returns`), and what it reads are the fields that were written
(`parseEvent_layout`), so what is printed is what the probes submitted (`readEvents_submitted`).
-/

namespace NexusCore.Probe

open Foundation.ByteOrder Foundation.Machine Foundation.StructLayout Foundation.Lines

/-! ### The two ends -/

/-- The members of `struct event`. -/
def structEvent : List Member := [⟨4, 4⟩, ⟨1, 1⟩, ⟨1, 1⟩, ⟨2, 2⟩, ⟨8, 8⟩, ⟨8, 8⟩]

/-- The members with the bytes they hold. -/
def eventFields (e : Event) : List (Member × List UInt8) :=
  [(⟨4, 4⟩, u32ToLe e.pid), (⟨1, 1⟩, [e.stack]), (⟨1, 1⟩, [e.op]), (⟨2, 2⟩, u16ToLe e.pad),
    (⟨8, 8⟩, u64ToLe e.latencyNs), (⟨8, 8⟩, u64ToLe e.bytes)]

/-- `struct event` in memory. -/
def layout (e : Event) : List UInt8 := naturalImage (eventFields e)

/-- `parseEvent`.  The padding of a `RawEvent` is left at zero. -/
def parseEvent (b : List UInt8) : Checked Event := do
  .ok
    { pid := (← index b 0).toUInt32 ||| (← index b 1).toUInt32 <<< 8
        ||| (← index b 2).toUInt32 <<< 16 ||| (← index b 3).toUInt32 <<< 24
      stack := ← index b 4
      op := ← index b 5
      pad := 0
      latencyNs := (← index b 8).toUInt64 ||| (← index b 9).toUInt64 <<< 8
        ||| (← index b 10).toUInt64 <<< 16 ||| (← index b 11).toUInt64 <<< 24
        ||| (← index b 12).toUInt64 <<< 32 ||| (← index b 13).toUInt64 <<< 40
        ||| (← index b 14).toUInt64 <<< 48 ||| (← index b 15).toUInt64 <<< 56
      bytes := (← index b 16).toUInt64 ||| (← index b 17).toUInt64 <<< 8
        ||| (← index b 18).toUInt64 <<< 16 ||| (← index b 19).toUInt64 <<< 24
        ||| (← index b 20).toUInt64 <<< 32 ||| (← index b 21).toUInt64 <<< 40
        ||| (← index b 22).toUInt64 <<< 48 ||| (← index b 23).toUInt64 <<< 56 }

/-- One turn of `readEvents`. -/
def readSample (sample : List UInt8) : Checked Text :=
  if sample.length < 24 then .ok [] else do
    let e ← parseEvent sample
    .ok (printEvent e)

/-- What `readEvents` prints for the samples of the ring buffer. -/
def readEvents (samples : List (List UInt8)) : Checked Text := do
  let lines ← samples.mapM readSample
  .ok lines.flatten

/-! ### Shifted bytes -/

theorem toNat_shl32 (b : UInt8) {k : UInt32} (hk : k.toNat ≤ 24) :
    (b.toUInt32 <<< k).toNat = b.toNat <<< k.toNat := by
  have hlt : b.toNat <<< k.toNat < 2 ^ 32 := byte_shiftLeft_lt b (by omega)
  rw [UInt32.toNat_shiftLeft, UInt8.toNat_toUInt32, Nat.mod_eq_of_lt (by omega : k.toNat < 32),
    Nat.mod_eq_of_lt hlt]

theorem toNat_shl64 (b : UInt8) {k : UInt64} (hk : k.toNat ≤ 56) :
    (b.toUInt64 <<< k).toNat = b.toNat <<< k.toNat := by
  have hlt : b.toNat <<< k.toNat < 2 ^ 64 := byte_shiftLeft_lt b (by omega)
  rw [UInt64.toNat_shiftLeft, UInt8.toNat_toUInt64, Nat.mod_eq_of_lt (by omega : k.toNat < 64),
    Nat.mod_eq_of_lt hlt]

/-- The spelled-out number is the little-endian one. -/
theorem or32_eq (b₀ b₁ b₂ b₃ : UInt8) :
    b₀.toUInt32 ||| b₁.toUInt32 <<< 8 ||| b₂.toUInt32 <<< 16 ||| b₃.toUInt32 <<< 24
      = u32FromLe [b₀, b₁, b₂, b₃] := by
  apply UInt32.toNat_inj.mp
  have hor : (b₀.toUInt32 ||| b₁.toUInt32 <<< 8 ||| b₂.toUInt32 <<< 16
      ||| b₃.toUInt32 <<< 24).toNat = orLe b₀.toNat 8 [b₁, b₂, b₃] := by
    rw [UInt32.toNat_or, UInt32.toNat_or, UInt32.toNat_or, toNat_shl32 b₁ (by decide),
      toNat_shl32 b₂ (by decide), toNat_shl32 b₃ (by decide), UInt8.toNat_toUInt32]
    rfl
  rw [hor, orLe_eq b₀.toNat_lt, u32FromLe_toNat rfl, leValue_cons b₀]
  rfl

theorem or64_eq (b₀ b₁ b₂ b₃ b₄ b₅ b₆ b₇ : UInt8) :
    b₀.toUInt64 ||| b₁.toUInt64 <<< 8 ||| b₂.toUInt64 <<< 16 ||| b₃.toUInt64 <<< 24
        ||| b₄.toUInt64 <<< 32 ||| b₅.toUInt64 <<< 40 ||| b₆.toUInt64 <<< 48
        ||| b₇.toUInt64 <<< 56
      = u64FromLe [b₀, b₁, b₂, b₃, b₄, b₅, b₆, b₇] := by
  apply UInt64.toNat_inj.mp
  have hor : (b₀.toUInt64 ||| b₁.toUInt64 <<< 8 ||| b₂.toUInt64 <<< 16 ||| b₃.toUInt64 <<< 24
        ||| b₄.toUInt64 <<< 32 ||| b₅.toUInt64 <<< 40 ||| b₆.toUInt64 <<< 48
        ||| b₇.toUInt64 <<< 56).toNat = orLe b₀.toNat 8 [b₁, b₂, b₃, b₄, b₅, b₆, b₇] := by
    simp only [UInt64.toNat_or]
    rw [toNat_shl64 b₁ (by decide), toNat_shl64 b₂ (by decide), toNat_shl64 b₃ (by decide),
      toNat_shl64 b₄ (by decide), toNat_shl64 b₅ (by decide), toNat_shl64 b₆ (by decide),
      toNat_shl64 b₇ (by decide), UInt8.toNat_toUInt64]
    rfl
  rw [hor, orLe_eq b₀.toNat_lt, u64FromLe_toNat rfl, leValue_cons b₀]
  rfl

/-! ### Reading a sample -/

/-- The parts of a sample, in order: process, stack and operation, padding, latency, bytes. -/
structure RawSample where
  pid : List UInt8
  stack : UInt8
  op : UInt8
  pad : List UInt8
  latencyNs : List UInt8
  bytes : List UInt8
  rest : List UInt8
  pid_length : pid.length = 4
  pad_length : pad.length = 2
  latencyNs_length : latencyNs.length = 8
  bytes_length : bytes.length = 8

def RawSample.toList (s : RawSample) : List UInt8 :=
  s.pid ++ ([s.stack, s.op] ++ (s.pad ++ (s.latencyNs ++ (s.bytes ++ s.rest))))

theorem RawSample.length_toList (s : RawSample) : s.toList.length = 24 + s.rest.length := by
  simp only [RawSample.toList, List.length_append, List.length_cons, List.length_nil, s.pid_length,
    s.pad_length, s.latencyNs_length, s.bytes_length]
  omega

theorem exists_take_append {b : List UInt8} {n : ℕ} (h : n ≤ b.length) :
    ∃ x rest, b = x ++ rest ∧ x.length = n ∧ rest.length = b.length - n :=
  ⟨b.take n, b.drop n, (List.take_append_drop n b).symm, List.length_take_of_le h,
    List.length_drop⟩

/-- **Every sample that is long enough has all the parts.** -/
theorem exists_rawSample {b : List UInt8} (h : 24 ≤ b.length) : ∃ s : RawSample, b = s.toList := by
  obtain ⟨pid, b₁, rfl, hpid, h₁⟩ := exists_take_append (by omega : 4 ≤ b.length)
  obtain ⟨tags, b₂, rfl, htags, h₂⟩ := exists_take_append (by omega : 2 ≤ b₁.length)
  obtain ⟨pad, b₃, rfl, hpad, h₃⟩ := exists_take_append (by omega : 2 ≤ b₂.length)
  obtain ⟨latencyNs, b₄, rfl, hlatency, h₄⟩ := exists_take_append (by omega : 8 ≤ b₃.length)
  obtain ⟨bytes, rest, rfl, hbytes, -⟩ := exists_take_append (by omega : 8 ≤ b₄.length)
  obtain ⟨stack, op, rfl⟩ := List.length_eq_two.mp htags
  exact ⟨⟨pid, stack, op, pad, latencyNs, bytes, rest, hpid, hpad, hlatency, hbytes⟩, rfl⟩

/-- **The fields of a sample.** -/
theorem parseEvent_rawSample (s : RawSample) :
    parseEvent s.toList
      = .ok ⟨u32FromLe s.pid, s.stack, s.op, 0, u64FromLe s.latencyNs, u64FromLe s.bytes⟩ := by
  obtain ⟨pid, stack, op, pad, latencyNs, bytes, rest, hpid, hpad, hlatency, hbytes⟩ := s
  match pid, pad, latencyNs, bytes, hpid, hpad, hlatency, hbytes with
  | [_, _, _, _], [_, _], [_, _, _, _, _, _, _, _], [_, _, _, _, _, _, _, _], _, _, _, _ =>
      rw [← or32_eq, ← or64_eq, ← or64_eq]
      rfl

/-- The reader never goes out of bounds. -/
theorem readSample_returns (sample : List UInt8) : Returns (readSample sample) := by
  rw [readSample]
  split_ifs with hshort
  · exact ⟨[], rfl⟩
  · obtain ⟨s, rfl⟩ := exists_rawSample (Nat.not_lt.mp hshort)
    rw [parseEvent_rawSample, ok_bind]
    exact ⟨_, rfl⟩

/-! ### Reading what was written -/

theorem members_eventFields (e : Event) : members (eventFields e) = structEvent := rfl

theorem eventFields_sizes (e : Event) : SizesMatch (eventFields e) := by
  intro f hf
  simp only [eventFields, List.mem_cons, List.not_mem_nil, or_false] at hf
  rcases hf with rfl | rfl | rfl | rfl | rfl | rfl
  · exact u32ToLe_length _
  · rfl
  · rfl
  · exact u16ToLe_length _
  · exact u64ToLe_length _
  · exact u64ToLe_length _

/-- An event in memory, with what follows it. -/
def sampleOf (e : Event) (rest : List UInt8) : RawSample where
  pid := u32ToLe e.pid
  stack := e.stack
  op := e.op
  pad := u16ToLe e.pad
  latencyNs := u64ToLe e.latencyNs
  bytes := u64ToLe e.bytes
  rest := rest
  pid_length := u32ToLe_length _
  pad_length := u16ToLe_length _
  latencyNs_length := u64ToLe_length _
  bytes_length := u64ToLe_length _

/-- The members of `struct event` need no padding but the one it has. -/
theorem layout_append (e : Event) (rest : List UInt8) :
    layout e ++ rest = (sampleOf e rest).toList := by
  have hlength : (packedImage (eventFields e)).length = 24 :=
    packedImage_length (eventFields_sizes e)
  have hpad : roundUp 24 (recordAlign structEvent) - 24 = 0 := by decide
  rw [layout, naturalImage_eq (by rw [members_eventFields]; decide), hlength,
    members_eventFields, hpad, packedImage_eq]
  simp only [eventFields, RawSample.toList, sampleOf, List.map_cons, List.map_nil,
    List.flatten_cons, List.flatten_nil, List.append_nil, List.append_assoc, List.replicate_zero]
  rfl

/-- **What was written is read back**, whatever follows it. -/
theorem parseEvent_layout (e : Event) (rest : List UInt8) :
    parseEvent (layout e ++ rest) = .ok { e with pad := 0 } := by
  rw [layout_append, parseEvent_rawSample]
  simp [sampleOf]

/-- **What the probes submit is what the loader prints**, whatever pads the samples. -/
theorem readEvents_submitted (events : List Event) (trailing : Event → List UInt8) :
    readEvents (events.map fun e => layout e ++ trailing e) = .ok (events.flatMap printEvent) := by
  have hlines : (events.map fun e => layout e ++ trailing e).mapM readSample
      = .ok (events.map printEvent) := by
    induction events with
    | nil => rfl
    | cons e events ih =>
        have hlength : ¬ (layout e ++ trailing e).length < 24 := by
          rw [layout_append, RawSample.length_toList]
          omega
        have hread : readSample (layout e ++ trailing e) = .ok (printEvent e) := by
          rw [readSample, if_neg hlength, parseEvent_layout, ok_bind]
          rfl
        rw [List.map_cons, List.mapM_cons, hread, ok_bind, ih]
        rfl
  rw [readEvents, hlines, ok_bind, ← List.flatMap_def]

/-! ### What a sample is read as -/

theorem u32FromLe_injective {bs cs : List UInt8} (hbs : bs.length = 4) (hcs : cs.length = 4)
    (h : u32FromLe bs = u32FromLe cs) : bs = cs := by
  rw [← u32ToLe_u32FromLe hbs, h, u32ToLe_u32FromLe hcs]

theorem u64FromLe_injective {bs cs : List UInt8} (hbs : bs.length = 8) (hcs : cs.length = 8)
    (h : u64FromLe bs = u64FromLe cs) : bs = cs := by
  rw [← u64ToLe_u64FromLe hbs, h, u64ToLe_u64FromLe hcs]

/-- The bytes before the padding and those behind it. -/
theorem RawSample.getElem?_toList (s : RawSample) {i : ℕ} (hi : i < 24) (h₆ : i ≠ 6) (h₇ : i ≠ 7) :
    s.toList[i]?
      = if i < 6 then (s.pid ++ [s.stack, s.op])[i]? else (s.latencyNs ++ s.bytes)[i - 8]? := by
  have hfront : (s.pid ++ [s.stack, s.op]).length = 6 := by
    rw [List.length_append, s.pid_length]
    rfl
  have hback : (s.latencyNs ++ s.bytes).length = 16 := by
    rw [List.length_append, s.latencyNs_length, s.bytes_length]
  have hparts : s.toList
      = (s.pid ++ [s.stack, s.op]) ++ (s.pad ++ ((s.latencyNs ++ s.bytes) ++ s.rest)) := by
    simp only [RawSample.toList, List.append_assoc]
  rw [hparts]
  by_cases hlow : i < 6
  · rw [if_pos hlow, List.getElem?_append_left (by omega)]
  · rw [if_neg hlow, List.getElem?_append_right (by omega),
      List.getElem?_append_right (by rw [s.pad_length]; omega),
      List.getElem?_append_left (by rw [s.pad_length]; omega), hfront, s.pad_length]
    congr 1

/-- **Raw events survive the ring buffer**: all fields come through, and only the padding and what
follows an event are lost. -/
theorem parseEvent_lossless :
    (∀ (e : Event) (rest : List UInt8), parseEvent (layout e ++ rest) = .ok { e with pad := 0 })
      ∧ ∀ b b' : List UInt8, 24 ≤ b.length → 24 ≤ b'.length → parseEvent b = parseEvent b' →
        ∀ i < 24, i ≠ 6 → i ≠ 7 → b[i]? = b'[i]? := by
  refine ⟨parseEvent_layout, ?_⟩
  intro b b' hb hb' h i hi h₆ h₇
  obtain ⟨s, rfl⟩ := exists_rawSample hb
  obtain ⟨s', rfl⟩ := exists_rawSample hb'
  rw [parseEvent_rawSample, parseEvent_rawSample] at h
  obtain ⟨hpid, hstack, hop, -, hlatency, hbytes⟩ := Event.mk.inj (Except.ok.inj h)
  have hpid' := u32FromLe_injective s.pid_length s'.pid_length hpid
  have hlatency' := u64FromLe_injective s.latencyNs_length s'.latencyNs_length hlatency
  have hbytes' := u64FromLe_injective s.bytes_length s'.bytes_length hbytes
  rw [s.getElem?_toList hi h₆ h₇, s'.getElem?_toList hi h₆ h₇, hpid', hstack, hop, hlatency',
    hbytes']

theorem parseEvent_lossless_small :
    parseEvent (layout ⟨7, 1, 0, 9, 1500, 4096⟩ ++ [3]) = .ok ⟨7, 1, 0, 0, 1500, 4096⟩
      ∧ ∀ i < 24, i ≠ 6 → i ≠ 7 →
        (List.replicate 24 (1 : UInt8))[i]? = ((List.replicate 24 1).set 6 2)[i]? :=
  ⟨parseEvent_lossless.1 _ _, parseEvent_lossless.2 _ _ (by decide) (by decide) rfl⟩

end NexusCore.Probe
