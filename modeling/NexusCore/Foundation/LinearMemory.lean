import Mathlib
import NexusCore.Foundation.ByteOrder
import NexusCore.Foundation.Machine

/-!
# A flat byte memory with little-endian words

A memory assigns a byte to every offset from a base pointer.  Reads and writes of 32- and
64-bit words are reads and writes of their little-endian bytes, so two views of one memory
are always available: the bytes, in which equality of memories is stated, and the words, in
which programs compute.

`Slice` is a bounds-checked view of consecutive 32-bit words.  Its content is the list
`Slice.words`, or, word by word, the numbers that it `Holds`.  What an operation leaves alone
is said by `Frame R m m'`: the two memories agree at every offset outside the set `R`.
-/

namespace Foundation.LinearMemory

open Foundation.ByteOrder Foundation.Machine

/-- The content of a memory: a byte at every offset. -/
abbrev Mem := ℕ → UInt8

/-- The `n` bytes at offset `a`. -/
def readBytes (m : Mem) (a n : ℕ) : List UInt8 := (List.range n).map fun i => m (a + i)

/-- Overwrite the bytes from offset `a` on. -/
def writeBytes (m : Mem) (a : ℕ) (bs : List UInt8) : Mem :=
  fun x => if a ≤ x then bs.getD (x - a) (m x) else m x

def readU32 (m : Mem) (a : ℕ) : UInt32 := u32FromLe (readBytes m a 4)

def writeU32 (m : Mem) (a : ℕ) (v : UInt32) : Mem := writeBytes m a (u32ToLe v)

def readU64 (m : Mem) (a : ℕ) : UInt64 := u64FromLe (readBytes m a 8)

def writeU64 (m : Mem) (a : ℕ) (v : UInt64) : Mem := writeBytes m a (u64ToLe v)

/-! ### Frames -/

/-- The memories agree outside `R`. -/
def Frame (R : Set ℕ) (m m' : Mem) : Prop := ∀ x, x ∉ R → m' x = m x

theorem Frame.refl (R : Set ℕ) (m : Mem) : Frame R m m := fun _ _ => rfl

theorem Frame.mono {R S : Set ℕ} {m m' : Mem} (h : Frame R m m') (hRS : R ⊆ S) : Frame S m m' :=
  fun x hx => h x fun hR => hx (hRS hR)

theorem Frame.trans {R : Set ℕ} {m₁ m₂ m₃ : Mem} (h₁ : Frame R m₁ m₂) (h₂ : Frame R m₂ m₃) :
    Frame R m₁ m₃ := fun x hx => (h₂ x hx).trans (h₁ x hx)

/-- A framed change is invisible on a range that avoids the frame. -/
theorem Frame.eq_of_disjoint {R : Set ℕ} {m m' : Mem} (h : Frame R m m') {a b : ℕ}
    (hd : Disjoint R (Set.Ico a b)) {x : ℕ} (hx : x ∈ Set.Ico a b) : m' x = m x :=
  h x fun hR => Set.disjoint_left.mp hd hR hx

/-! ### Bytes -/

@[simp] theorem readBytes_length (m : Mem) (a n : ℕ) : (readBytes m a n).length = n := by
  simp only [readBytes, List.length_map, List.length_range]

theorem writeBytes_inside (m : Mem) {a x : ℕ} {bs : List UInt8} (ha : a ≤ x)
    (hx : x - a < bs.length) : writeBytes m a bs x = bs[x - a] := by
  rw [writeBytes, if_pos ha, List.getD_eq_getElem _ _ hx]

theorem writeBytes_frame (m : Mem) (a : ℕ) (bs : List UInt8) :
    Frame (Set.Ico a (a + bs.length)) m (writeBytes m a bs) := by
  intro x hx
  rw [writeBytes]
  split
  · rename_i ha
    apply List.getD_eq_default
    by_contra hlt
    exact hx ⟨ha, by omega⟩
  · rfl

theorem readBytes_writeBytes (m : Mem) (a : ℕ) (bs : List UInt8) :
    readBytes (writeBytes m a bs) a bs.length = bs := by
  apply List.ext_getElem
  · rw [readBytes_length]
  · intro i hi hi'
    simp only [readBytes, List.getElem_map, List.getElem_range]
    rw [writeBytes_inside m (Nat.le_add_right a i) (by omega)]
    simp only [Nat.add_sub_cancel_left]

theorem readBytes_congr {m m' : Mem} {a n : ℕ} (h : ∀ x ∈ Set.Ico a (a + n), m' x = m x) :
    readBytes m' a n = readBytes m a n := by
  apply List.map_congr_left
  intro i hi
  exact h (a + i) ⟨Nat.le_add_right a i, by rw [List.mem_range] at hi; omega⟩

/-- Equal strings read at one place come from equal bytes there. -/
theorem eq_of_readBytes_eq {m m' : Mem} {a n : ℕ} (h : readBytes m' a n = readBytes m a n) :
    ∀ x ∈ Set.Ico a (a + n), m' x = m x := by
  intro x hx
  obtain ⟨hax, hxn⟩ := hx
  have hi : x - a < n := by omega
  have hget := congrArg (fun l : List UInt8 => l[x - a]?) h
  simpa [readBytes, hi, Nat.add_sub_cancel' hax] using hget

/-! ### Words -/

@[simp] theorem readU32_writeU32 (m : Mem) (a : ℕ) (v : UInt32) :
    readU32 (writeU32 m a v) a = v := by
  have h := readBytes_writeBytes m a (u32ToLe v)
  rw [u32ToLe_length] at h
  rw [readU32, writeU32, h, u32FromLe_u32ToLe]

@[simp] theorem readU64_writeU64 (m : Mem) (a : ℕ) (v : UInt64) :
    readU64 (writeU64 m a v) a = v := by
  have h := readBytes_writeBytes m a (u64ToLe v)
  rw [u64ToLe_length] at h
  rw [readU64, writeU64, h, u64FromLe_u64ToLe]

theorem writeU32_frame (m : Mem) (a : ℕ) (v : UInt32) :
    Frame (Set.Ico a (a + 4)) m (writeU32 m a v) := by
  have h := writeBytes_frame m a (u32ToLe v)
  rwa [u32ToLe_length] at h

theorem writeU64_frame (m : Mem) (a : ℕ) (v : UInt64) :
    Frame (Set.Ico a (a + 8)) m (writeU64 m a v) := by
  have h := writeBytes_frame m a (u64ToLe v)
  rwa [u64ToLe_length] at h

theorem readU32_congr {m m' : Mem} {a : ℕ} (h : ∀ x ∈ Set.Ico a (a + 4), m' x = m x) :
    readU32 m' a = readU32 m a := by
  rw [readU32, readU32, readBytes_congr h]

theorem readU64_congr {m m' : Mem} {a : ℕ} (h : ∀ x ∈ Set.Ico a (a + 8), m' x = m x) :
    readU64 m' a = readU64 m a := by
  rw [readU64, readU64, readBytes_congr h]

/-- A framed change does not reach a word away from the frame. -/
theorem Frame.readU32 {R : Set ℕ} {m m' : Mem} (h : Frame R m m') {a : ℕ}
    (hd : Disjoint R (Set.Ico a (a + 4))) : readU32 m' a = readU32 m a :=
  readU32_congr fun _ hx => h.eq_of_disjoint hd hx

theorem Frame.readU64 {R : Set ℕ} {m m' : Mem} (h : Frame R m m') {a : ℕ}
    (hd : Disjoint R (Set.Ico a (a + 8))) : readU64 m' a = readU64 m a :=
  readU64_congr fun _ hx => h.eq_of_disjoint hd hx

/-- A word determines its four bytes. -/
theorem eq_of_readU32_eq {m m' : Mem} {a : ℕ} (h : readU32 m' a = readU32 m a) :
    ∀ x ∈ Set.Ico a (a + 4), m' x = m x := by
  have hbytes := congrArg u32ToLe h
  rw [readU32, readU32, u32ToLe_u32FromLe (readBytes_length _ _ _),
    u32ToLe_u32FromLe (readBytes_length _ _ _)] at hbytes
  exact eq_of_readBytes_eq hbytes

theorem eq_of_readU64_eq {m m' : Mem} {a : ℕ} (h : readU64 m' a = readU64 m a) :
    ∀ x ∈ Set.Ico a (a + 8), m' x = m x := by
  have hbytes := congrArg u64ToLe h
  rw [readU64, readU64, u64ToLe_u64FromLe (readBytes_length _ _ _),
    u64ToLe_u64FromLe (readBytes_length _ _ _)] at hbytes
  exact eq_of_readBytes_eq hbytes

theorem readU32_writeU32_of_ne (m : Mem) {a b : ℕ} (v : UInt32) (h : a + 4 ≤ b ∨ b + 4 ≤ a) :
    readU32 (writeU32 m a v) b = readU32 m b := by
  apply (writeU32_frame m a v).readU32
  rw [Set.Ico_disjoint_Ico]
  omega

theorem readU32_writeBytes_of_ne (m : Mem) {a b : ℕ} (bs : List UInt8)
    (h : a + bs.length ≤ b ∨ b + 4 ≤ a) : readU32 (writeBytes m a bs) b = readU32 m b := by
  apply (writeBytes_frame m a bs).readU32
  rw [Set.Ico_disjoint_Ico]
  omega

theorem readU64_writeBytes_of_ne (m : Mem) {a b : ℕ} (bs : List UInt8)
    (h : a + bs.length ≤ b ∨ b + 8 ≤ a) : readU64 (writeBytes m a bs) b = readU64 m b := by
  apply (writeBytes_frame m a bs).readU64
  rw [Set.Ico_disjoint_Ico]
  omega

theorem readU32_writeU64_of_ne (m : Mem) {a b : ℕ} (v : UInt64) (h : a + 8 ≤ b ∨ b + 4 ≤ a) :
    readU32 (writeU64 m a v) b = readU32 m b :=
  readU32_writeBytes_of_ne m _ (by rwa [u64ToLe_length])

theorem readU64_writeU32_of_ne (m : Mem) {a b : ℕ} (v : UInt32) (h : a + 4 ≤ b ∨ b + 8 ≤ a) :
    readU64 (writeU32 m a v) b = readU64 m b :=
  readU64_writeBytes_of_ne m _ (by rwa [u32ToLe_length])

theorem readU64_writeU64_of_ne (m : Mem) {a b : ℕ} (v : UInt64) (h : a + 8 ≤ b ∨ b + 8 ≤ a) :
    readU64 (writeU64 m a v) b = readU64 m b :=
  readU64_writeBytes_of_ne m _ (by rwa [u64ToLe_length])

/-! ### Slices of words -/

/-- A view of `len` consecutive 32-bit words from offset `base` on. -/
structure Slice where
  base : ℕ
  len : ℕ

namespace Slice

variable (s : Slice)

/-- The offsets a slice covers. -/
def extent : Set ℕ := Set.Ico s.base (s.base + 4 * s.len)

/-- The words in a slice. -/
def words (m : Mem) : List UInt32 := (List.range s.len).map fun i => readU32 m (s.base + 4 * i)

/-- `s[i]`. -/
def get (m : Mem) (i : ℕ) : Checked UInt32 :=
  if i < s.len then .ok (readU32 m (s.base + 4 * i)) else .error .bounds

/-- `s[i] = v`. -/
def set (m : Mem) (i : ℕ) (v : UInt32) : Checked Mem :=
  if i < s.len then .ok (writeU32 m (s.base + 4 * i) v) else .error .bounds

/-- `&s[a..b]`. -/
def range (m : Mem) (a b : ℕ) : Checked (List UInt32) := slice (s.words m) a b

/-- `s.fill(v)` from index `i` on, `k` words. -/
def fillFrom (v : UInt32) : ℕ → ℕ → Mem → Mem
  | 0, _, m => m
  | k + 1, i, m => fillFrom v k (i + 1) (writeU32 m (s.base + 4 * i) v)

/-- `s.fill(v)`. -/
def fill (v : UInt32) (m : Mem) : Mem := s.fillFrom v s.len 0 m

@[simp] theorem words_length (m : Mem) : (s.words m).length = s.len := by
  simp only [words, List.length_map, List.length_range]

theorem words_getElem (m : Mem) {i : ℕ} (h : i < (s.words m).length) :
    (s.words m)[i] = readU32 m (s.base + 4 * i) := by
  simp only [words, List.getElem_map, List.getElem_range]

theorem words_congr {m m' : Mem} (h : ∀ x ∈ s.extent, m' x = m x) : s.words m' = s.words m := by
  apply List.map_congr_left
  intro i hi
  rw [List.mem_range] at hi
  apply readU32_congr
  intro x hx
  exact h x ⟨by have := hx.1; omega, by have := hx.2; omega⟩

/-- A framed change does not reach a slice away from the frame. -/
theorem words_frame {R : Set ℕ} {m m' : Mem} (h : Frame R m m')
    (hd : Disjoint R s.extent) : s.words m' = s.words m :=
  s.words_congr fun _ hx => h.eq_of_disjoint hd hx

/-- Equal words come from equal bytes. -/
theorem eq_of_words_eq {m m' : Mem} (h : s.words m' = s.words m) :
    ∀ x ∈ s.extent, m' x = m x := by
  intro x hx
  obtain ⟨hlo, hhi⟩ := hx
  have hi : (x - s.base) / 4 < s.len := by omega
  have hword : readU32 m' (s.base + 4 * ((x - s.base) / 4))
      = readU32 m (s.base + 4 * ((x - s.base) / 4)) := by
    have hget := congrArg (fun l : List UInt32 => l[(x - s.base) / 4]?) h
    simpa [words, hi] using hget
  exact eq_of_readU32_eq hword x ⟨by omega, by omega⟩

/-- One word written into a slice is one entry of the list replaced. -/
theorem words_writeU32 (m : Mem) (i : ℕ) (v : UInt32) :
    s.words (writeU32 m (s.base + 4 * i) v) = (s.words m).set i v := by
  apply List.ext_getElem
  · simp only [words_length, List.length_set]
  · intro j hj hj'
    rw [words_getElem, List.getElem_set]
    split
    · rename_i hij
      rw [hij, readU32_writeU32]
    · rename_i hij
      rw [readU32_writeU32_of_ne m v (by omega), words_getElem]

theorem set_of_lt (m : Mem) {i : ℕ} (hi : i < s.len) (v : UInt32) :
    s.set m i v = .ok (writeU32 m (s.base + 4 * i) v) := if_pos hi

/-- A write into a slice stays inside the slice. -/
theorem writeU32_frame_extent (m : Mem) {i : ℕ} (hi : i < s.len) (v : UInt32) :
    Frame s.extent m (writeU32 m (s.base + 4 * i) v) := by
  apply (writeU32_frame m _ v).mono
  have hnext : 4 * (i + 1) ≤ 4 * s.len := Nat.mul_le_mul_left 4 hi
  have hend : s.base + 4 * i + 4 ≤ s.base + 4 * s.len := by omega
  exact Set.Ico_subset_Ico (Nat.le_add_right _ _) hend

theorem fillFrom_spec (v : UInt32) (k i : ℕ) (m : Mem) (h : i + k = s.len) :
    s.words (s.fillFrom v k i m) = (s.words m).take i ++ List.replicate k v ∧
      Frame s.extent m (s.fillFrom v k i m) := by
  induction k generalizing i m with
  | zero =>
      have hi : (s.words m).length = i := by rw [words_length]; omega
      simp only [fillFrom, List.replicate_zero, List.append_nil]
      exact ⟨by rw [← hi, List.take_length], Frame.refl _ _⟩
  | succ k ih =>
      have hi : i < s.len := by omega
      obtain ⟨hw, hf⟩ := ih (i + 1) (writeU32 m (s.base + 4 * i) v) (by omega)
      refine ⟨?_, (s.writeU32_frame_extent m hi v).trans hf⟩
      rw [fillFrom, hw, s.words_writeU32 m i v]
      rw [List.take_add_one, List.take_set_of_le (Nat.le_refl i)]
      simp [hi, List.replicate_succ]

/-- `fill` sets every word. -/
theorem fill_spec (v : UInt32) (m : Mem) :
    s.words (s.fill v m) = List.replicate s.len v ∧ Frame s.extent m (s.fill v m) := by
  have h := s.fillFrom_spec v s.len 0 m (by omega)
  rwa [List.take_zero, List.nil_append] at h

/-! ### Slices that hold given numbers -/

/-- Word `i` of the slice is the number `f i`. -/
def Holds (m : Mem) (f : ℕ → ℕ) : Prop := ∀ i < s.len, (readU32 m (s.base + 4 * i)).toNat = f i

variable {s}

theorem Holds.congr {m : Mem} {f g : ℕ → ℕ} (h : s.Holds m f) (hfg : ∀ i < s.len, f i = g i) :
    s.Holds m g := fun i hi => (h i hi).trans (hfg i hi)

theorem Holds.frame {m m' : Mem} {f : ℕ → ℕ} {R : Set ℕ} (h : s.Holds m f) (hf : Frame R m m')
    (hd : Disjoint R s.extent) : s.Holds m' f := by
  intro i hi
  have hnext : 4 * (i + 1) ≤ 4 * s.len := Nat.mul_le_mul_left 4 hi
  rw [hf.readU32 (hd.mono_right (Set.Ico_subset_Ico (Nat.le_add_right _ _) (by omega)))]
  exact h i hi

theorem Holds.get {m : Mem} {f : ℕ → ℕ} (h : s.Holds m f) {i : ℕ} (hi : i < s.len) :
    ∃ v, s.get m i = .ok v ∧ v.toNat = f i := ⟨_, if_pos hi, h i hi⟩

/-- Writing entry `i` replaces `f i`. -/
theorem Holds.set {m : Mem} {f : ℕ → ℕ} (h : s.Holds m f) {i : ℕ} (hi : i < s.len) (v : UInt32) :
    ∃ m', s.set m i v = .ok m' ∧ s.Holds m' (Function.update f i v.toNat) ∧
      Frame s.extent m m' := by
  refine ⟨_, s.set_of_lt m hi v, ?_, s.writeU32_frame_extent m hi v⟩
  intro j hj
  by_cases hij : j = i
  · rw [hij, readU32_writeU32, Function.update_self]
  · rw [readU32_writeU32_of_ne m v (by omega), Function.update_of_ne hij, h j hj]

/-- Two memories whose slice holds the same numbers have the same words there. -/
theorem Holds.words_eq {m m' : Mem} {f : ℕ → ℕ} (h : s.Holds m f) (h' : s.Holds m' f) :
    s.words m' = s.words m := by
  apply List.map_congr_left
  intro i hi
  rw [List.mem_range] at hi
  exact UInt32.toNat_inj.mp ((h' i hi).trans (h i hi).symm)

theorem holds_fill (v : UInt32) (m : Mem) : s.Holds (s.fill v m) fun _ => v.toNat := by
  intro i hi
  have hi' : i < (s.words (s.fill v m)).length := by rwa [words_length]
  rw [← s.words_getElem (s.fill v m) hi']
  simp only [(s.fill_spec v m).1, List.getElem_replicate]

end Slice

end Foundation.LinearMemory
