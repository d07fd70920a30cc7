import Mathlib

/-!
# Layouts of a record in memory

A record is a list of members, each with a size and an alignment.  Compilers lay it out in
two ways: *natural*, every member at the next multiple of its alignment and padding behind the
last one up to the largest alignment, or *packed*, every member right behind the one before.

* `naturalImage_eq`: where the packed offsets happen to be aligned, the bytes in memory agree up
  to the padding at the end;
* `take_naturalImage`: a copy of the packed size cut from the natural image is the packed image.
-/

namespace Foundation.StructLayout

/-- A member of a record. -/
structure Member where
  size : ℕ
  align : ℕ
  deriving DecidableEq, Repr

/-- The next multiple of `a`. -/
def roundUp (n a : ℕ) : ℕ := n + (a - n % a) % a

theorem roundUp_of_aligned {n a : ℕ} (h : n % a = 0) : roundUp n a = n := by
  rw [roundUp, h, Nat.sub_zero, Nat.mod_self, Nat.add_zero]

/-- The offsets of members laid out from `pos` on, under a rule for alignments. -/
def offsetsFrom (align : Member → ℕ) : ℕ → List Member → List ℕ
  | _, [] => []
  | pos, f :: fs => roundUp pos (align f) :: offsetsFrom align (roundUp pos (align f) + f.size) fs

def naturalOffsets (fs : List Member) : List ℕ := offsetsFrom Member.align 0 fs

def packedOffsets (fs : List Member) : List ℕ := offsetsFrom (fun _ => 1) 0 fs

def packedSize (fs : List Member) : ℕ := (fs.map Member.size).sum

/-- The largest alignment. -/
def recordAlign (fs : List Member) : ℕ := fs.foldl (fun a f => max a f.align) 1

/-- Members and the bytes they hold, one after another with padding between. -/
def imageFrom (align : Member → ℕ) : ℕ → List (Member × List UInt8) → List UInt8
  | _, [] => []
  | pos, (f, bytes) :: fs =>
      List.replicate (roundUp pos (align f) - pos) 0 ++ bytes ++
        imageFrom align (roundUp pos (align f) + f.size) fs

/-- The members of a record without their bytes. -/
def members (fs : List (Member × List UInt8)) : List Member := fs.map Prod.fst

def packedImage (fs : List (Member × List UInt8)) : List UInt8 := imageFrom (fun _ => 1) 0 fs

/-- The natural image, padded to a multiple of the record's alignment. -/
def naturalImage (fs : List (Member × List UInt8)) : List UInt8 :=
  let body := imageFrom Member.align 0 fs
  body ++ List.replicate (roundUp body.length (recordAlign (members fs)) - body.length) 0

/-- Every member, packed from `pos` on, stands at a multiple of its alignment. -/
def AlignedFrom : ℕ → List Member → Prop
  | _, [] => True
  | pos, f :: fs => pos % f.align = 0 ∧ AlignedFrom (pos + f.size) fs

instance decidableAlignedFrom : (pos : ℕ) → (fs : List Member) → Decidable (AlignedFrom pos fs)
  | _, [] => isTrue trivial
  | pos, f :: fs =>
      have := decidableAlignedFrom (pos + f.size) fs
      inferInstanceAs (Decidable (_ ∧ _))

theorem roundUp_one (n : ℕ) : roundUp n 1 = n := roundUp_of_aligned (Nat.mod_one n)

/-- **Aligned members need no padding.** -/
theorem imageFrom_eq {pos : ℕ} {fs : List (Member × List UInt8)}
    (h : AlignedFrom pos (members fs)) :
    imageFrom Member.align pos fs = imageFrom (fun _ => 1) pos fs := by
  induction fs generalizing pos with
  | nil => rfl
  | cons f fs ih =>
      obtain ⟨f, bytes⟩ := f
      show List.replicate (roundUp pos f.align - pos) 0 ++ bytes ++
          imageFrom Member.align (roundUp pos f.align + f.size) fs
        = List.replicate (roundUp pos 1 - pos) 0 ++ bytes ++
          imageFrom (fun _ => 1) (roundUp pos 1 + f.size) fs
      rw [roundUp_of_aligned h.1, roundUp_one, ih h.2]

/-- A packed image is the bytes of the members one after another. -/
theorem imageFrom_packed (pos : ℕ) (fs : List (Member × List UInt8)) :
    imageFrom (fun _ => 1) pos fs = (fs.map Prod.snd).flatten := by
  induction fs generalizing pos with
  | nil => rfl
  | cons f fs ih =>
      obtain ⟨f, bytes⟩ := f
      rw [imageFrom, roundUp_one, Nat.sub_self, ih, List.map_cons, List.flatten_cons]
      rfl

theorem packedImage_eq (fs : List (Member × List UInt8)) :
    packedImage fs = (fs.map Prod.snd).flatten := imageFrom_packed 0 fs

/-- **The natural image is the packed one with padding at its end.** -/
theorem naturalImage_eq {fs : List (Member × List UInt8)} (h : AlignedFrom 0 (members fs)) :
    naturalImage fs = packedImage fs ++ List.replicate
      (roundUp (packedImage fs).length (recordAlign (members fs)) - (packedImage fs).length) 0 := by
  show imageFrom Member.align 0 fs ++ _ = _
  rw [imageFrom_eq h]
  rfl

/-- The members hold as many bytes as their sizes say. -/
def SizesMatch (fs : List (Member × List UInt8)) : Prop := ∀ f ∈ fs, f.2.length = f.1.size

theorem packedImage_length {fs : List (Member × List UInt8)} (h : SizesMatch fs) :
    (packedImage fs).length = packedSize (members fs) := by
  rw [packedImage_eq, List.length_flatten, packedSize, members, List.map_map, List.map_map]
  congr 1
  apply List.map_congr_left
  intro f hf
  exact h f hf

/-- **The first bytes of the natural image are the packed image**, as many as its size. -/
theorem take_naturalImage {fs : List (Member × List UInt8)} (h : AlignedFrom 0 (members fs))
    (hsizes : SizesMatch fs) :
    (naturalImage fs).take (packedSize (members fs)) = packedImage fs := by
  rw [naturalImage_eq h, ← packedImage_length hsizes, List.take_left]

end Foundation.StructLayout
