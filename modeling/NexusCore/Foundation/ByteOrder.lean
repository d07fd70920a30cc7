import Mathlib

/-!
# Fixed-width numbers as byte strings

`leValue` reads a byte string with its least significant byte first, `leBytes w` writes a
number in `w` bytes.  On strings of one length they are inverse to each other
(`leValue_leBytes`, `leBytes_leValue`), so a byte string and its value carry the same
information.  The big-endian forms are the mirrored ones.

The conversions of the 16-, 32- and 64-bit word types are the instances at their widths.
`chunksExact` cuts a string into pieces of one size and drops an incomplete last piece;
`chunks_flatMap` and `flatMap_chunks` undo each other around it.
-/

namespace Foundation.ByteOrder

/-- The number a byte string denotes, least significant byte first. -/
def leValue (bs : List UInt8) : ℕ := Nat.ofDigits 256 (bs.map UInt8.toNat)

/-- The low `w` bytes of `v`, least significant byte first. -/
def leBytes : ℕ → ℕ → List UInt8
  | 0, _ => []
  | w + 1, v => UInt8.ofNat v :: leBytes w (v / 256)

/-- The number a byte string denotes, most significant byte first. -/
def beValue (bs : List UInt8) : ℕ := leValue bs.reverse

/-- The low `w` bytes of `v`, most significant byte first. -/
def beBytes (w v : ℕ) : List UInt8 := (leBytes w v).reverse

@[simp] theorem leValue_nil : leValue [] = 0 := rfl

@[simp] theorem leValue_cons (b : UInt8) (bs : List UInt8) :
    leValue (b :: bs) = b.toNat + 256 * leValue bs := by
  simp only [leValue, List.map_cons, Nat.ofDigits_cons]

@[simp] theorem leBytes_length (w v : ℕ) : (leBytes w v).length = w := by
  induction w generalizing v with
  | zero => rfl
  | succ w ih => simp only [leBytes, List.length_cons, ih]

@[simp] theorem beBytes_length (w v : ℕ) : (beBytes w v).length = w := by
  simp only [beBytes, List.length_reverse, leBytes_length]

theorem leValue_lt (bs : List UInt8) : leValue bs < 256 ^ bs.length := by
  have h := Nat.ofDigits_lt_base_pow_length' (b := 254) (l := bs.map UInt8.toNat) (by
    intro x hx
    obtain ⟨b, -, rfl⟩ := List.mem_map.mp hx
    exact b.toNat_lt)
  simpa only [leValue, List.length_map] using h

/-- **Reading undoes writing**, on numbers that fit the width. -/
theorem leValue_leBytes (w v : ℕ) (h : v < 256 ^ w) : leValue (leBytes w v) = v := by
  induction w generalizing v with
  | zero =>
      have hv : v = 0 := by simpa using h
      simp [leBytes, hv]
  | succ w ih =>
      have hdiv : v / 256 < 256 ^ w := by
        rw [Nat.div_lt_iff_lt_mul (by decide)]
        simpa only [Nat.pow_succ] using h
      simp only [leBytes, leValue_cons, ih _ hdiv, UInt8.toNat_ofNat']
      omega

/-- **Writing undoes reading**, at the string's own length. -/
theorem leBytes_leValue (bs : List UInt8) : leBytes bs.length (leValue bs) = bs := by
  induction bs with
  | nil => rfl
  | cons b bs ih =>
      have hb : b.toNat < 256 := b.toNat_lt
      have hhead : UInt8.ofNat (b.toNat + 256 * leValue bs) = b := by
        apply UInt8.toNat_inj.mp
        rw [UInt8.toNat_ofNat']
        omega
      have htail : (b.toNat + 256 * leValue bs) / 256 = leValue bs := by omega
      simp only [List.length_cons, leValue_cons, leBytes, hhead, htail, ih]

theorem byte_shiftLeft_lt (b : UInt8) {k w : ℕ} (h : k + 8 ≤ w) : b.toNat <<< k < 2 ^ w := by
  have hb := b.toNat_lt
  rw [Nat.shiftLeft_eq]
  calc b.toNat * 2 ^ k < 2 ^ 8 * 2 ^ k := Nat.mul_lt_mul_of_pos_right hb (Nat.two_pow_pos k)
    _ = 2 ^ (k + 8) := by rw [Nat.pow_add, Nat.mul_comm]
    _ ≤ 2 ^ w := Nat.pow_le_pow_right (by decide) h

/-- Bytes that are shifted and or-ed into a number, eight bits further each. -/
def orLe (acc k : ℕ) : List UInt8 → ℕ
  | [] => acc
  | b :: bs => orLe (acc ||| b.toNat <<< k) (k + 8) bs

/-- **Shifting and or-ing bytes into place** adds their value. -/
theorem orLe_eq {acc k : ℕ} (h : acc < 2 ^ k) (bs : List UInt8) :
    orLe acc k bs = acc + 2 ^ k * leValue bs := by
  induction bs generalizing acc k with
  | nil => rfl
  | cons b bs ih =>
      have hor : acc ||| b.toNat <<< k = acc + 2 ^ k * b.toNat := by
        rw [Nat.lor_comm, ← Nat.shiftLeft_add_eq_or_of_lt h, Nat.shiftLeft_eq]
        ring
      have hnext : acc + 2 ^ k * b.toNat < 2 ^ (k + 8) := by
        have hb := b.toNat_lt
        have hle : 2 ^ k * (b.toNat + 1) ≤ 2 ^ k * 256 := Nat.mul_le_mul_left _ (by omega)
        rw [Nat.pow_add]
        linarith
      rw [orLe, hor, ih hnext, leValue_cons, Nat.pow_add]
      ring

theorem beValue_beBytes (w v : ℕ) (h : v < 256 ^ w) : beValue (beBytes w v) = v := by
  rw [beValue, beBytes, List.reverse_reverse, leValue_leBytes w v h]

/-! ### The word types -/

/-- `u16::from_le_bytes`. -/
def u16FromLe (bs : List UInt8) : UInt16 := UInt16.ofNat (leValue bs)

/-- `u32::from_le_bytes`. -/
def u32FromLe (bs : List UInt8) : UInt32 := UInt32.ofNat (leValue bs)

/-- `u64::from_le_bytes`. -/
def u64FromLe (bs : List UInt8) : UInt64 := UInt64.ofNat (leValue bs)

/-- `u16::to_le_bytes`. -/
def u16ToLe (v : UInt16) : List UInt8 := leBytes 2 v.toNat

/-- `u32::to_le_bytes`. -/
def u32ToLe (v : UInt32) : List UInt8 := leBytes 4 v.toNat

/-- `u64::to_le_bytes`. -/
def u64ToLe (v : UInt64) : List UInt8 := leBytes 8 v.toNat

/-- `u16::from_be_bytes`. -/
def u16FromBe (bs : List UInt8) : UInt16 := UInt16.ofNat (beValue bs)

/-- `u32::from_be_bytes`. -/
def u32FromBe (bs : List UInt8) : UInt32 := UInt32.ofNat (beValue bs)

/-- `u64::from_be_bytes`. -/
def u64FromBe (bs : List UInt8) : UInt64 := UInt64.ofNat (beValue bs)

@[simp] theorem u16ToLe_length (v : UInt16) : (u16ToLe v).length = 2 := leBytes_length _ _

@[simp] theorem u32ToLe_length (v : UInt32) : (u32ToLe v).length = 4 := leBytes_length _ _

@[simp] theorem u64ToLe_length (v : UInt64) : (u64ToLe v).length = 8 := leBytes_length _ _

@[simp] theorem u16FromLe_u16ToLe (v : UInt16) : u16FromLe (u16ToLe v) = v := by
  rw [u16FromLe, u16ToLe, leValue_leBytes 2 _ v.toNat_lt, UInt16.ofNat_toNat]

@[simp] theorem u32FromLe_u32ToLe (v : UInt32) : u32FromLe (u32ToLe v) = v := by
  rw [u32FromLe, u32ToLe, leValue_leBytes 4 _ v.toNat_lt, UInt32.ofNat_toNat]

@[simp] theorem u64FromLe_u64ToLe (v : UInt64) : u64FromLe (u64ToLe v) = v := by
  rw [u64FromLe, u64ToLe, leValue_leBytes 8 _ v.toNat_lt, UInt64.ofNat_toNat]

theorem u32FromLe_toNat {bs : List UInt8} (h : bs.length = 4) :
    (u32FromLe bs).toNat = leValue bs := by
  have hlt := leValue_lt bs
  rw [h] at hlt
  rw [u32FromLe, UInt32.toNat_ofNat']
  exact Nat.mod_eq_of_lt hlt

theorem u64FromLe_toNat {bs : List UInt8} (h : bs.length = 8) :
    (u64FromLe bs).toNat = leValue bs := by
  have hlt := leValue_lt bs
  rw [h] at hlt
  rw [u64FromLe, UInt64.toNat_ofNat']
  exact Nat.mod_eq_of_lt hlt

theorem u32ToLe_u32FromLe {bs : List UInt8} (h : bs.length = 4) : u32ToLe (u32FromLe bs) = bs := by
  rw [u32ToLe, u32FromLe_toNat h, ← h, leBytes_leValue]

theorem u64ToLe_u64FromLe {bs : List UInt8} (h : bs.length = 8) : u64ToLe (u64FromLe bs) = bs := by
  rw [u64ToLe, u64FromLe_toNat h, ← h, leBytes_leValue]

/-! ### Cutting a string into pieces of one size -/

section Chunks

variable {α β : Type*}

/-- The first `n` pieces of size `k`. -/
def chunks (k : ℕ) : ℕ → List α → List (List α)
  | 0, _ => []
  | n + 1, l => l.take k :: chunks k n (l.drop k)

/-- All complete pieces of size `k`. -/
def chunksExact (k : ℕ) (l : List α) : List (List α) := chunks k (l.length / k) l

theorem chunks_length (k n : ℕ) (l : List α) : (chunks k n l).length = n := by
  induction n generalizing l with
  | zero => rfl
  | succ n ih => simp only [chunks, List.length_cons, ih]

theorem flatten_chunks (k n : ℕ) (l : List α) (h : l.length = k * n) :
    (chunks k n l).flatten = l := by
  induction n generalizing l with
  | zero =>
      have hl : l = [] := List.length_eq_zero_iff.mp (by simpa using h)
      simp [chunks, hl]
  | succ n ih =>
      have hdrop : (l.drop k).length = k * n := by
        rw [List.length_drop, h, Nat.mul_succ]
        omega
      simp only [chunks, List.flatten_cons, ih _ hdrop, List.take_append_drop]

theorem length_of_mem_chunks {k n : ℕ} {l : List α} (h : k * n ≤ l.length) :
    ∀ c ∈ chunks k n l, c.length = k := by
  induction n generalizing l with
  | zero => simp [chunks]
  | succ n ih =>
      rw [Nat.mul_succ] at h
      intro c hc
      rcases List.mem_cons.mp hc with rfl | hc
      · rw [List.length_take]
        omega
      · exact ih (by rw [List.length_drop]; omega) c hc

/-- Pieces written one after another are the pieces read back. -/
theorem chunks_flatMap (k : ℕ) (f : α → List β) (xs : List α) (rest : List β)
    (hf : ∀ x ∈ xs, (f x).length = k) :
    chunks k xs.length (xs.flatMap f ++ rest) = xs.map f := by
  induction xs with
  | nil => rfl
  | cons x xs ih =>
      have hx : (f x).length = k := hf x (by simp)
      have hxs := ih fun y hy => hf y (by simp [hy])
      simp only [List.length_cons, List.flatMap_cons, List.append_assoc, chunks, List.map_cons]
      rw [List.take_left' hx, List.drop_left' hx, hxs]

/-- Piece `i` of pieces written one after another. -/
theorem piece_flatMap (k : ℕ) (f : α → List β) (xs : List α) (rest : List β)
    (hf : ∀ x ∈ xs, (f x).length = k) {i : ℕ} (hi : i < xs.length) :
    ((xs.flatMap f ++ rest).drop (k * i)).take k = f xs[i] := by
  induction xs generalizing i with
  | nil => exact absurd hi (Nat.not_lt_zero i)
  | cons x xs ih =>
      have hx : (f x).length = k := hf x (by simp)
      rw [List.flatMap_cons, List.append_assoc]
      cases i with
      | zero => rw [Nat.mul_zero, List.drop_zero, List.take_left' hx, List.getElem_cons_zero]
      | succ i =>
          rw [Nat.mul_succ, Nat.add_comm, ← List.drop_drop, List.drop_left' hx,
            ih (fun y hy => hf y (by simp [hy])) (Nat.lt_of_succ_lt_succ hi),
            List.getElem_cons_succ]

/-- Pieces read and written back are the string they were cut from. -/
theorem flatMap_chunks {k n : ℕ} {l : List α} (h : l.length = k * n) {read : List α → β}
    {write : β → List α} (hrw : ∀ c : List α, c.length = k → write (read c) = c) :
    ((chunks k n l).map read).flatMap write = l := by
  have hpieces : (chunks k n l).map (write ∘ read) = chunks k n l := by
    conv_rhs => rw [← List.map_id (chunks k n l)]
    apply List.map_congr_left
    intro c hc
    exact hrw c (length_of_mem_chunks (Nat.le_of_eq h.symm) c hc)
  rw [List.flatMap_def, List.map_map, hpieces, flatten_chunks k n l h]

theorem chunksExact_of_length {k n : ℕ} (hk : 0 < k) {l : List α} (h : l.length = k * n) :
    chunksExact k l = chunks k n l := by
  rw [chunksExact, h, Nat.mul_div_cancel_left n hk]

end Chunks

end Foundation.ByteOrder
