import Mathlib

/-!
# Checked execution: bounds tests, wrapping and checked machine arithmetic

Systems code fails in three ways that an ordinary return value does not show: an index or
a slice range misses its bound, an addition leaves its word, or a raw pointer leaves its
allocation.  A computation that can fail so is a `Checked` value; the three causes are the
constructors of `Fault`.

Arithmetic depends on how the code was built: with overflow checks (`Profile.dev`) an
overflow is a fault, without them (`Profile.release`) it wraps.  The operations below take
the profile as an argument, so a theorem over every profile speaks about both builds.  Where
nothing overflows, the `_exact` lemmas give the word of the mathematical result.
-/

namespace Foundation.Machine

/-- The ways in which a computation stops without a value. -/
inductive Fault
  /-- an index or a slice range outside its bounds -/
  | bounds
  /-- an arithmetic overflow in a build that checks for it -/
  | overflow
  /-- a raw access outside the allocation -/
  | wild
  deriving DecidableEq, Repr

/-- A computation that returns a value or faults. -/
abbrev Checked (α : Type) := Except Fault α

/-- The build profile: with overflow checks, or with wrapping arithmetic. -/
inductive Profile
  | dev
  | release
  deriving DecidableEq, Repr

section Bind

variable {α β : Type}

@[simp] theorem ok_bind (a : α) (f : α → Checked β) : ((.ok a : Checked α) >>= f) = f a := rfl

@[simp] theorem error_bind (e : Fault) (f : α → Checked β) :
    ((.error e : Checked α) >>= f) = .error e := rfl

/-- A sequence returns exactly when both parts do. -/
theorem bind_eq_ok {x : Checked α} {f : α → Checked β} {b : β} :
    (x >>= f) = .ok b ↔ ∃ a, x = .ok a ∧ f a = .ok b := by
  cases x with
  | error e => simp
  | ok a => simp

/-- An early answer: `Checked` computations that return at all. -/
def Returns (x : Checked α) : Prop := ∃ a, x = .ok a

@[simp] theorem returns_ok (a : α) : Returns (.ok a : Checked α) := ⟨a, rfl⟩

@[simp] theorem not_returns_error (e : Fault) : ¬ Returns (.error e : Checked α) := by
  rintro ⟨a, ha⟩
  cases ha

end Bind

/-! ### Bounds-checked access to a list -/

section Access

variable {α : Type}

/-- `l[i]` with its bounds test. -/
def index (l : List α) (i : ℕ) : Checked α :=
  match l[i]? with
  | some a => .ok a
  | none => .error .bounds

/-- `l[i] = a` with its bounds test. -/
def store (l : List α) (i : ℕ) (a : α) : Checked (List α) :=
  if i < l.length then .ok (l.set i a) else .error .bounds

/-- `&l[a..b]` with its two tests: the range is ordered and ends inside the list. -/
def slice (l : List α) (a b : ℕ) : Checked (List α) :=
  if a ≤ b ∧ b ≤ l.length then .ok ((l.drop a).take (b - a)) else .error .bounds

theorem index_of_lt {l : List α} {i : ℕ} (h : i < l.length) : index l i = .ok l[i] := by
  simp only [index, List.getElem?_eq_getElem h]

theorem index_of_ge {l : List α} {i : ℕ} (h : l.length ≤ i) : index l i = .error .bounds := by
  simp only [index, List.getElem?_eq_none h]

/-- An index is answered exactly below the length. -/
theorem returns_index {l : List α} {i : ℕ} : Returns (index l i) ↔ i < l.length := by
  rcases Nat.lt_or_ge i l.length with h | h
  · simp [index_of_lt h, h]
  · simp [index_of_ge h, Nat.not_lt.mpr h]

theorem store_of_lt {l : List α} {i : ℕ} (a : α) (h : i < l.length) :
    store l i a = .ok (l.set i a) := if_pos h

theorem slice_of_le {l : List α} {a b : ℕ} (hab : a ≤ b) (hb : b ≤ l.length) :
    slice l a b = .ok ((l.drop a).take (b - a)) := if_pos ⟨hab, hb⟩

/-- What lies in the first part of a list is read there. -/
theorem index_append_of_lt {l₁ l₂ : List α} {i : ℕ} (h : i < l₁.length) :
    index (l₁ ++ l₂) i = index l₁ i := by
  simp only [index, List.getElem?_append_left h]

theorem slice_append_of_le {l₁ l₂ : List α} {a b : ℕ} (hab : a ≤ b) (hb : b ≤ l₁.length) :
    slice (l₁ ++ l₂) a b = slice l₁ a b := by
  rw [slice_of_le hab hb, slice_of_le hab (by rw [List.length_append]; omega),
    List.drop_append_of_le_length (by omega),
    List.take_append_of_le_length (by rw [List.length_drop]; omega)]

/-- The middle one of three parts. -/
theorem slice_append {l x y z : List α} {a b : ℕ} (hl : l = x ++ (y ++ z)) (ha : a = x.length)
    (hb : b = a + y.length) : slice l a b = .ok y := by
  subst hl ha hb
  rw [slice_of_le (Nat.le_add_right _ _) (by simp only [List.length_append]; omega),
    List.drop_left, Nat.add_sub_cancel_left, List.take_left]

end Access

/-! ### Machine arithmetic under a build profile -/

/-- `a + b` on 8-bit words. -/
def Profile.add8 (p : Profile) (a b : UInt8) : Checked UInt8 :=
  if p = .dev ∧ 2 ^ 8 ≤ a.toNat + b.toNat then .error .overflow else .ok (a + b)

/-- `a + b` on 32-bit words. -/
def Profile.add32 (p : Profile) (a b : UInt32) : Checked UInt32 :=
  if p = .dev ∧ 2 ^ 32 ≤ a.toNat + b.toNat then .error .overflow else .ok (a + b)

/-- `a * b` on 32-bit words. -/
def Profile.mul32 (p : Profile) (a b : UInt32) : Checked UInt32 :=
  if p = .dev ∧ 2 ^ 32 ≤ a.toNat * b.toNat then .error .overflow else .ok (a * b)

/-- `a + b` on 64-bit words. -/
def Profile.add64 (p : Profile) (a b : UInt64) : Checked UInt64 :=
  if p = .dev ∧ 2 ^ 64 ≤ a.toNat + b.toNat then .error .overflow else .ok (a + b)

/-- `a * b` on 64-bit words. -/
def Profile.mul64 (p : Profile) (a b : UInt64) : Checked UInt64 :=
  if p = .dev ∧ 2 ^ 64 ≤ a.toNat * b.toNat then .error .overflow else .ok (a * b)

/-- `a - b` on 64-bit words. -/
def Profile.sub64 (p : Profile) (a b : UInt64) : Checked UInt64 :=
  if p = .dev ∧ a.toNat < b.toNat then .error .overflow else .ok (a - b)

/-- `a << n` on 64-bit words.  Only the amount is checked; bits that are shifted out are gone. -/
def Profile.shl64 (p : Profile) (a : UInt64) (n : UInt32) : Checked UInt64 :=
  if p = .dev ∧ 64 ≤ n.toNat then .error .overflow else .ok (a <<< n.toUInt64)

/-- Saturating addition on 32-bit words. -/
def saturatingAdd32 (a b : UInt32) : UInt32 :=
  if a.toNat + b.toNat < 2 ^ 32 then a + b else UInt32.ofNat (2 ^ 32 - 1)

variable {p : Profile}

theorem Profile.add8_of_lt {a b : UInt8} (h : a.toNat + b.toNat < 2 ^ 8) :
    p.add8 a b = .ok (a + b) := if_neg fun hc => absurd hc.2 (Nat.not_le.mpr h)

theorem Profile.add32_of_lt {a b : UInt32} (h : a.toNat + b.toNat < 2 ^ 32) :
    p.add32 a b = .ok (a + b) := if_neg fun hc => absurd hc.2 (Nat.not_le.mpr h)

theorem Profile.mul32_of_lt {a b : UInt32} (h : a.toNat * b.toNat < 2 ^ 32) :
    p.mul32 a b = .ok (a * b) := if_neg fun hc => absurd hc.2 (Nat.not_le.mpr h)

theorem Profile.add64_of_lt {a b : UInt64} (h : a.toNat + b.toNat < 2 ^ 64) :
    p.add64 a b = .ok (a + b) := if_neg fun hc => absurd hc.2 (Nat.not_le.mpr h)

theorem saturatingAdd32_of_lt {a b : UInt32} (h : a.toNat + b.toNat < 2 ^ 32) :
    saturatingAdd32 a b = a + b := if_pos h

theorem toNat_add32_of_lt {a b : UInt32} (h : a.toNat + b.toNat < 2 ^ 32) :
    (a + b).toNat = a.toNat + b.toNat := by
  rw [UInt32.toNat_add, Nat.mod_eq_of_lt h]

theorem toNat_mul32_of_lt {a b : UInt32} (h : a.toNat * b.toNat < 2 ^ 32) :
    (a * b).toNat = a.toNat * b.toNat := by
  rw [UInt32.toNat_mul, Nat.mod_eq_of_lt h]

theorem toNat_add64_of_lt {a b : UInt64} (h : a.toNat + b.toNat < 2 ^ 64) :
    (a + b).toNat = a.toNat + b.toNat := by
  rw [UInt64.toNat_add, Nat.mod_eq_of_lt h]

theorem Profile.add64_exact (p : Profile) {a b : UInt64} (h : a.toNat + b.toNat < 2 ^ 64) :
    ∃ w, p.add64 a b = .ok w ∧ w.toNat = a.toNat + b.toNat :=
  ⟨a + b, p.add64_of_lt h, toNat_add64_of_lt h⟩

theorem Profile.mul64_exact (p : Profile) {a b : UInt64} (h : a.toNat * b.toNat < 2 ^ 64) :
    ∃ w, p.mul64 a b = .ok w ∧ w.toNat = a.toNat * b.toNat := by
  refine ⟨a * b, if_neg fun hc => absurd hc.2 (Nat.not_le.mpr h), ?_⟩
  rw [UInt64.toNat_mul, Nat.mod_eq_of_lt h]

theorem Profile.sub64_exact (p : Profile) {a b : UInt64} (h : b.toNat ≤ a.toNat) :
    ∃ w, p.sub64 a b = .ok w ∧ w.toNat = a.toNat - b.toNat :=
  ⟨a - b, if_neg fun hc => absurd hc.2 (Nat.not_lt.mpr h),
    UInt64.toNat_sub_of_le a b (UInt64.le_iff_toNat_le.mpr h)⟩

/-- A shift by less than the width. -/
theorem Profile.shl64_exact (p : Profile) {a : UInt64} {n : UInt32} (hn : n.toNat < 64) :
    ∃ w, p.shl64 a n = .ok w ∧ w.toNat = a.toNat * 2 ^ n.toNat % 2 ^ 64 := by
  refine ⟨a <<< n.toUInt64, if_neg fun hc => absurd hc.2 (Nat.not_le.mpr hn), ?_⟩
  rw [UInt64.toNat_shiftLeft, UInt32.toNat_toUInt64, Nat.mod_eq_of_lt hn, Nat.shiftLeft_eq]

end Foundation.Machine
