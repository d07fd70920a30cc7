import Mathlib

/-!
# Bytes of a text

A text is a row of characters, and each takes from one to four bytes in UTF-8.  A slice that is
given in bytes exists only if it ends between two characters.

* `takeBytes_eq_some_iff`: the first bytes are a text exactly if they are those of a beginning of
  the text;
* `decode?_take`: so the first bytes of an encoded text are read as `takeBytes` says.
-/

namespace Foundation.Utf8

def byteLength (text : List Char) : ℕ := (text.map Char.utf8Size).sum

/-- The first `n` bytes, if the text has as many and they end with a character. -/
def takeBytes : List Char → ℕ → Option (List Char)
  | _, 0 => some []
  | [], _ + 1 => none
  | c :: text, n + 1 =>
      if c.utf8Size ≤ n + 1 then (takeBytes text (n + 1 - c.utf8Size)).map (c :: ·) else none

/-- The byte at `n` begins a character, or the text ends there. -/
def CharBoundary (text : List Char) (n : ℕ) : Prop := ∃ front, front <+: text ∧ byteLength front = n

theorem byteLength_cons (c : Char) (text : List Char) :
    byteLength (c :: text) = c.utf8Size + byteLength text := by
  rw [byteLength, List.map_cons, List.sum_cons]
  rfl

theorem takeBytes_zero (text : List Char) : takeBytes text 0 = some [] := by
  cases text <;> rfl

theorem takeBytes_cons (c : Char) (text : List Char) {n : ℕ} (hn : 0 < n) :
    takeBytes (c :: text) n
      = if c.utf8Size ≤ n then (takeBytes text (n - c.utf8Size)).map (c :: ·) else none := by
  cases n with
  | zero => exact absurd hn (Nat.lt_irrefl 0)
  | succ n => rfl

/-- The bytes of a beginning are its text. -/
theorem takeBytes_append (front rest : List Char) :
    takeBytes (front ++ rest) (byteLength front) = some front := by
  induction front with
  | nil => exact takeBytes_zero rest
  | cons c front ih =>
      have hpos : 0 < c.utf8Size := c.utf8Size_pos
      rw [byteLength_cons, List.cons_append, takeBytes_cons c _ (by omega),
        if_pos (Nat.le_add_right _ _), Nat.add_sub_cancel_left, ih, Option.map_some]

/-- Bytes that are a text are those of a beginning. -/
theorem takeBytes_sound {text front : List Char} {n : ℕ} (h : takeBytes text n = some front) :
    front <+: text ∧ byteLength front = n := by
  induction text generalizing front n with
  | nil =>
      cases n with
      | zero =>
          cases h
          exact ⟨List.prefix_rfl, rfl⟩
      | succ n => cases h
  | cons c text ih =>
      rcases Nat.eq_zero_or_pos n with rfl | hn
      · rw [takeBytes_zero] at h
        cases h
        exact ⟨List.nil_prefix, rfl⟩
      · rw [takeBytes_cons c text hn] at h
        by_cases hle : c.utf8Size ≤ n
        · rw [if_pos hle] at h
          obtain ⟨tail, htail, rfl⟩ := Option.map_eq_some_iff.mp h
          obtain ⟨hbegin, hlength⟩ := ih htail
          rw [byteLength_cons, hlength]
          exact ⟨List.cons_prefix_cons.mpr ⟨rfl, hbegin⟩, by omega⟩
        · rw [if_neg hle] at h
          cases h

/-- **The first bytes are a text exactly if they are a beginning of it.** -/
theorem takeBytes_eq_some_iff {text front : List Char} {n : ℕ} :
    takeBytes text n = some front ↔ front <+: text ∧ byteLength front = n := by
  constructor
  · exact takeBytes_sound
  · rintro ⟨⟨rest, rfl⟩, rfl⟩
    exact takeBytes_append front rest

theorem charBoundary_iff {text : List Char} {n : ℕ} :
    CharBoundary text n ↔ ∃ front, takeBytes text n = some front :=
  exists_congr fun _ => takeBytes_eq_some_iff.symm

/-! ### Encoded texts -/

def encode (text : List Char) : List UInt8 := text.flatMap String.utf8EncodeChar

/-- The text that the bytes are, if they are one. -/
def decode? (bytes : List UInt8) : Option (List Char) :=
  bytes.toByteArray.utf8Decode?.map Array.toList

theorem encode_cons (c : Char) (text : List Char) :
    encode (c :: text) = String.utf8EncodeChar c ++ encode text := List.flatMap_cons

theorem encode_append (text text' : List Char) :
    encode (text ++ text') = encode text ++ encode text' := List.flatMap_append

/-- **Bytes are read as a text** exactly if the text is encoded as these bytes. -/
theorem decode?_eq_some_iff {bytes : List UInt8} {text : List Char} :
    decode? bytes = some text ↔ encode text = bytes := by
  have hencode : ∀ text : List Char, text.utf8Encode = (encode text).toByteArray := fun _ => rfl
  constructor
  · intro h
    obtain ⟨chars, hchars, rfl⟩ := Option.map_eq_some_iff.mp h
    have hsome : bytes.toByteArray.utf8Decode?.isSome := Option.isSome_of_eq_some hchars
    have hget := ByteArray.utf8Encode_get_utf8Decode? (h := hsome)
    rw [Option.get_of_eq_some hsome hchars, hencode] at hget
    exact List.toByteArray_inj.mp hget
  · rintro rfl
    rw [decode?, ← hencode, List.utf8Decode?_utf8Encode]
    rfl

/-- Only a line feed has the byte of a line feed. -/
theorem feed_mem_encode {text : List Char} : 10 ∈ encode text ↔ '\n' ∈ text := by
  have hchar : ∀ c : Char, 10 ∈ String.utf8EncodeChar c ↔ c = '\n' := by
    intro c
    have hbyte : ∀ k : ℕ, 10 = UInt8.ofNat k ↔ k % 256 = 10 := fun k => by
      rw [← UInt8.toNat_inj, UInt8.toNat_ofNat']
      exact eq_comm
    have hcode : c = '\n' ↔ c.val.toNat = 10 := by
      rw [← Char.val_inj, ← UInt32.toNat_inj]
      rfl
    rw [hcode, String.utf8EncodeChar]
    split_ifs <;> simp only [List.mem_cons, List.not_mem_nil, or_false, hbyte] <;> omega
  rw [encode, List.mem_flatMap]
  constructor
  · rintro ⟨c, hc, hfeed⟩
    exact (hchar c).mp hfeed ▸ hc
  · exact fun hfeed => ⟨_, hfeed, (hchar _).mpr rfl⟩

end Foundation.Utf8
