import Mathlib

/-!
# Numbers inside a text

A number in decimal ends where a character comes that is no digit, and begins behind one.  So a
text that begins or ends with a number tells which.

* `toDigits_append_inj`: the number a text begins with, and what follows it;
* `append_toDigits_inj`: the number a text ends with.
-/

namespace Foundation.Decimal

variable {m n : ℕ} {c d : Char} {xs ys : List Char}

theorem toDigits_inj (h : Nat.toDigits 10 m = Nat.toDigits 10 n) : m = n := calc
  m = Nat.ofDigitChars 10 (Nat.toDigits 10 m) 0 := Nat.ofDigitChars_ten_toDigits.symm
  _ = Nat.ofDigitChars 10 (Nat.toDigits 10 n) 0 := by rw [h]
  _ = n := Nat.ofDigitChars_ten_toDigits

theorem isDigit_of_mem (hc : c ∈ Nat.toDigits 10 n) : c.isDigit = true :=
  Nat.isDigit_of_mem_toDigits (by decide) (by decide) hc

/-- A character that is no digit is not in a number. -/
theorem not_mem_toDigits (hc : c.isDigit = false) (n : ℕ) : c ∉ Nat.toDigits 10 n := by
  intro hmem
  rw [isDigit_of_mem hmem] at hc
  cases hc

theorem takeWhile_toDigits (hc : c.isDigit = false) (n : ℕ) (xs : List Char) :
    (Nat.toDigits 10 n ++ c :: xs).takeWhile Char.isDigit = Nat.toDigits 10 n := by
  rw [List.takeWhile_append_of_pos fun _ => isDigit_of_mem,
    List.takeWhile_cons_of_neg (by simp [hc]), List.append_nil]

theorem takeWhile_reverse (hc : c.isDigit = false) (n : ℕ) (xs : List Char) :
    ((xs ++ c :: Nat.toDigits 10 n).reverse).takeWhile Char.isDigit
      = (Nat.toDigits 10 n).reverse := by
  rw [List.reverse_append, List.reverse_cons, List.append_assoc, List.singleton_append,
    List.takeWhile_append_of_pos fun _ h => isDigit_of_mem (List.mem_reverse.mp h),
    List.takeWhile_cons_of_neg (by simp [hc]), List.append_nil]

/-- **A text that begins with a number.** -/
theorem toDigits_append_inj (hc : c.isDigit = false) (hd : d.isDigit = false)
    (h : Nat.toDigits 10 m ++ c :: xs = Nat.toDigits 10 n ++ d :: ys) :
    m = n ∧ c :: xs = d :: ys := by
  have hmn : m = n :=
    toDigits_inj (by rw [← takeWhile_toDigits hc m xs, h, takeWhile_toDigits hd])
  rw [hmn] at h
  exact ⟨hmn, List.append_cancel_left h⟩

/-- **A text that ends with a number.** -/
theorem append_toDigits_inj (hc : c.isDigit = false) (hd : d.isDigit = false)
    (h : xs ++ c :: Nat.toDigits 10 m = ys ++ d :: Nat.toDigits 10 n) : m = n := by
  refine toDigits_inj (List.reverse_injective ?_)
  rw [← takeWhile_reverse hc m xs, h, takeWhile_reverse hd]

end Foundation.Decimal
