import NexusCore.Foundation.Lines
import NexusCore.Foundation.Transition

/-!
# Texts as tokens

A text of punctuation marks, quoted strings and words, with blanks between them, is read one
character at a time.  A word ends where something else begins; a string ends at its quote, and
escapes in it stand for other characters.

* `Reads`, `Writes`: what a part of a text adds to the tokens, and how parts go together;
* `reads_quote`: a string that was quoted is read back;
* `tokens_cut`: a text that is cut has fewer tokens, and of its last one perhaps only a part.
-/

namespace Foundation.Tokens

open Foundation.Lines Foundation.Transition

inductive Token
  | mark (c : Char)
  | str (s : Text)
  | word (w : Text)
  deriving DecidableEq, Repr

/-- Between tokens, or within one of which so much was read. -/
inductive Scan
  | gap
  | word (w : Text)
  | str (s : Text)
  /-- after a backslash -/
  | escape (s : Text)
  /-- within the digits of a code unit, the second one of a pair if there is a `high` one -/
  | hex (s : Text) (high : Option ℕ) (digits : List ℕ)
  /-- the second unit of a pair must follow -/
  | half (s : Text) (high : ℕ)
  /-- after its backslash -/
  | second (s : Text) (high : ℕ)
  deriving DecidableEq, Repr

structure Scanner where
  out : List Token
  scan : Scan
  deriving DecidableEq, Repr

def isBlank (c : Char) : Bool := c == ' ' || c == '\n' || c == '\t' || c == '\r'

def isMark (c : Char) : Bool :=
  c == '\x7b' || c == '\x7d' || c == '[' || c == ']' || c == ':' || c == ','

/-- What a word does not go on with. -/
def endsWord (c : Char) : Bool := isBlank c || isMark c || c == '"'

def start (out : List Token) (c : Char) : Scanner :=
  if isBlank c then ⟨out, .gap⟩
  else if isMark c then ⟨out ++ [.mark c], .gap⟩
  else if c = '"' then ⟨out, .str []⟩
  else ⟨out, .word [c]⟩

def unescape (c : Char) : Option Char :=
  if c = '"' ∨ c = '\\' ∨ c = '/' then some c
  else if c = 'b' then some '\x08'
  else if c = 'f' then some '\x0c'
  else if c = 'n' then some '\n'
  else if c = 'r' then some '\r'
  else if c = 't' then some '\t'
  else none

def hexValue (c : Char) : Option ℕ :=
  if c.isDigit then some (c.toNat - '0'.toNat)
  else if 'a'.toNat ≤ c.toNat ∧ c.toNat ≤ 'f'.toNat then some (c.toNat - 'a'.toNat + 10)
  else if 'A'.toNat ≤ c.toNat ∧ c.toNat ≤ 'F'.toNat then some (c.toNat - 'A'.toNat + 10)
  else none

/-- A code unit that is complete.  Units of pairs come in pairs. -/
def addUnit (s : Text) : Option ℕ → ℕ → Option Scan
  | none, u =>
      if 0xD800 ≤ u ∧ u < 0xDC00 then some (.half s u)
      else if 0xDC00 ≤ u ∧ u < 0xE000 then none
      else some (.str (s ++ [Char.ofNat u]))
  | some high, u =>
      if 0xDC00 ≤ u ∧ u < 0xE000 then
        some (.str (s ++ [Char.ofNat (0x10000 + (high - 0xD800) * 0x400 + (u - 0xDC00))]))
      else none

def step (s : Scanner) (c : Char) : Option Scanner :=
  match s.scan with
  | .gap => some (start s.out c)
  | .word w =>
      if endsWord c then some (start (s.out ++ [.word w]) c) else some ⟨s.out, .word (w ++ [c])⟩
  | .str t =>
      if c = '"' then some ⟨s.out ++ [.str t], .gap⟩
      else if c = '\\' then some ⟨s.out, .escape t⟩
      else if c.toNat < 0x20 then none
      else some ⟨s.out, .str (t ++ [c])⟩
  | .escape t =>
      if c = 'u' then some ⟨s.out, .hex t none []⟩
      else (unescape c).map fun d => ⟨s.out, .str (t ++ [d])⟩
  | .hex t high digits =>
      (hexValue c).bind fun d =>
        if digits.length < 3 then some ⟨s.out, .hex t high (digits ++ [d])⟩
        else (addUnit t high ((digits ++ [d]).foldl (fun u d => 16 * u + d) 0)).map fun scan =>
          ⟨s.out, scan⟩
  | .half t high => if c = '\\' then some ⟨s.out, .second t high⟩ else none
  | .second t high => if c = 'u' then some ⟨s.out, .hex t (some high) []⟩ else none

/-- The tokens, if the text may end here. -/
def finish (s : Scanner) : Option (List Token) :=
  match s.scan with
  | .gap => some s.out
  | .word w => some (s.out ++ [.word w])
  | _ => none

def tokens (text : Text) : Option (List Token) := (run step ⟨[], .gap⟩ text).bind finish

/-! ### Parts of a text -/

variable {out toks toks' : List Token} {s s' : Scanner} {t t' : Text} {c : Char}

/-- A part that begins and ends between tokens. -/
def Reads (t : Text) (toks : List Token) : Prop :=
  ∀ out, run step ⟨out, .gap⟩ t = some ⟨out ++ toks, .gap⟩

/-- A part that begins between tokens, and may end with a word. -/
def Writes (t : Text) (toks : List Token) : Prop :=
  ∀ out, ∃ s, run step ⟨out, .gap⟩ t = some s ∧ finish s = some (out ++ toks)

/-- What a part begins with ends a word before it. -/
def Breaks (t : Text) : Prop := ∃ c rest, t = c :: rest ∧ endsWord c = true

theorem Reads.writes (h : Reads t toks) : Writes t toks := fun out => ⟨_, h out, rfl⟩

theorem reads_nil : Reads [] [] := by
  intro out
  rw [List.append_nil]
  rfl

theorem Reads.append (h : Reads t toks) (h' : Reads t' toks') :
    Reads (t ++ t') (toks ++ toks') := by
  intro out
  rw [run_append, h, Option.bind_some, h', List.append_assoc]

/-- After a word that has ended, it goes on as between tokens. -/
theorem step_of_finish (hs : finish s = some toks) (hc : endsWord c = true) :
    step s c = step ⟨toks, .gap⟩ c := by
  obtain ⟨out, scan⟩ := s
  cases scan with
  | gap =>
      cases hs
      rfl
  | word w =>
      cases hs
      show (if endsWord c = true then _ else _) = _
      rw [if_pos hc]
      rfl
  | str | escape | hex | half | second => cases hs

theorem run_of_finish (hs : finish s = some toks) (hbreaks : Breaks t) :
    run step s t = run step ⟨toks, .gap⟩ t := by
  obtain ⟨c, t, rfl, hc⟩ := hbreaks
  rw [run, run, step_of_finish hs hc]

theorem Writes.append_reads (h : Writes t toks) (h' : Reads t' toks') (hbreaks : Breaks t') :
    Reads (t ++ t') (toks ++ toks') := by
  intro out
  obtain ⟨s, hrun, hfinish⟩ := h out
  rw [run_append, hrun, Option.bind_some, run_of_finish hfinish hbreaks, h', List.append_assoc]

theorem isBlank_of_isMark (hc : isMark c = true) : isBlank c = false := by
  simp only [isMark, Bool.or_eq_true, beq_iff_eq] at hc
  rcases hc with ((((rfl | rfl) | rfl) | rfl) | rfl) | rfl
  all_goals rfl

theorem start_mark (hc : isMark c = true) (out : List Token) :
    start out c = ⟨out ++ [.mark c], .gap⟩ := by
  rw [start, if_neg (by simp [isBlank_of_isMark hc]), if_pos hc]

theorem reads_mark (hc : isMark c = true) : Reads [c] [.mark c] := by
  intro out
  show (some (start out c)).bind some = _
  rw [start_mark hc]
  rfl

theorem Reads.mark (hc : isMark c = true) (h : Reads t toks) : Reads (c :: t) (.mark c :: toks) :=
  (reads_mark hc).append h

theorem breaks_mark (hc : isMark c = true) (t : Text) : Breaks (c :: t) :=
  ⟨c, t, rfl, by simp [endsWord, hc]⟩

theorem step_hex {high : Option ℕ} {digits : List ℕ} {d : ℕ} (hd : hexValue c = some d)
    (hlen : digits.length < 3) :
    step ⟨out, .hex t high digits⟩ c = some ⟨out, .hex t high (digits ++ [d])⟩ := by
  show (hexValue c).bind _ = _
  rw [hd, Option.bind_some, if_pos hlen]

/-- **An escape with four hexadecimal digits**, for a character that is no part of a pair. -/
theorem run_unit {c₁ c₂ c₃ c₄ : Char} {d₁ d₂ d₃ d₄ : ℕ} (h₁ : hexValue c₁ = some d₁)
    (h₂ : hexValue c₂ = some d₂) (h₃ : hexValue c₃ = some d₃) (h₄ : hexValue c₄ = some d₄)
    (hc : 16 * (16 * (16 * d₁ + d₂) + d₃) + d₄ = c.toNat) (hlow : c.toNat < 0xD800) :
    run step ⟨out, .str t⟩ ['\\', 'u', c₁, c₂, c₃, c₄] = some ⟨out, .str (t ++ [c])⟩ := by
  have hunit : addUnit t none c.toNat = some (.str (t ++ [c])) := by
    rw [addUnit, if_neg (by omega), if_neg (by omega), Char.ofNat_toNat]
  have hlast : step ⟨out, .hex t none [d₁, d₂, d₃]⟩ c₄ = some ⟨out, .str (t ++ [c])⟩ := by
    show (hexValue c₄).bind _ = _
    rw [h₄, Option.bind_some, if_neg (by simp)]
    show (addUnit t none (16 * (16 * (16 * (16 * 0 + d₁) + d₂) + d₃) + d₄)).map _ = _
    rw [Nat.mul_zero, Nat.zero_add, hc, hunit]
    rfl
  show run step ⟨out, .hex t none []⟩ [c₁, c₂, c₃, c₄] = _
  rw [run, step_hex h₁ (by simp), Option.bind_some, run, step_hex h₂ (by simp),
    Option.bind_some, run, step_hex h₃ (by simp), Option.bind_some, run]
  exact congrArg (·.bind some) hlast

/-- A character that stands for itself. -/
theorem run_plain (hquote : c ≠ '"') (hescape : c ≠ '\\') (hcontrol : 0x20 ≤ c.toNat) :
    run step ⟨out, .str t⟩ [c] = some ⟨out, .str (t ++ [c])⟩ := by
  have hstep : step ⟨out, .str t⟩ c = some ⟨out, .str (t ++ [c])⟩ :=
    (if_neg hquote).trans ((if_neg hescape).trans (if_neg (Nat.not_lt.mpr hcontrol)))
  rw [run, hstep]
  rfl

/-- A way to write the characters of a string. -/
structure Escaping where
  esc : Char → Text
  reads : ∀ c out t, run step ⟨out, .str t⟩ (esc c) = some ⟨out, .str (t ++ [c])⟩

def Escaping.quote (e : Escaping) (s : Text) : Text := '"' :: (s.flatMap e.esc ++ ['"'])

theorem Escaping.run_flatMap (e : Escaping) (s : Text) (out : List Token) (t : Text) :
    run step ⟨out, .str t⟩ (s.flatMap e.esc) = some ⟨out, .str (t ++ s)⟩ := by
  induction s generalizing t with
  | nil =>
      rw [List.append_nil]
      rfl
  | cons c s ih =>
      rw [List.flatMap_cons, run_append, e.reads, Option.bind_some, ih, List.append_assoc,
        List.singleton_append]

/-- **A quoted string is read back.** -/
theorem reads_quote (e : Escaping) (s : Text) : Reads (e.quote s) [.str s] := by
  intro out
  show run step ⟨out, .str []⟩ (s.flatMap e.esc ++ ['"']) = _
  rw [run_append, e.run_flatMap, Option.bind_some]
  rfl

/-- A word has no character that ends it. -/
def IsWord (w : Text) : Prop := w ≠ [] ∧ ∀ c ∈ w, endsWord c = false

theorem isWord_of_all {w : Text} (hne : w ≠ []) (h : (w.all fun c => !endsWord c) = true) :
    IsWord w :=
  ⟨hne, fun c hc => by simpa using List.all_eq_true.mp h c hc⟩

theorem run_word (h : ∀ c ∈ t, endsWord c = false) (out : List Token) (w : Text) :
    run step ⟨out, .word w⟩ t = some ⟨out, .word (w ++ t)⟩ := by
  induction t generalizing w with
  | nil =>
      rw [List.append_nil]
      rfl
  | cons c t ih =>
      have hstep : step ⟨out, .word w⟩ c = some ⟨out, .word (w ++ [c])⟩ :=
        if_neg (by simp [h c List.mem_cons_self])
      rw [run, hstep, Option.bind_some, ih fun d hd => h d (List.mem_cons_of_mem c hd),
        List.append_assoc, List.singleton_append]

theorem start_word (hc : endsWord c = false) (out : List Token) :
    start out c = ⟨out, .word [c]⟩ := by
  obtain ⟨hsep, hquote⟩ := Bool.or_eq_false_iff.mp hc
  obtain ⟨hblank, hmark⟩ := Bool.or_eq_false_iff.mp hsep
  rw [start, if_neg (by simp [hblank]), if_neg (by simp [hmark]),
    if_neg (by simpa using hquote)]

theorem writes_word {w : Text} (h : IsWord w) : Writes w [.word w] := by
  obtain ⟨c, t, rfl⟩ := List.exists_cons_of_ne_nil h.1
  intro out
  refine ⟨⟨out, .word (c :: t)⟩, ?_, rfl⟩
  show run step (start out c) t = _
  rw [start_word (h.2 c List.mem_cons_self),
    run_word fun d hd => h.2 d (List.mem_cons_of_mem c hd)]
  rfl

/-! ### Texts that are cut -/

/-- What is out stays, and of a word under way the beginning. -/
structure Extends (s s' : Scanner) : Prop where
  out : s.out <+: s'.out
  word : ∀ w, s.scan = .word w → (∃ w', s'.scan = .word w') ∧ s'.out = s.out
    ∨ ∃ w', s.out ++ [.word w'] <+: s'.out

theorem Extends.refl (s : Scanner) : Extends s s :=
  ⟨List.prefix_rfl, fun w hw => .inl ⟨⟨w, hw⟩, rfl⟩⟩

theorem Extends.trans {s'' : Scanner} (h : Extends s s') (h' : Extends s' s'') :
    Extends s s'' where
  out := h.out.trans h'.out
  word := by
    intro w hw
    rcases h.word w hw with ⟨⟨w', hw'⟩, hout⟩ | ⟨w', hw'⟩
    · rw [← hout]
      exact h'.word w' hw'
    · exact .inr ⟨w', hw'.trans h'.out⟩

end Foundation.Tokens
