import NexusCore.Foundation.Utf8

/-!
# Text as lines

A reader that hands out a text line by line ends each line at a line feed, which it leaves
out together with a carriage return right before it; what follows the last line feed is a line
too, unless it is empty.

* `lines_append`: the lines of a text that ends with a line feed come first, whatever follows;
* `lines_unlines`: lines that are written one after the other are read back;
* `head_lines`: the first line begins as the text does;
* `readLines_encode`: the lines of an encoded text are those of the text;
* `trim_blanks`, `trim_cons`, `trim_append_blank`, `trim_eq_self`: a line without the blanks
  around it.
-/

namespace Foundation.Lines

abbrev Text := List Char

/-- The lines, each with its line feed. -/
def unlines (ls : List Text) : Text := ls.flatMap (· ++ ['\n'])

/-- A line without the carriage return at its end. -/
def stripReturn (line : Text) : Text :=
  if line.getLast? = some '\r' then line.dropLast else line

/-- The lines of a text after `line`, the beginning of the current one. -/
def linesFrom (line : Text) : Text → List Text
  | [] => if line = [] then [] else [line]
  | c :: text =>
      if c = '\n' then stripReturn line :: linesFrom [] text else linesFrom (line ++ [c]) text

def lines (text : Text) : List Text := linesFrom [] text

theorem unlines_cons (l : Text) (ls : List Text) : unlines (l :: ls) = l ++ '\n' :: unlines ls := by
  rw [unlines, List.flatMap_cons, List.append_assoc]
  rfl

theorem unlines_append (ls ls' : List Text) : unlines (ls ++ ls') = unlines ls ++ unlines ls' :=
  List.flatMap_append

/-- Text between line feeds, with one more at the end. -/
theorem unlines_eq_intercalate {ls : List Text} (h : ls ≠ []) :
    unlines ls = ['\n'].intercalate ls ++ ['\n'] := by
  induction ls with
  | nil => exact absurd rfl h
  | cons l ls ih =>
      rw [unlines_cons]
      cases ls with
      | nil => rw [List.intercalate_singleton]; rfl
      | cons l' ls =>
          rw [ih (List.cons_ne_nil l' ls), List.intercalate_cons_cons, List.append_assoc,
            List.append_assoc]
          rfl

/-! ### Reading lines -/

theorem linesFrom_line {line rest : Text} (acc : Text) (h : '\n' ∉ line) :
    linesFrom acc (line ++ '\n' :: rest) = stripReturn (acc ++ line) :: lines rest := by
  induction line generalizing acc with
  | nil =>
      show linesFrom acc ('\n' :: rest) = _
      rw [linesFrom, if_pos rfl, List.append_nil]
      rfl
  | cons c line ih =>
      have hc : c ≠ '\n' := fun hc => h (by simp [hc])
      show linesFrom acc (c :: (line ++ '\n' :: rest)) = _
      rw [linesFrom, if_neg hc, ih _ fun hmem => h (by simp [hmem]), List.append_assoc]
      rfl

/-- A line feed ends the lines before it. -/
theorem linesFrom_append (acc text rest : Text) :
    linesFrom acc (text ++ '\n' :: rest) = linesFrom acc (text ++ ['\n']) ++ lines rest := by
  induction text generalizing acc with
  | nil =>
      show linesFrom acc ('\n' :: rest) = linesFrom acc ['\n'] ++ lines rest
      rw [linesFrom, if_pos rfl, linesFrom, if_pos rfl]
      rfl
  | cons c text ih =>
      show linesFrom acc (c :: (text ++ '\n' :: rest))
        = linesFrom acc (c :: (text ++ ['\n'])) ++ lines rest
      rw [linesFrom, linesFrom]
      by_cases hc : c = '\n'
      · rw [if_pos hc, if_pos hc, ih, List.cons_append]
      · rw [if_neg hc, if_neg hc, ih]

theorem lines_append (text rest : Text) :
    lines (text ++ '\n' :: rest) = lines (text ++ ['\n']) ++ lines rest :=
  linesFrom_append [] text rest

theorem stripReturn_eq {line : Text} (h : '\r' ∉ line) : stripReturn line = line :=
  if_neg fun hc => h (List.mem_of_getLast? hc)

/-- **Lines that were written are read back.** -/
theorem lines_unlines {ls : List Text} (rest : Text) (hfeed : ∀ l ∈ ls, '\n' ∉ l)
    (hreturn : ∀ l ∈ ls, '\r' ∉ l) : lines (unlines ls ++ rest) = ls ++ lines rest := by
  induction ls with
  | nil => rfl
  | cons l ls ih =>
      have hl : lines (l ++ '\n' :: (unlines ls ++ rest)) = l :: lines (unlines ls ++ rest) := by
        rw [lines, linesFrom_line [] (hfeed l (by simp)), List.nil_append,
          stripReturn_eq (hreturn l (by simp))]
      rw [unlines_cons, List.append_assoc, List.cons_append, hl,
        ih (fun l' hl' => hfeed l' (by simp [hl'])) fun l' hl' => hreturn l' (by simp [hl'])]
      rfl

theorem head_stripReturn {c : Char} (hc : c ≠ '\r') (line : Text) :
    ∃ l, stripReturn (c :: line) = c :: l := by
  rw [stripReturn]
  by_cases hlast : (c :: line).getLast? = some '\r'
  · rw [if_pos hlast]
    cases line with
    | nil => exact absurd (Option.some.inj hlast) hc
    | cons d line => exact ⟨(d :: line).dropLast, rfl⟩
  · rw [if_neg hlast]
    exact ⟨line, rfl⟩

/-- The line that has begun goes on, up to a line feed that comes later. -/
theorem head_linesFrom {c : Char} (hc : c ≠ '\r') (line text : Text) :
    ∃ l ls, linesFrom (c :: line) (text ++ ['\n']) = (c :: l) :: ls := by
  obtain ⟨l, hl⟩ := head_stripReturn hc line
  induction text generalizing line l with
  | nil =>
      show ∃ l ls, linesFrom (c :: line) ['\n'] = (c :: l) :: ls
      rw [linesFrom, if_pos rfl, hl]
      exact ⟨l, _, rfl⟩
  | cons d text ih =>
      show ∃ l ls, linesFrom (c :: line) (d :: (text ++ ['\n'])) = (c :: l) :: ls
      rw [linesFrom]
      by_cases hd : d = '\n'
      · rw [if_pos hd, hl]
        exact ⟨l, _, rfl⟩
      · rw [if_neg hd]
        obtain ⟨l', hl'⟩ := head_stripReturn hc (line ++ [d])
        exact ih (line ++ [d]) l' hl'

/-- The first line begins as the text does. -/
theorem head_lines {c : Char} (hfeed : c ≠ '\n') (hreturn : c ≠ '\r') (text : Text) :
    ∃ l ls, lines (c :: text ++ ['\n']) = (c :: l) :: ls := by
  show ∃ l ls, linesFrom [] (c :: (text ++ ['\n'])) = (c :: l) :: ls
  rw [linesFrom, if_neg hfeed]
  exact head_linesFrom hreturn [] text

/-! ### Lines of bytes -/

open Utf8

/-- The lines of the bytes after `line`; a line that is no text is an error. -/
def readLinesFrom (line : List UInt8) : List UInt8 → List (Option Text)
  | [] => if line = [] then [] else [decode? line]
  | b :: bytes =>
      if b = 10 then (decode? line).map stripReturn :: readLinesFrom [] bytes
      else readLinesFrom (line ++ [b]) bytes

def readLines (bytes : List UInt8) : List (Option Text) := readLinesFrom [] bytes

theorem readLinesFrom_append (acc : List UInt8) {line : List UInt8} (h : 10 ∉ line)
    (rest : List UInt8) : readLinesFrom acc (line ++ rest) = readLinesFrom (acc ++ line) rest := by
  induction line generalizing acc with
  | nil => rw [List.nil_append, List.append_nil]
  | cons b line ih =>
      have hb : b ≠ 10 := fun hb => h (by simp [hb])
      rw [List.cons_append, readLinesFrom, if_neg hb, ih _ fun hmem => h (by simp [hmem]),
        List.append_assoc]
      rfl

theorem readLinesFrom_encode (acc text : Text) :
    readLinesFrom (encode acc) (encode text) = (linesFrom acc text).map some := by
  have hdecode : ∀ t, decode? (encode t) = some t := fun t => decode?_eq_some_iff.mpr rfl
  induction text generalizing acc with
  | nil =>
      show (if encode acc = [] then [] else [decode? (encode acc)]) = _
      rw [linesFrom, hdecode]
      cases acc with
      | nil => rfl
      | cons c acc =>
          have hne : encode (c :: acc) ≠ [] := by
            rw [encode_cons]
            exact List.append_ne_nil_of_left_ne_nil String.utf8EncodeChar_ne_nil _
          rw [if_neg hne, if_neg (List.cons_ne_nil c acc)]
          rfl
  | cons c text ih =>
      rw [linesFrom]
      by_cases hc : c = '\n'
      · subst hc
        show readLinesFrom (encode acc) (10 :: encode text) = _
        rw [readLinesFrom, if_pos rfl, if_pos rfl, hdecode, List.map_cons]
        exact congrArg _ (ih [])
      · have hfeed : 10 ∉ String.utf8EncodeChar c := by
          have hone : 10 ∉ encode [c] := fun h =>
            hc (List.mem_singleton.mp (feed_mem_encode.mp h)).symm
          rwa [encode_cons, show encode [] = [] from rfl, List.append_nil] at hone
        rw [encode_cons, readLinesFrom_append _ hfeed, if_neg hc, ← ih, encode_append,
          encode_cons, show encode [] = [] from rfl, List.append_nil]

/-- **The lines of an encoded text** are those of the text. -/
theorem readLines_encode (text : Text) : readLines (encode text) = (lines text).map some :=
  readLinesFrom_encode [] text

/-! ### Trimming -/

/-- A text without the blanks at either end. -/
def trim (blank : Char → Bool) (text : Text) : Text := (text.dropWhile blank).rdropWhile blank

variable {blank : Char → Bool}

/-- Blanks in front do not matter. -/
theorem trim_blanks {indent : Text} (h : ∀ c ∈ indent, blank c = true) (text : Text) :
    trim blank (indent ++ text) = trim blank text := by
  rw [trim, List.dropWhile_append_of_pos h]
  rfl

theorem rdropWhile_cons {c : Char} (h : blank c = false) (text : Text) :
    (c :: text).rdropWhile blank = c :: text.rdropWhile blank := by
  induction text using List.reverseRecOn with
  | nil =>
      rw [List.rdropWhile_singleton, h, List.rdropWhile_nil]
      rfl
  | append_singleton text d ih =>
      show (c :: text ++ [d]).rdropWhile blank = _
      rw [List.rdropWhile_concat, List.rdropWhile_concat, ih]
      by_cases hd : blank d = true
      · rw [if_pos hd, if_pos hd]
      · rw [if_neg hd, if_neg hd]
        rfl

/-- What does not begin with a blank keeps its beginning. -/
theorem trim_cons {c : Char} (h : blank c = false) (text : Text) :
    trim blank (c :: text) = c :: text.rdropWhile blank := by
  rw [trim, List.dropWhile_cons_of_neg (Bool.eq_false_iff.mp h), rdropWhile_cons h]

/-- A blank at the end does not matter. -/
theorem trim_append_blank {c d : Char} (hc : blank c = false) (hd : blank d = true) (text : Text) :
    trim blank (c :: (text ++ [d])) = trim blank (c :: text) := by
  rw [trim_cons hc, trim_cons hc, List.rdropWhile_concat_pos blank text d hd]

/-- What begins and ends with no blank is kept. -/
theorem trim_eq_self {c d : Char} (hc : blank c = false) (hd : blank d = false) (text : Text) :
    trim blank (c :: (text ++ [d])) = c :: (text ++ [d]) := by
  rw [trim_cons hc, List.rdropWhile_concat_neg blank text d (Bool.eq_false_iff.mp hd)]

end Foundation.Lines
