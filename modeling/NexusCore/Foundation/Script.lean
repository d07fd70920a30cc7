import Mathlib

/-!
# Statements and quoted literals

A script is a row of statements with a stop character after each.  Between quotes the stop
stands for itself, and an escape takes the character after it along; so what splits a script
is found only by reading it from its beginning (`split`).

* `statements_length`: a cursor that knows whether the statement it is in has shown anything
  counts the statements as they begin (`begun`), and it goes through a text part by part
  (`begun_append`);
* `unsplit_iff`: a part that the stops leave in one piece begins nothing, and leaves nothing to
  be begun;
* `literal_iff`: a text between two quotes is read back as it stands exactly if it is `Plain`.
-/

namespace Foundation.Script

/-- The characters that a reader of scripts looks for, and those that show nothing. -/
structure Punctuation (α : Type*) where
  quote : α
  escape : α
  stop : α
  blank : α → Bool
  quote_ne_stop : quote ≠ stop
  quote_ne_escape : quote ≠ escape
  blank_quote : blank quote = false

/-- Outside a literal, inside one, or inside one after an escape. -/
inductive Mode
  | code
  | literal
  | escaped
deriving DecidableEq

variable {α : Type*} [DecidableEq α] (p : Punctuation α)

def next : Mode → α → Mode
  | .code, c => if c = p.quote then .literal else .code
  | .literal, c => if c = p.quote then .code else if c = p.escape then .escaped else .literal
  | .escaped, _ => .literal

/-- The mode after a text. -/
def after (m : Mode) (text : List α) : Mode := text.foldl (next p) m

/-- The pieces of a text between the stops outside literals. -/
def split : Mode → List α → List (List α)
  | _, [] => [[]]
  | m, c :: text =>
      if m = .code ∧ c = p.stop then [] :: split .code text
      else (split (next p m c) text).modifyHead (c :: ·)

/-- A piece that shows something. -/
def isStatement (piece : List α) : Bool := !piece.all p.blank

def statements (text : List α) : List (List α) := (split p .code text).filter (isStatement p)

/-- How many statements a text adds to the one it begins in. -/
def later (m : Mode) (text : List α) : ℕ := ((split p m text).tail.filter (isStatement p)).length

theorem split_ne_nil (m : Mode) (text : List α) : split p m text ≠ [] := by
  induction text generalizing m with
  | nil => exact List.cons_ne_nil _ _
  | cons c text ih =>
      rw [split]
      by_cases hstop : m = .code ∧ c = p.stop
      · rw [if_pos hstop]
        exact List.cons_ne_nil _ _
      · rw [if_neg hstop]
        obtain ⟨piece, pieces, hsplit⟩ := List.exists_cons_of_ne_nil (ih (next p m c))
        rw [hsplit]
        exact List.cons_ne_nil _ _

/-! ### Counting statements as they begin -/

/-- A mode, and for `code` whether the current statement has shown anything. -/
inductive Cursor
  | fresh
  | running
  | literal
  | escaped
deriving DecidableEq

def Cursor.mode : Cursor → Mode
  | .fresh => .code
  | .running => .code
  | .literal => .literal
  | .escaped => .escaped

def step : Cursor → α → Cursor
  | .fresh, c =>
      if c = p.quote then .literal else if c = p.stop ∨ p.blank c then .fresh else .running
  | .running, c => if c = p.quote then .literal else if c = p.stop then .fresh else .running
  | .literal, c => if c = p.quote then .running else if c = p.escape then .escaped else .literal
  | .escaped, _ => .literal

/-- A statement begins with the first character that shows something. -/
def begins : Cursor → α → ℕ
  | .fresh, c => if c = p.stop ∨ p.blank c then 0 else 1
  | _, _ => 0

def scan (s : Cursor) (text : List α) : Cursor := text.foldl (step p) s

/-- How many statements begin in a text. -/
def begun : Cursor → List α → ℕ
  | _, [] => 0
  | s, c :: text => begins p s c + begun (step p s c) text

theorem begun_append (s : Cursor) (xs ys : List α) :
    begun p s (xs ++ ys) = begun p s xs + begun p (scan p s xs) ys := by
  induction xs generalizing s with
  | nil => exact (Nat.zero_add _).symm
  | cons c xs ih =>
      show begins p s c + begun p (step p s c) (xs ++ ys) = _
      rw [ih, ← Nat.add_assoc]
      rfl

theorem mode_step (s : Cursor) (c : α) : (step p s c).mode = next p s.mode c := by
  cases s with
  | fresh =>
      show (if c = p.quote then Cursor.literal else _).mode = if c = p.quote then _ else _
      split_ifs <;> rfl
  | running =>
      show (if c = p.quote then Cursor.literal else _).mode = if c = p.quote then _ else _
      split_ifs <;> rfl
  | literal =>
      show (if c = p.quote then Cursor.running else _).mode = if c = p.quote then _ else _
      split_ifs <;> rfl
  | escaped => rfl

theorem mode_scan (s : Cursor) (text : List α) : (scan p s text).mode = after p s.mode text := by
  induction text generalizing s with
  | nil => rfl
  | cons c text ih =>
      show (scan p (step p s c) text).mode = after p (next p s.mode c) text
      rw [ih, mode_step]

/-- Only a stop outside a literal makes a cursor fresh. -/
theorem step_ne_fresh {s : Cursor} {c : α} (hs : s ≠ .fresh)
    (hstop : ¬ (s.mode = .code ∧ c = p.stop)) : step p s c ≠ .fresh := by
  cases s with
  | fresh => exact absurd rfl hs
  | running =>
      have hc : c ≠ p.stop := fun hc => hstop ⟨rfl, hc⟩
      rw [step, if_neg hc]
      split_ifs <;> simp
  | literal =>
      rw [step]
      split_ifs <;> simp
  | escaped => simp [step]

theorem step_stop {s : Cursor} (hs : s.mode = .code) : step p s p.stop = .fresh := by
  have hquote : p.stop ≠ p.quote := p.quote_ne_stop.symm
  cases s with
  | fresh => simp [step, hquote]
  | running => simp [step, hquote]
  | literal => cases hs
  | escaped => cases hs

/-- Only a fresh cursor can begin a statement. -/
theorem begins_eq_zero {s : Cursor} (hs : s ≠ .fresh) (c : α) : begins p s c = 0 := by
  cases s with
  | fresh => exact absurd rfl hs
  | running => rfl
  | literal => rfl
  | escaped => rfl

theorem begins_stop (s : Cursor) : begins p s p.stop = 0 := by
  cases s <;> simp [begins]

/-- What a piece counts for: the one the text begins in counts only if it had shown nothing. -/
def counts (s : Cursor) (piece : List α) : ℕ := if s = .fresh ∧ isStatement p piece then 1 else 0

theorem counts_cons {s : Cursor} {c : α} (piece : List α)
    (hstop : ¬ (s.mode = .code ∧ c = p.stop)) :
    begins p s c + counts p (step p s c) piece = counts p s (c :: piece) := by
  by_cases hs : s = .fresh
  · subst hs
    have hc : c ≠ p.stop := fun hc => hstop ⟨rfl, hc⟩
    by_cases hquote : c = p.quote
    · subst hquote
      simp [begins, step, counts, isStatement, hc, p.blank_quote]
    · by_cases hblank : p.blank c = true
      · simp [begins, step, counts, isStatement, hquote, hblank]
      · simp [begins, step, counts, isStatement, hc, hquote, hblank]
  · rw [begins_eq_zero p hs, counts, counts, if_neg fun h => step_ne_fresh p hs hstop h.1,
      if_neg fun h => hs h.1]

omit [DecidableEq α] in
theorem counts_fresh (piece : List α) (pieces : List (List α)) :
    counts p .fresh piece + (pieces.filter (isStatement p)).length
      = ((piece :: pieces).filter (isStatement p)).length := by
  by_cases hpiece : isStatement p piece
  · rw [counts, if_pos ⟨rfl, hpiece⟩, List.filter_cons_of_pos hpiece, List.length_cons,
      Nat.add_comm]
  · rw [counts, if_neg fun h => hpiece h.2, List.filter_cons_of_neg hpiece, Nat.zero_add]

theorem begun_eq {s : Cursor} {text piece : List α} {pieces : List (List α)}
    (hsplit : split p s.mode text = piece :: pieces) :
    begun p s text = counts p s piece + (pieces.filter (isStatement p)).length := by
  induction text generalizing s piece pieces with
  | nil =>
      obtain ⟨rfl, rfl⟩ := List.cons.inj hsplit
      simp [begun, counts, isStatement]
  | cons c text ih =>
      rw [split] at hsplit
      rw [begun]
      by_cases hstop : s.mode = .code ∧ c = p.stop
      · rw [if_pos hstop] at hsplit
        obtain ⟨rfl, rfl⟩ := List.cons.inj hsplit
        obtain ⟨hs, rfl⟩ := hstop
        obtain ⟨piece, pieces, hrest⟩ := List.exists_cons_of_ne_nil (split_ne_nil p .code text)
        rw [begins_stop, step_stop p hs, ih (s := .fresh) hrest, hrest]
        rw [counts_fresh, Nat.zero_add, counts, if_neg fun h => absurd h.2 (by simp [isStatement]),
          Nat.zero_add]
      · rw [if_neg hstop, ← mode_step] at hsplit
        obtain ⟨piece', pieces', hrest⟩ :=
          List.exists_cons_of_ne_nil (split_ne_nil p (step p s c).mode text)
        rw [hrest] at hsplit
        obtain ⟨rfl, rfl⟩ := List.cons.inj hsplit
        rw [ih hrest, ← Nat.add_assoc, counts_cons p piece' hstop]

/-- **The statements of a text are those that begin in it.** -/
theorem statements_length (text : List α) : (statements p text).length = begun p .fresh text := by
  obtain ⟨piece, pieces, hsplit⟩ := List.exists_cons_of_ne_nil (split_ne_nil p .code text)
  rw [begun_eq p (s := .fresh) hsplit, statements, hsplit, counts_fresh]

theorem later_eq {s : Cursor} (hs : s ≠ .fresh) (text : List α) :
    later p s.mode text = begun p s text := by
  obtain ⟨piece, pieces, hsplit⟩ := List.exists_cons_of_ne_nil (split_ne_nil p s.mode text)
  rw [begun_eq p hsplit, later, hsplit, counts, if_neg fun h => hs h.1, Nat.zero_add,
    List.tail_cons]

/-- Characters that leave a cursor as it is. -/
theorem begun_const {s : Cursor} {text : List α}
    (h : ∀ c ∈ text, begins p s c = 0 ∧ step p s c = s) :
    begun p s text = 0 ∧ scan p s text = s := by
  induction text with
  | nil => exact ⟨rfl, rfl⟩
  | cons c text ih =>
      obtain ⟨⟨hbegins, hstep⟩, htext⟩ := List.forall_mem_cons.mp h
      show begins p s c + begun p (step p s c) text = 0 ∧ scan p (step p s c) text = s
      rw [hbegins, hstep, (ih htext).1]
      exact ⟨rfl, (ih htext).2⟩

/-- What is no punctuation goes on with what a cursor is in. -/
theorem begun_inert {s : Cursor} (hs : s = .running ∨ s = .literal) {text : List α}
    (h : ∀ c ∈ text, c ≠ p.quote ∧ c ≠ p.escape ∧ c ≠ p.stop) :
    begun p s text = 0 ∧ scan p s text = s := by
  refine begun_const p fun c hc => ?_
  obtain ⟨hquote, hescape, hstop⟩ := h c hc
  rcases hs with rfl | rfl
  · exact ⟨rfl, by rw [step, if_neg hquote, if_neg hstop]⟩
  · exact ⟨rfl, by rw [step, if_neg hquote, if_neg hescape]⟩

/-- Blanks and stops alone leave a fresh cursor fresh. -/
theorem scan_fresh {text : List α} (h : begun p .fresh text = 0) :
    scan p .fresh text = .fresh := by
  induction text with
  | nil => rfl
  | cons c text ih =>
      obtain ⟨hc, htext⟩ := Nat.add_eq_zero_iff.mp h
      have hblank : c = p.stop ∨ p.blank c := by
        by_contra hnot
        rw [begins, if_neg hnot] at hc
        cases hc
      have hquote : c ≠ p.quote := by
        rintro rfl
        rcases hblank with hstop | hblank
        · exact p.quote_ne_stop hstop
        · rw [p.blank_quote] at hblank
          cases hblank
      have hstep : step p .fresh c = .fresh := by rw [step, if_neg hquote, if_pos hblank]
      rw [hstep] at htext
      show scan p (step p .fresh c) text = .fresh
      rw [hstep, ih htext]

/-- **A text in one piece** adds no statement, and lets none begin after it. -/
theorem unsplit_iff {s : Cursor} (hs : s ≠ .fresh) (text : List α) :
    (split p s.mode text).length = 1 ↔ begun p s text = 0 ∧ scan p s text ≠ .fresh := by
  induction text generalizing s with
  | nil => exact ⟨fun _ => ⟨rfl, hs⟩, fun _ => rfl⟩
  | cons c text ih =>
      rw [split]
      by_cases hstop : s.mode = .code ∧ c = p.stop
      · rw [if_pos hstop]
        obtain ⟨hmode, rfl⟩ := hstop
        constructor
        · intro hlength
          exact absurd (List.length_eq_zero_iff.mp (Nat.succ.inj hlength)) (split_ne_nil p _ _)
        · rintro ⟨hbegun, hscan⟩
          rw [begun, begins_stop, step_stop p hmode, Nat.zero_add] at hbegun
          refine absurd ?_ hscan
          show scan p (step p s p.stop) text = .fresh
          rw [step_stop p hmode, scan_fresh p hbegun]
      · rw [if_neg hstop, List.length_modifyHead, ← mode_step, ih (step_ne_fresh p hs hstop), begun,
          begins_eq_zero p hs, Nat.zero_add]
        rfl

/-! ### Literals -/

/-- What a reader of literals has in hand: inside one, what it has denoted so far. -/
inductive Reading (α : Type*)
  | code
  | literal (shown : List α)
  | escaped (shown : List α)

/-- What the literals of a text denote, one after the other, where an escape and a character
denote `denotes` of it.  A literal that is left open is none. -/
def literals (denotes : α → α) : Reading α → List α → List (List α)
  | _, [] => []
  | .code, c :: text =>
      if c = p.quote then literals denotes (.literal []) text else literals denotes .code text
  | .literal shown, c :: text =>
      if c = p.quote then shown :: literals denotes .code text
      else if c = p.escape then literals denotes (.escaped shown) text
      else literals denotes (.literal (shown ++ [c])) text
  | .escaped shown, c :: text => literals denotes (.literal (shown ++ [denotes c])) text

/-- Without quotes and escapes. -/
def Plain (text : List α) : Prop := p.quote ∉ text ∧ p.escape ∉ text

instance (text : List α) : Decidable (Plain p text) :=
  inferInstanceAs (Decidable (_ ∉ text ∧ _ ∉ text))

omit [DecidableEq α] in
theorem plain_cons {c : α} {text : List α} :
    Plain p (c :: text) ↔ (c ≠ p.quote ∧ c ≠ p.escape) ∧ Plain p text := by
  simp only [Plain, List.mem_cons, not_or, ne_comm (a := c)]
  tauto

/-- A plain text inside a literal. -/
theorem begun_plain {text : List α} (h : Plain p text) :
    begun p .literal text = 0 ∧ scan p .literal text = .literal := by
  refine begun_const p fun c hc => ⟨rfl, ?_⟩
  have hquote : c ≠ p.quote := fun he => h.1 (he ▸ hc)
  have hescape : c ≠ p.escape := fun he => h.2 (he ▸ hc)
  rw [step, if_neg hquote, if_neg hescape]

variable {p} (denotes : α → α)

theorem literals_code {xs : List α} (h : p.quote ∉ xs) (ys : List α) :
    literals p denotes .code (xs ++ ys) = literals p denotes .code ys := by
  induction xs with
  | nil => rfl
  | cons c xs ih =>
      obtain ⟨hc, hxs⟩ := not_or.mp (fun hmem => h (List.mem_cons.mpr hmem))
      rw [List.cons_append, literals, if_neg (Ne.symm hc), ih hxs]

theorem literals_plain {xs : List α} (h : Plain p xs) (shown ys : List α) :
    literals p denotes (.literal shown) (xs ++ ys)
      = literals p denotes (.literal (shown ++ xs)) ys := by
  induction xs generalizing shown with
  | nil => rw [List.append_nil, List.nil_append]
  | cons c xs ih =>
      obtain ⟨⟨hquote, hescape⟩, hxs⟩ := (plain_cons p).mp h
      rw [List.cons_append, literals, if_neg hquote, if_neg hescape, ih hxs, List.append_assoc,
        List.singleton_append]

theorem literals_open {text : List α} (h : p.quote ∉ text) (r : Reading α) :
    literals p denotes r text = [] := by
  induction text generalizing r with
  | nil => cases r <;> rfl
  | cons c text ih =>
      obtain ⟨hc, htext⟩ := not_or.mp (fun hmem => h (List.mem_cons.mpr hmem))
      cases r with
      | code => rw [literals, if_neg (Ne.symm hc), ih htext]
      | literal shown =>
          rw [literals, if_neg (Ne.symm hc)]
          split_ifs
          · exact ih htext _
          · exact ih htext _
      | escaped shown => exact ih htext _

def Reading.shown : Reading α → List α
  | .code => []
  | .literal shown => shown
  | .escaped shown => shown

/-- A literal denotes no more than what stands before the last quote. -/
theorem length_le_of_literals {r : Reading α} {text rest l : List α} {ls : List (List α)}
    (hr : r ≠ .code) (hrest : p.quote ∉ rest)
    (h : literals p denotes r (text ++ p.quote :: rest) = l :: ls) :
    l.length ≤ r.shown.length + text.length := by
  induction text generalizing r with
  | nil =>
      cases r with
      | code => exact absurd rfl hr
      | literal shown =>
          rw [List.nil_append, literals, if_pos rfl] at h
          exact (congrArg List.length (List.cons.inj h).1).ge
      | escaped shown =>
          rw [List.nil_append, literals, literals_open denotes hrest] at h
          cases h
  | cons c text ih =>
      rw [List.cons_append] at h
      rw [List.length_cons]
      cases r with
      | code => exact absurd rfl hr
      | literal shown =>
          rw [literals] at h
          split_ifs at h with hquote hescape
          · have hl := congrArg List.length (List.cons.inj h).1
            show l.length ≤ shown.length + _
            omega
          · have hle : l.length ≤ shown.length + text.length := ih (r := .escaped shown) nofun h
            show l.length ≤ shown.length + _
            omega
          · have hle := ih (r := .literal (shown ++ [c])) nofun h
            simp only [Reading.shown, List.length_append, List.length_singleton] at hle ⊢
            omega
      | escaped shown =>
          have hle := ih (r := .literal (shown ++ [denotes c])) nofun h
          simp only [Reading.shown, List.length_append, List.length_singleton] at hle ⊢
          omega

theorem plain_of_literals {shown text rest : List α} {ls : List (List α)} (hrest : p.quote ∉ rest)
    (h : literals p denotes (.literal shown) (text ++ p.quote :: rest) = (shown ++ text) :: ls) :
    Plain p text := by
  induction text generalizing shown with
  | nil => exact ⟨List.not_mem_nil, List.not_mem_nil⟩
  | cons c text ih =>
      rw [List.cons_append, literals] at h
      split_ifs at h with hquote hescape
      · have hlength := congrArg List.length (List.cons.inj h).1
        rw [List.length_append, List.length_cons] at hlength
        omega
      · -- the escape is not denoted, so what is denoted is too short
        have hle := length_le_of_literals denotes (r := .escaped shown) nofun hrest h
        simp only [Reading.shown, List.length_append, List.length_cons] at hle
        omega
      · rw [show shown ++ c :: text = (shown ++ [c]) ++ text by simp] at h
        exact (plain_cons p).mpr ⟨⟨hquote, hescape⟩, ih h⟩

/-- **A text between quotes is read back as it stands exactly if it is plain.** -/
theorem literal_iff {text rest : List α} (hrest : p.quote ∉ rest) :
    literals p denotes .code (p.quote :: text ++ p.quote :: rest) = [text] ↔ Plain p text := by
  rw [List.cons_append, literals, if_pos rfl]
  constructor
  · intro h
    rw [← List.nil_append text] at h
    exact plain_of_literals denotes hrest h
  · intro hplain
    rw [literals_plain denotes hplain, literals, if_pos rfl, List.nil_append,
      literals_open denotes hrest]

end Foundation.Script
