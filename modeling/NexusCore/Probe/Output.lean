import NexusCore.Foundation.Lines
import NexusCore.Probe.Loader

/-!
# What the loader prints

`reportHistogram` prints a banner, the report as indented JSON and a blank line;
`readEvents` prints each event as one line of compact JSON.  Both go to standard output.
-/

namespace NexusCore.Probe

open Foundation.Lines

/-! ### JSON values -/

/-- A number in decimal. -/
def decimal (n : ℕ) : Text := Nat.toDigits 10 n

/-- A character of a string: quotes, backslashes and control characters are escaped, and so is
what means something in HTML or ends a line in JavaScript. -/
def escapeChar (c : Char) : Text :=
  if c = '"' ∨ c = '\\' then ['\\', c]
  else if c = '\x08' then ['\\', 'b']
  else if c = '\x0c' then ['\\', 'f']
  else if c = '\n' then ['\\', 'n']
  else if c = '\r' then ['\\', 'r']
  else if c = '\t' then ['\\', 't']
  else if c.toNat < 0x20 ∨ c = '<' ∨ c = '>' ∨ c = '&' then
    ['\\', 'u', '0', '0', Nat.digitChar (c.toNat / 16), Nat.digitChar (c.toNat % 16)]
  else if c.toNat = 0x2028 ∨ c.toNat = 0x2029 then
    ['\\', 'u', '2', '0', '2', Nat.digitChar (c.toNat % 16)]
  else [c]

def quote (s : Text) : Text := '"' :: (s.flatMap escapeChar ++ ['"'])

/-- A text without line feeds and carriage returns. -/
def OneLine (t : Text) : Prop := ∀ c ∈ t, c ≠ '\n' ∧ c ≠ '\r'

@[simp] theorem oneLine_nil : OneLine [] := fun _ hc => absurd hc List.not_mem_nil

@[simp] theorem oneLine_cons {c : Char} {t : Text} :
    OneLine (c :: t) ↔ (c ≠ '\n' ∧ c ≠ '\r') ∧ OneLine t := List.forall_mem_cons

@[simp] theorem oneLine_append {s t : Text} : OneLine (s ++ t) ↔ OneLine s ∧ OneLine t :=
  List.forall_mem_append

@[simp] theorem oneLine_decimal (n : ℕ) : OneLine (decimal n) := by
  intro c hc
  have hdigit : c.isDigit = true := Nat.isDigit_of_mem_toDigits (by decide) (by decide) hc
  constructor
  · rintro rfl
    exact absurd hdigit (by decide)
  · rintro rfl
    exact absurd hdigit (by decide)

theorem digitChar_oneLine {n : ℕ} (h : n < 16) :
    Nat.digitChar n ≠ '\n' ∧ Nat.digitChar n ≠ '\r' := by
  have hall : ∀ k < 16, Nat.digitChar k ≠ '\n' ∧ Nat.digitChar k ≠ '\r' := by decide
  exact hall n h

theorem oneLine_escapeChar (c : Char) : OneLine (escapeChar c) := by
  have hlow := digitChar_oneLine (Nat.mod_lt c.toNat (by decide : 0 < 16))
  unfold escapeChar
  split_ifs with hquote hb hf hfeed hreturn ht hcontrol hsep
  · rcases hquote with rfl | rfl <;> simp
  · simp
  · simp
  · simp
  · simp
  · simp
  · have hsmall : c.toNat / 16 < 16 := by
      rcases hcontrol with h | rfl | rfl | rfl
      · omega
      · decide
      · decide
      · decide
    have hhigh := digitChar_oneLine hsmall
    simp [hlow, hhigh]
  · simp [hlow]
  · simp [hfeed, hreturn]

/-- **A quoted string stays on its line.** -/
@[simp] theorem oneLine_quote (s : Text) : OneLine (quote s) := by
  have hbody : OneLine (s.flatMap escapeChar) := by
    intro c hc
    obtain ⟨a, -, hca⟩ := List.mem_flatMap.mp hc
    exact oneLine_escapeChar a c hca
  rw [quote]
  simp [hbody]

/-! ### Indented reports -/

/-- One line of an object, with the comma if another follows. -/
def memberLine (indent : ℕ) (name value comma : Text) : Text :=
  List.replicate indent ' ' ++ (quote name ++ (": ".toList ++ (value ++ comma)))

/-- The entries with their keys as text, in the order of these. -/
def sortedEntries (buckets : BucketMap) : List (Text × UInt64) :=
  (buckets.map fun e => (decimal e.1.toNat, e.2)).insertionSort fun a b => a.1 ≤ b.1

def entryLines : List (Text × UInt64) → List Text
  | [] => []
  | [e] => [memberLine 4 e.1 (decimal e.2.toNat) []]
  | e :: e' :: entries =>
      memberLine 4 e.1 (decimal e.2.toNat) [','] :: entryLines (e' :: entries)

/-- The last field; an empty map stays on its line. -/
def bucketLines (buckets : BucketMap) : List Text :=
  if buckets = [] then [memberLine 2 "buckets".toList ['{', '}'] []]
  else memberLine 2 "buckets".toList ['{'] [] ::
    (entryLines (sortedEntries buckets) ++ [[' ', ' ', '}']])

/-- The fields before the last one. -/
def reportFields (r : HistogramReport) : List (String × Text) :=
  [("ts", quote r.timestamp.toList), ("stack", quote r.stack.toList),
    ("op", quote r.operation.toList), ("p50_ns", decimal r.p50NS.toNat),
    ("p99_ns", decimal r.p99NS.toNat), ("p999_ns", decimal r.p999NS.toNat),
    ("total_count", decimal r.totalCount.toNat)]

def fieldLines (r : HistogramReport) : List Text :=
  (reportFields r).map fun f => memberLine 2 f.1.toList f.2 [',']

def reportLines (r : HistogramReport) : List Text :=
  ['{'] :: (fieldLines r ++ (bucketLines r.buckets ++ [['}']]))

/-- `json.MarshalIndent(report, "", "  ")`. -/
def marshalIndent (r : HistogramReport) : Text := ['\n'].intercalate (reportLines r)

/-- How a line of a report begins: with a quote or a closing brace after the blanks, or it is
the opening brace. -/
structure ReportLine (l : Text) : Prop where
  oneLine : OneLine l
  start : l = ['{'] ∨ ∃ k c rest, l = List.replicate k ' ' ++ c :: rest ∧ (c = '"' ∨ c = '}')

theorem oneLine_replicate (k : ℕ) : OneLine (List.replicate k ' ') := by
  intro c hc
  rw [List.eq_of_mem_replicate hc]
  decide

theorem reportLine_member (indent : ℕ) (name : Text) {value comma : Text}
    (hvalue : OneLine value) (hcomma : OneLine comma) :
    ReportLine (memberLine indent name value comma) := by
  constructor
  · have hcolon : OneLine ": ".toList := by simp
    simp only [memberLine, oneLine_append, oneLine_quote, oneLine_replicate, hcolon, hvalue,
      hcomma, and_self]
  · exact .inr ⟨indent, '"', _, rfl, .inl rfl⟩

theorem reportLine_brace (k : ℕ) : ReportLine (List.replicate k ' ' ++ ['}']) := by
  constructor
  · simp [oneLine_replicate]
  · exact .inr ⟨k, '}', [], rfl, .inr rfl⟩

theorem mem_entryLines {entries : List (Text × UInt64)} {l : Text} (hl : l ∈ entryLines entries) :
    ∃ name n comma, l = memberLine 4 name (decimal n) comma ∧ OneLine comma := by
  induction entries with
  | nil => exact absurd hl List.not_mem_nil
  | cons e entries ih =>
      cases entries with
      | nil => exact ⟨_, _, _, List.mem_singleton.mp hl, oneLine_nil⟩
      | cons e' entries =>
          rcases List.mem_cons.mp hl with rfl | hl
          · exact ⟨_, _, _, rfl, by simp⟩
          · exact ih hl

theorem reportLine_bucketLines (buckets : BucketMap) :
    ∀ l ∈ bucketLines buckets, ReportLine l := by
  intro l hl
  rw [bucketLines] at hl
  by_cases hempty : buckets = []
  · rw [if_pos hempty] at hl
    rw [List.mem_singleton.mp hl]
    exact reportLine_member 2 _ (by simp) oneLine_nil
  · rw [if_neg hempty] at hl
    rcases List.mem_cons.mp hl with rfl | hl
    · exact reportLine_member 2 _ (by simp) oneLine_nil
    · rcases List.mem_append.mp hl with hl | hl
      · obtain ⟨name, n, comma, rfl, hcomma⟩ := mem_entryLines hl
        exact reportLine_member 4 name (oneLine_decimal n) hcomma
      · rw [List.mem_singleton.mp hl]
        exact reportLine_brace 2

theorem reportLine_fieldLines (r : HistogramReport) : ∀ l ∈ fieldLines r, ReportLine l := by
  intro l hl
  obtain ⟨f, hf, rfl⟩ := List.mem_map.mp hl
  have hall : ∀ f ∈ reportFields r, OneLine f.2 := by
    simp only [reportFields, List.forall_mem_cons, oneLine_quote, oneLine_decimal, true_and]
    exact fun f hf => absurd hf List.not_mem_nil
  exact reportLine_member 2 _ (hall f hf) (by simp)

/-- **Every line of a report** is a member or a brace. -/
theorem reportLine_reportLines (r : HistogramReport) : ∀ l ∈ reportLines r, ReportLine l := by
  intro l hl
  rcases List.mem_cons.mp hl with rfl | hl
  · exact ⟨by simp, .inl rfl⟩
  · rcases List.mem_append.mp hl with hl | hl
    · exact reportLine_fieldLines r l hl
    · rcases List.mem_append.mp hl with hl | hl
      · exact reportLine_bucketLines r.buckets l hl
      · rw [List.mem_singleton.mp hl]
        exact reportLine_brace 0

/-- The lines of a report are its text and a line feed. -/
theorem unlines_reportLines (r : HistogramReport) :
    unlines (reportLines r) = marshalIndent r ++ ['\n'] :=
  unlines_eq_intercalate (List.cons_ne_nil _ _)

def banner (r : HistogramReport) : Text :=
  "--- HISTOGRAM [".toList ++ (r.stack.toList ++ ('/' :: (r.operation.toList ++ "] ---".toList)))

theorem oneLine_banner {r : HistogramReport} (hstack : OneLine r.stack.toList)
    (hop : OneLine r.operation.toList) : OneLine (banner r) := by
  have hopen : OneLine "--- HISTOGRAM [".toList := by
    simp only [String.reduceToList, oneLine_cons, oneLine_nil, and_true]
    decide
  have hclose : OneLine "] ---".toList := by
    simp only [String.reduceToList, oneLine_cons, oneLine_nil, and_true]
    decide
  have hslash : OneLine ('/' :: (r.operation.toList ++ "] ---".toList)) :=
    oneLine_cons.mpr ⟨by decide, oneLine_append.mpr ⟨hop, hclose⟩⟩
  exact oneLine_append.mpr ⟨hopen, oneLine_append.mpr ⟨hstack, hslash⟩⟩

/-- What one call of `reportHistogram` prints. -/
def printReport (r : HistogramReport) : Text :=
  banner r ++ '\n' :: (marshalIndent r ++ ['\n', '\n'])

/-! ### Events -/

def eventMembers (e : Event) : List Text :=
  [("pid", e.pid.toNat), ("stack", e.stack.toNat), ("op", e.op.toNat),
    ("latency_ns", e.latencyNs.toNat), ("bytes", e.bytes.toNat)].map fun f =>
      quote f.1.toList ++ ':' :: decimal f.2

/-- `enc.Encode(e)` without the line feed. -/
def encodeEvent (e : Event) : Text := '{' :: ([','].intercalate (eventMembers e) ++ ['}'])

/-- What one turn of `readEvents` prints. -/
def printEvent (e : Event) : Text := encodeEvent e ++ ['\n']

theorem oneLine_encodeEvent (e : Event) : OneLine (encodeEvent e) := by
  have hmembers : OneLine ([','].intercalate (eventMembers e)) := by
    simp [eventMembers, List.intercalate_cons_cons]
  simp [encodeEvent, hmembers]

end NexusCore.Probe
