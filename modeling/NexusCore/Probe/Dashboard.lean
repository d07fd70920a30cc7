import NexusCore.Probe.Output

/-!
# The terminal dashboard

`main` reads standard input line by line.  A line that is an object by itself is parsed at
once; any other line goes to the end of a buffer, and a line with nothing but a closing brace
makes the loop look at the buffer: if that is an object, it is parsed and cleared.

The loader's banner is no object, so it goes into the buffer before the report does.  From
then on the buffer begins with a dash (`Stuck`): it is never an object again, so it is never
parsed or cleared, and everything that follows piles up in it (`feedLines_plain`).  The reports
of the loader are not shown, then (`mainLoop_shows_iff`).

Without the banner they would be lost, too, at the brace that closes the buckets
(`feed_reportLines`); what the loop does read are objects on single lines
(`feedLines_objects`).
-/

namespace NexusCore.Probe.Dashboard

open Foundation.Lines Foundation.Utf8

/-! ### The loop -/

/-- The white space of `str::trim`. -/
def isWhitespace (c : Char) : Bool :=
  let n := c.toNat
  decide (9 ≤ n ∧ n ≤ 13 ∨ n = 0x20 ∨ n = 0x85 ∨ n = 0xA0 ∨ n = 0x1680 ∨ 0x2000 ≤ n ∧ n ≤ 0x200A
    ∨ n = 0x2028 ∨ n = 0x2029 ∨ n = 0x202F ∨ n = 0x205F ∨ n = 0x3000)

/-- A report as the dashboard has it: the buckets are keyed by the text of their slots. -/
structure HistogramReport where
  ts : String
  stack : String
  op : String
  p50Ns : UInt64
  p99Ns : UInt64
  p999Ns : UInt64
  totalCount : UInt64
  buckets : String → Option UInt64

/-- The buffer, and the reports that `render_report` has been called on. -/
structure State where
  buf : Text
  rendered : List HistogramReport

/-- `starts_with('{') && ends_with('}')`. -/
def isObject (t : Text) : Bool := t.head? == some '{' && t.getLast? == some '}'

section Loop

variable (fromStr : Text → Option HistogramReport)

/-- A report is rendered if the text is one. -/
def render (rendered : List HistogramReport) (chunk : Text) : List HistogramReport :=
  match fromStr chunk with
  | some report => rendered ++ [report]
  | none => rendered

/-- One turn of the loop. -/
def feedLine (s : State) (line : Text) : State :=
  let t := trim isWhitespace line
  if isObject t then { s with rendered := render fromStr s.rendered t }
  else
    let buf := s.buf ++ (line ++ ['\n'])
    if t = ['}'] then
      let chunk := trim isWhitespace buf
      if isObject chunk then ⟨[], render fromStr s.rendered chunk⟩ else ⟨buf, s.rendered⟩
    else ⟨buf, s.rendered⟩

def feedLines (s : State) (ls : List Text) : State := ls.foldl (feedLine fromStr) s

theorem feedLines_cons (s : State) (l : Text) (ls : List Text) :
    feedLines fromStr s (l :: ls) = feedLines fromStr (feedLine fromStr s l) ls := rfl

theorem feedLines_append (s : State) (ls ls' : List Text) :
    feedLines fromStr s (ls ++ ls') = feedLines fromStr (feedLines fromStr s ls) ls' :=
  List.foldl_append

/-- The state when the input ends. -/
def mainLoop (input : Text) : State := feedLines fromStr ⟨[], []⟩ (lines input)

/-- The same on the bytes of the input: `flatten` leaves out a line that is no text. -/
def mainBytes (input : List UInt8) : State :=
  feedLines fromStr ⟨[], []⟩ ((readLines input).filterMap id)

theorem mainBytes_encode (input : Text) :
    mainBytes fromStr (encode input) = mainLoop fromStr input := by
  rw [mainBytes, readLines_encode, List.filterMap_map]
  exact congrArg _ (List.filterMap_some)

end Loop

/-! ### A buffer that is stuck -/

/-- A text that begins neither with a blank nor with an opening brace. -/
def Stuck (t : Text) : Prop := ∃ c rest, t = c :: rest ∧ isWhitespace c = false ∧ c ≠ '{'

theorem Stuck.append {t : Text} (h : Stuck t) (t' : Text) : Stuck (t ++ t') := by
  obtain ⟨c, rest, rfl, hblank, hbrace⟩ := h
  exact ⟨c, rest ++ t', rfl, hblank, hbrace⟩

theorem Stuck.not_isObject {t : Text} (h : Stuck t) :
    isObject (trim isWhitespace t) = false := by
  obtain ⟨c, rest, rfl, hblank, hbrace⟩ := h
  rw [trim_cons hblank]
  have hhead : (some c == some '{') = false := beq_false_of_ne fun hc => hbrace (Option.some.inj hc)
  show (some c == some '{' && _) = false
  rw [hhead, Bool.false_and]

variable {fromStr : Text → Option HistogramReport}

theorem feedLine_object {line : Text} (s : State)
    (h : isObject (trim isWhitespace line) = true) :
    feedLine fromStr s line
      = { s with rendered := render fromStr s.rendered (trim isWhitespace line) } := if_pos h

/-- A line that is no object goes into a buffer that is stuck then. -/
theorem feedLine_plain {line : Text} {s : State}
    (h : isObject (trim isWhitespace line) = false) (hs : Stuck (s.buf ++ (line ++ ['\n']))) :
    feedLine fromStr s line = ⟨s.buf ++ (line ++ ['\n']), s.rendered⟩ := by
  rw [feedLine, if_neg (Bool.eq_false_iff.mp h)]
  by_cases hbrace : trim isWhitespace line = ['}']
  · exact (if_pos hbrace).trans (if_neg (Bool.eq_false_iff.mp hs.not_isObject))
  · exact if_neg hbrace

/-- **A stuck buffer only grows**, whatever is read. -/
theorem feedLines_stuck (fromStr : Text → Option HistogramReport) (s : State) (ls : List Text)
    (hs : Stuck s.buf) : s.buf <+: (feedLines fromStr s ls).buf := by
  induction ls generalizing s with
  | nil => exact List.prefix_rfl
  | cons l ls ih =>
      rw [feedLines_cons]
      by_cases hobj : isObject (trim isWhitespace l) = true
      · rw [feedLine_object s hobj]
        exact ih ⟨s.buf, render fromStr s.rendered (trim isWhitespace l)⟩ hs
      · have hnext := hs.append (l ++ ['\n'])
        rw [feedLine_plain (Bool.eq_false_iff.mpr hobj) hnext]
        exact (List.prefix_append _ _).trans (ih ⟨s.buf ++ (l ++ ['\n']), s.rendered⟩ hnext)

/-- **Lines that are no objects pile up** in a stuck buffer. -/
theorem feedLines_plain (s : State) {ls : List Text} (hs : Stuck s.buf)
    (h : ∀ l ∈ ls, isObject (trim isWhitespace l) = false) :
    feedLines fromStr s ls = ⟨s.buf ++ unlines ls, s.rendered⟩ := by
  induction ls generalizing s with
  | nil =>
      show s = ⟨s.buf ++ [], s.rendered⟩
      rw [List.append_nil]
  | cons l ls ih =>
      have hnext := hs.append (l ++ ['\n'])
      rw [feedLines_cons, feedLine_plain (h l (by simp)) hnext,
        ih _ hnext fun l' hl' => h l' (by simp [hl']), List.append_assoc]
      rfl

/-! ### What the loader prints -/

/-- A report or an event on the loader's standard output. -/
inductive Printed
  | report (r : Probe.HistogramReport)
  | event (e : Event)

def print : Printed → Text
  | .report r => printReport r
  | .event e => printEvent e

def output (items : List Printed) : Text := items.flatMap print

def reportsOf (items : List Printed) : List Probe.HistogramReport :=
  items.filterMap fun item =>
    match item with
    | .report r => some r
    | .event _ => none

/-- The report that the dashboard has to get. -/
def ofLoader (r : Probe.HistogramReport) : HistogramReport where
  ts := r.timestamp
  stack := r.stack
  op := r.operation
  p50Ns := r.p50NS
  p99Ns := r.p99NS
  p999Ns := r.p999NS
  totalCount := r.totalCount
  buckets := fun key =>
    (r.buckets.find? fun e => String.ofList (decimal e.1.toNat) == key).map Prod.snd

/-- The text of a report or an event is somewhere in the buffer. -/
def HoldsJson (buf : Text) : Prop :=
  (∃ r, marshalIndent r <:+: buf) ∨ ∃ e, encodeEvent e <:+: buf

theorem not_isObject_of_reportLine {l : Text} (h : ReportLine l) :
    isObject (trim isWhitespace l) = false := by
  obtain rfl | ⟨k, c, rest, rfl, hc⟩ := h.start
  · decide
  · have hstuck : Stuck (c :: rest) := by
      refine ⟨c, rest, rfl, ?_, ?_⟩
      · rcases hc with rfl | rfl <;> decide
      · rcases hc with rfl | rfl <;> decide
    rw [trim_blanks]
    · exact hstuck.not_isObject
    · intro b hb
      rw [List.eq_of_mem_replicate hb]
      decide

/-- An event is an object on a line of its own. -/
theorem feed_event (s : State) (e : Event) (rest : Text) :
    feedLines fromStr s (lines (printEvent e ++ rest))
      = feedLines fromStr ⟨s.buf, render fromStr s.rendered (encodeEvent e)⟩ (lines rest) := by
  have hone := oneLine_encodeEvent e
  have hlines : lines (printEvent e ++ rest) = encodeEvent e :: lines rest := by
    have hunlines : printEvent e = unlines [encodeEvent e] := (List.append_nil _).symm
    rw [hunlines]
    apply lines_unlines
    · intro l hl
      rw [List.mem_singleton.mp hl]
      exact fun hmem => (hone _ hmem).1 rfl
    · intro l hl
      rw [List.mem_singleton.mp hl]
      exact fun hmem => (hone _ hmem).2 rfl
  have htrim : trim isWhitespace (encodeEvent e) = encodeEvent e :=
    trim_eq_self (by decide) (by decide) _
  have hobj : isObject (trim isWhitespace (encodeEvent e)) = true := by
    rw [htrim, encodeEvent, isObject, ← List.cons_append, List.getLast?_append]
    rfl
  rw [hlines, feedLines_cons, feedLine_object s hobj, htrim]

/-- The lines of a printed report: those of the banner, the report's own and a blank one. -/
theorem lines_printReport (r : Probe.HistogramReport) (rest : Text) :
    lines (printReport r ++ rest)
      = lines (banner r ++ ['\n']) ++ ((reportLines r ++ [[]]) ++ lines rest) := by
  have htext : printReport r ++ rest
      = banner r ++ '\n' :: (unlines (reportLines r ++ [[]]) ++ rest) := by
    have hblank : unlines [[]] = ['\n'] := rfl
    rw [unlines_append, unlines_reportLines, hblank, printReport]
    simp only [List.append_assoc, List.cons_append, List.nil_append]
  have hone : ∀ l ∈ reportLines r ++ [[]], OneLine l := by
    intro l hl
    rcases List.mem_append.mp hl with hl | hl
    · exact (reportLine_reportLines r l hl).oneLine
    · rw [List.mem_singleton.mp hl]
      exact oneLine_nil
  rw [htext, lines_append, lines_unlines rest fun l hl hmem => (hone l hl _ hmem).1 rfl]
  exact fun l hl hmem => (hone l hl _ hmem).2 rfl

/-- A line that begins with a dash makes the buffer stuck. -/
theorem feed_dash (fromStr : Text → Option HistogramReport) {s : State}
    (hs : s.buf = [] ∨ Stuck s.buf) (l : Text) :
    feedLine fromStr s ('-' :: l) = ⟨s.buf ++ ('-' :: l ++ ['\n']), s.rendered⟩
      ∧ Stuck (s.buf ++ ('-' :: l ++ ['\n'])) := by
  have hline : Stuck ('-' :: l) := ⟨'-', l, rfl, by decide, by decide⟩
  have hnext : Stuck (s.buf ++ ('-' :: l ++ ['\n'])) := by
    rcases hs with hempty | hs
    · rw [hempty]
      exact hline.append ['\n']
    · exact hs.append _
  exact ⟨feedLine_plain hline.not_isObject hnext, hnext⟩

/-- **One report leaves the buffer stuck**, with the whole report in it; unless a line of the
banner is a report itself, nothing is rendered. -/
theorem feed_report (fromStr : Text → Option HistogramReport) {s : State}
    (hs : s.buf = [] ∨ Stuck s.buf) (r : Probe.HistogramReport) (rest : Text) :
    ∃ s', feedLines fromStr s (lines (printReport r ++ rest)) = feedLines fromStr s' (lines rest)
      ∧ Stuck s'.buf ∧ s.buf <+: s'.buf ∧ marshalIndent r <:+: s'.buf
      ∧ (OneLine (banner r) → s'.rendered = s.rendered) := by
  obtain ⟨l, ls, hhead⟩ : ∃ l ls, lines (banner r ++ ['\n']) = ('-' :: l) :: ls :=
    head_lines (by decide) (by decide) _
  obtain ⟨hfeed, hstuck⟩ := feed_dash fromStr hs l
  have hplain : ∀ l ∈ reportLines r ++ [[]], isObject (trim isWhitespace l) = false := by
    intro l hl
    rcases List.mem_append.mp hl with hl | hl
    · exact not_isObject_of_reportLine (reportLine_reportLines r l hl)
    · rw [List.mem_singleton.mp hl]
      decide
  -- the banner has more than one line only if a name has a line feed
  let s₁ : State := ⟨s.buf ++ ('-' :: l ++ ['\n']), s.rendered⟩
  let s₂ := feedLines fromStr s₁ ls
  have hgrow : s₁.buf <+: s₂.buf := feedLines_stuck fromStr s₁ ls hstuck
  have hstuck₂ : Stuck s₂.buf := by
    obtain ⟨t, ht⟩ := hgrow
    rw [← ht]
    exact hstuck.append t
  have hrun : feedLines fromStr s₂ (reportLines r ++ [[]])
      = ⟨s₂.buf ++ unlines (reportLines r ++ [[]]), s₂.rendered⟩ :=
    feedLines_plain s₂ hstuck₂ hplain
  refine ⟨⟨s₂.buf ++ unlines (reportLines r ++ [[]]), s₂.rendered⟩, ?_, hstuck₂.append _, ?_, ?_,
    ?_⟩
  · rw [lines_printReport, hhead, List.cons_append, feedLines_cons, hfeed, feedLines_append,
      feedLines_append, hrun]
  · exact (List.prefix_append _ _).trans (hgrow.trans (List.prefix_append _ _))
  · rw [unlines_append, unlines_reportLines]
    exact ⟨s₂.buf, ['\n'] ++ unlines [[]], by simp only [List.append_assoc]⟩
  · intro hone
    have hline : lines (banner r ++ ['\n']) = [stripReturn (banner r)] :=
      linesFrom_line [] fun hmem => (hone _ hmem).1 rfl
    have hls : ls = [] := (List.cons.inj (hhead.symm.trans hline)).2
    show (feedLines fromStr s₁ ls).rendered = s.rendered
    rw [hls]
    rfl

/-- What a stream of reports and events does to a buffer that is empty or stuck. -/
structure Piles (items : List Printed) (s s' : State) : Prop where
  grown : s.buf <+: s'.buf
  same : reportsOf items = [] → s' = s
  holds : ∀ r ∈ reportsOf items, marshalIndent r <:+: s'.buf
  quiet : (∀ r ∈ reportsOf items, OneLine (banner r)) → s'.rendered = s.rendered

/-- **A stream only piles up**, by induction on what was printed. -/
theorem feed_output (hevent : ∀ e, fromStr (encodeEvent e) = none) (items : List Printed)
    {s : State} (hs : s.buf = [] ∨ Stuck s.buf) :
    Piles items s (feedLines fromStr s (lines (output items))) := by
  induction items generalizing s with
  | nil =>
      exact ⟨List.prefix_rfl, fun _ => rfl, fun r hr => absurd hr List.not_mem_nil, fun _ => rfl⟩
  | cons item items ih =>
      cases item with
      | event e =>
          have hstep : feedLines fromStr s (lines (output (.event e :: items)))
              = feedLines fromStr s (lines (output items)) := by
            show feedLines fromStr s (lines (printEvent e ++ output items)) = _
            rw [feed_event, render, hevent]
          have h := ih hs
          rw [hstep]
          exact ⟨h.grown, h.same, h.holds, h.quiet⟩
      | report r =>
          obtain ⟨s', hstep, hstuck, hgrown, hreport, hrendered⟩ :=
            feed_report fromStr hs r (output items)
          have hstep : feedLines fromStr s (lines (output (.report r :: items)))
              = feedLines fromStr s' (lines (output items)) := hstep
          have h := ih (s := s') (.inr hstuck)
          rw [hstep]
          refine ⟨hgrown.trans h.grown, fun hc => absurd hc (List.cons_ne_nil _ _), ?_, ?_⟩
          · intro r' hr'
            rcases List.mem_cons.mp hr' with rfl | hr'
            · exact hreport.trans h.grown.isInfix
            · exact h.holds r' hr'
          · intro hone
            rw [h.quiet fun r' hr' => hone r' (List.mem_cons_of_mem r hr'),
              hrendered (hone r List.mem_cons_self)]

/-! ### The dashboard on the loader's output -/

theorem not_holdsJson_nil : ¬ HoldsJson [] := by
  intro h
  rcases h with ⟨r, hr⟩ | ⟨e, he⟩
  · have hunlines := unlines_reportLines r
    rw [List.infix_nil.mp hr] at hunlines
    exact absurd (List.cons.inj hunlines).1 (by decide)
  · exact absurd (List.infix_nil.mp he) (List.cons_ne_nil _ _)

/-- **Nothing is rendered** of reports whose names have no line breaks. -/
theorem mainLoop_rendered (hevent : ∀ e, fromStr (encodeEvent e) = none) {items : List Printed}
    (hone : ∀ r ∈ reportsOf items, OneLine r.stack.toList ∧ OneLine r.operation.toList) :
    (mainLoop fromStr (output items)).rendered = [] := by
  have h : Piles items ⟨[], []⟩ (mainLoop fromStr (output items)) :=
    feed_output hevent items (.inl rfl)
  apply h.quiet
  intro r hr
  obtain ⟨hstack, hop⟩ := hone r hr
  exact oneLine_banner hstack hop

/-- **The dashboard shows the loader's reports only if there are none.**  Any report stays in
the buffer, which is never an object and so never cleared. -/
theorem mainLoop_shows_iff (hevent : ∀ e, fromStr (encodeEvent e) = none)
    (items : List Printed) :
    ((mainLoop fromStr (output items)).rendered = (reportsOf items).map ofLoader
        ∧ ¬ HoldsJson (mainLoop fromStr (output items)).buf)
      ↔ reportsOf items = [] := by
  have hpiles : Piles items ⟨[], []⟩ (mainLoop fromStr (output items)) :=
    feed_output hevent items (.inl rfl)
  constructor
  · intro h
    obtain ⟨-, hholds⟩ := h
    rw [List.eq_nil_iff_forall_not_mem]
    intro r hr
    exact hholds (.inl ⟨r, hpiles.holds r hr⟩)
  · intro h
    rw [hpiles.same h, h]
    exact ⟨rfl, not_holdsJson_nil⟩

/-- A report of two reads of some ten nanoseconds. -/
def twoReads : Probe.HistogramReport :=
  ⟨"2024-05-01T12:00:00Z", "surrealdb", "vfs_read", 11, 11, 11, 2, [(3, 2)]⟩

theorem encodeEvent_ne_marshalIndent (e : Event) :
    encodeEvent e ≠ marshalIndent twoReads := by
  intro h
  have hsecond : some '"' = some '\n' := congrArg (fun t : Text => t[1]?) h
  exact absurd hsecond (by decide)

/-- With a parser that knows this report, the report is still not shown. -/
theorem twoReads_not_shown :
    ¬ ((mainLoop (fun t => if t = marshalIndent twoReads then some (ofLoader twoReads) else none)
          (output [.event ⟨7, 0, 0, 0, 9, 512⟩, .report twoReads])).rendered
        = [ofLoader twoReads]
      ∧ ¬ HoldsJson (mainLoop
          (fun t => if t = marshalIndent twoReads then some (ofLoader twoReads) else none)
          (output [.event ⟨7, 0, 0, 0, 9, 512⟩, .report twoReads])).buf) := by
  intro h
  have hnone := (mainLoop_shows_iff (fun e => if_neg (encodeEvent_ne_marshalIndent e))
    [.event ⟨7, 0, 0, 0, 9, 512⟩, .report twoReads]).mp h
  exact absurd hnone (List.cons_ne_nil _ _)

/-- **No parser whatever** makes the dashboard render this report of the loader. -/
theorem twoReads_never_rendered :
    ¬ ∃ fromStr, (mainLoop fromStr (output [.report twoReads])).rendered = [ofLoader twoReads] := by
  intro h
  obtain ⟨fromStr, hrendered⟩ := h
  obtain ⟨s', hrun, -, -, -, hquiet⟩ :=
    feed_report fromStr (s := ⟨[], []⟩) (.inl rfl) twoReads []
  have hone : OneLine (banner twoReads) := by
    apply oneLine_banner
    · simp only [twoReads, String.reduceToList, oneLine_cons, oneLine_nil, and_true]
      decide
    · simp only [twoReads, String.reduceToList, oneLine_cons, oneLine_nil, and_true]
      decide
  have hstate : mainLoop fromStr (output [.report twoReads]) = s' := hrun
  rw [hstate, hquiet hone] at hrendered
  exact absurd hrendered.symm (List.cons_ne_nil _ _)

/-! ### Without the banner -/

/-- **Objects on lines of their own** are parsed one after the other, as they come. -/
theorem feedLines_objects (s : State) {ls : List Text}
    (h : ∀ l ∈ ls, isObject (trim isWhitespace l) = true) :
    feedLines fromStr s ls
      = ⟨s.buf, s.rendered ++ ls.filterMap fun l => fromStr (trim isWhitespace l)⟩ := by
  induction ls generalizing s with
  | nil =>
      show s = ⟨s.buf, s.rendered ++ []⟩
      rw [List.append_nil]
  | cons l ls ih =>
      rw [feedLines_cons, feedLine_object s (h l (by simp)),
        ih _ fun l' hl' => h l' (by simp [hl']), List.filterMap_cons, render]
      cases fromStr (trim isWhitespace l) with
      | none => rfl
      | some r => simp only [List.append_assoc, List.cons_append, List.nil_append]

/-- Neither an object nor a closing brace. -/
def Pushed (l : Text) : Prop :=
  isObject (trim isWhitespace l) = false ∧ trim isWhitespace l ≠ ['}']

theorem feedLines_pushed (s : State) {ls : List Text} (h : ∀ l ∈ ls, Pushed l) :
    feedLines fromStr s ls = ⟨s.buf ++ unlines ls, s.rendered⟩ := by
  induction ls generalizing s with
  | nil =>
      show s = ⟨s.buf ++ [], s.rendered⟩
      rw [List.append_nil]
  | cons l ls ih =>
      obtain ⟨hobj, hbrace⟩ := h l (by simp)
      have hstep : feedLine fromStr s l = ⟨s.buf ++ (l ++ ['\n']), s.rendered⟩ := by
        rw [feedLine, hobj]
        exact if_neg hbrace
      rw [feedLines_cons, hstep, ih _ fun l' hl' => h l' (by simp [hl']), List.append_assoc]
      rfl

theorem pushed_member (indent : ℕ) (name value comma : Text) :
    Pushed (memberLine indent name value comma) := by
  have htrim : trim isWhitespace (memberLine indent name value comma)
      = trim isWhitespace (quote name ++ (": ".toList ++ (value ++ comma))) := by
    apply trim_blanks
    intro b hb
    rw [List.eq_of_mem_replicate hb]
    decide
  rw [Pushed, htrim]
  constructor
  · exact Stuck.not_isObject ⟨'"', _, rfl, by decide, by decide⟩
  · rw [quote, List.cons_append, trim_cons (by decide)]
    exact fun hc => absurd (List.cons.inj hc).1 (by decide)

/-- The lines of a report before the closing braces. -/
def bodyLines (r : Probe.HistogramReport) : List Text :=
  ['{'] :: (fieldLines r ++ (memberLine 2 "buckets".toList ['{'] [] ::
    entryLines (sortedEntries r.buckets)))

theorem reportLines_eq_body {r : Probe.HistogramReport} (h : r.buckets ≠ []) :
    reportLines r = bodyLines r ++ [[' ', ' ', '}'], ['}']] := by
  rw [reportLines, bucketLines, if_neg h, bodyLines]
  simp only [List.cons_append, List.append_assoc, List.nil_append]

theorem pushed_bodyLines (r : Probe.HistogramReport) : ∀ l ∈ bodyLines r, Pushed l := by
  intro l hl
  rcases List.mem_cons.mp hl with rfl | hl
  · exact ⟨by decide, by decide⟩
  · rcases List.mem_append.mp hl with hl | hl
    · obtain ⟨f, -, rfl⟩ := List.mem_map.mp hl
      exact pushed_member 2 _ _ _
    · rcases List.mem_cons.mp hl with rfl | hl
      · exact pushed_member 2 _ _ _
      · obtain ⟨name, n, comma, rfl, -⟩ := mem_entryLines hl
        exact pushed_member 4 _ _ _

/-- **A report is lost without the banner, too.**  The brace that closes the buckets is taken
for the end of the report: the buffer is an object then, but not a complete one, and it is
cleared all the same. -/
theorem feed_reportLines {r : Probe.HistogramReport} (hne : r.buckets ≠ [])
    (hpart : ∀ t, t <+: marshalIndent r → t ≠ marshalIndent r → fromStr t = none)
    (rendered : List HistogramReport) :
    feedLines fromStr ⟨[], rendered⟩ (reportLines r) = ⟨['}', '\n'], rendered⟩ := by
  -- `body` is what stands in the buffer before the first closing brace
  obtain ⟨body, hbody⟩ : ∃ body, unlines (bodyLines r) = '{' :: body := ⟨_, rfl⟩
  let chunk : Text := '{' :: (body ++ [' ', ' '] ++ ['}'])
  have hchunk :
      trim isWhitespace (unlines (bodyLines r) ++ ([' ', ' ', '}'] ++ ['\n'])) = chunk := by
    have hassoc : unlines (bodyLines r) ++ ([' ', ' ', '}'] ++ ['\n'])
        = '{' :: (body ++ [' ', ' '] ++ ['}'] ++ ['\n']) := by
      rw [hbody]
      simp only [List.cons_append, List.append_assoc, List.nil_append]
    rw [hassoc, trim_append_blank (by decide) (by decide)]
    exact trim_eq_self (by decide) (by decide) _
  have hobj : isObject chunk = true := by
    show (some '{' == some '{' && ('{' :: (body ++ [' ', ' '] ++ ['}'])).getLast? == some '}')
      = true
    rw [← List.cons_append, List.getLast?_append]
    rfl
  have hnone : fromStr chunk = none := by
    have htext : marshalIndent r = chunk ++ ['\n', '}'] := by
      have hlines := unlines_reportLines r
      rw [reportLines_eq_body hne, unlines_append, hbody] at hlines
      have hsplit : '{' :: body ++ unlines [[' ', ' ', '}'], ['}']]
          = (chunk ++ ['\n', '}']) ++ ['\n'] := by
        show '{' :: body ++ [' ', ' ', '}', '\n', '}', '\n']
          = '{' :: (body ++ [' ', ' '] ++ ['}']) ++ ['\n', '}'] ++ ['\n']
        simp only [List.cons_append, List.append_assoc, List.nil_append]
      exact List.append_cancel_right (hlines.symm.trans hsplit)
    apply hpart
    · exact ⟨['\n', '}'], htext.symm⟩
    · intro hc
      rw [htext] at hc
      exact absurd (List.self_eq_append_right.mp hc) (by decide)
  have hinner :
      feedLine fromStr ⟨unlines (bodyLines r), rendered⟩ [' ', ' ', '}'] = ⟨[], rendered⟩ := by
    have htrim : trim isWhitespace [' ', ' ', '}'] = ['}'] := by decide
    have hno : ¬ isObject ['}'] = true := by decide
    rw [feedLine, htrim]
    refine (if_neg hno).trans ((if_pos rfl).trans ?_)
    show (if isObject (trim isWhitespace (unlines (bodyLines r) ++ ([' ', ' ', '}'] ++ ['\n'])))
      then _ else _) = _
    rw [hchunk, if_pos hobj, render, hnone]
  have houter : feedLine fromStr ⟨[], rendered⟩ ['}'] = ⟨['}', '\n'], rendered⟩ := rfl
  rw [reportLines_eq_body hne, feedLines_append, feedLines_pushed _ (pushed_bodyLines r),
    List.nil_append, feedLines_cons, hinner, feedLines_cons, houter]
  rfl

end NexusCore.Probe.Dashboard
