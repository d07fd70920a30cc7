import NexusCore.Foundation.Lines
import NexusCore.Foundation.Utf8

/-!
# Messages with a head and a length

A message is a start line, header fields with one line each, an empty line and a body; one of the
fields says how many bytes the body has.  A reader of a stream knows from it where the next
message begins.

`read_write`: a well-formed message is read back, whatever follows it.
-/

namespace Foundation.Http

open Foundation.Lines Foundation.Utf8

structure Message where
  start : Text
  fields : List (Text × Text)
  body : Text
  deriving DecidableEq

/-! ### Writing -/

def crlf : Text := ['\r', '\n']

def fieldLine (f : Text × Text) : Text := f.1 ++ ':' :: ' ' :: f.2

/-- The lines of a head, and the empty one after them. -/
def writeHead : List Text → Text
  | [] => crlf
  | l :: ls => l ++ (crlf ++ writeHead ls)

def Message.head (m : Message) : List Text := m.start :: m.fields.map fieldLine

def write (m : Message) : Text := writeHead m.head ++ m.body

/-! ### Reading -/

/-- The lines up to an empty one, and what follows it; `line` is the beginning of the current
line. -/
def headFrom (line : Text) : Text → Option (List Text × Text)
  | [] => none
  | c :: text =>
      if c = '\n' then
        if stripReturn line = [] then some ([], text)
        else (headFrom [] text).map fun h => (stripReturn line :: h.1, h.2)
      else headFrom (line ++ [c]) text

/-- A name up to the first colon, and the value without the blanks before it. -/
def readField (line : Text) : Option (Text × Text) :=
  if ':' ∈ line then
    some (line.takeWhile (· != ':'),
      ((line.dropWhile (· != ':')).drop 1).dropWhile (· == ' '))
  else none

def readNumber (t : Text) : Option ℕ :=
  if t ≠ [] ∧ t.all Char.isDigit then some (Nat.ofDigitChars 10 t 0) else none

/-- The names of fields are compared without case. -/
def contentLength (fields : List (Text × Text)) : Option ℕ :=
  (fields.find? fun f => f.1.map Char.toLower == "content-length".toList).bind fun f =>
    readNumber f.2

/-- The message that a stream begins with, and the rest of the stream. -/
def read (text : Text) : Option (Message × Text) :=
  (headFrom [] text).bind fun h =>
    h.1.head?.bind fun start =>
      (h.1.tail.mapM readField).bind fun fields =>
        (contentLength fields).bind fun n =>
          (takeBytes h.2 n).map fun body => (⟨start, fields, body⟩, h.2.drop body.length)

/-! ### What is written is read -/

def OneLine (t : Text) : Prop := '\r' ∉ t ∧ '\n' ∉ t

instance (t : Text) : Decidable (OneLine t) := inferInstanceAs (Decidable (_ ∧ _))

structure FieldOk (f : Text × Text) : Prop where
  name : OneLine f.1
  noColon : ':' ∉ f.1
  value : OneLine f.2
  noBlank : f.2.head? ≠ some ' '

structure WellFormed (m : Message) : Prop where
  start : OneLine m.start
  start_ne : m.start ≠ []
  fields : ∀ f ∈ m.fields, FieldOk f
  length : contentLength m.fields = some (byteLength m.body)

theorem oneLine_append {s t : Text} (hs : OneLine s) (ht : OneLine t) : OneLine (s ++ t) :=
  ⟨fun h => (List.mem_append.mp h).elim hs.1 ht.1, fun h => (List.mem_append.mp h).elim hs.2 ht.2⟩

theorem FieldOk.oneLine {f : Text × Text} (h : FieldOk f) : OneLine (fieldLine f) :=
  oneLine_append h.name (oneLine_append (s := [':', ' ']) (by decide) h.value)

theorem headFrom_line {line : Text} (h : '\n' ∉ line) (acc rest : Text) :
    headFrom acc (line ++ '\n' :: rest) = if stripReturn (acc ++ line) = [] then some ([], rest)
      else (headFrom [] rest).map fun h => (stripReturn (acc ++ line) :: h.1, h.2) := by
  induction line generalizing acc with
  | nil =>
      rw [List.nil_append, headFrom, if_pos rfl, List.append_nil]
  | cons c line ih =>
      have hc : c ≠ '\n' := fun hc => h (by simp [hc])
      rw [List.cons_append, headFrom, if_neg hc, ih fun hmem => h (by simp [hmem]),
        List.append_assoc, List.singleton_append]

theorem stripReturn_concat (line : Text) : stripReturn (line ++ ['\r']) = line := by
  rw [stripReturn, List.getLast?_concat, if_pos rfl, List.dropLast_concat]

/-- **The lines of a head are read back.** -/
theorem headFrom_writeHead {ls : List Text} (h : ∀ l ∈ ls, OneLine l ∧ l ≠ []) (rest : Text) :
    headFrom [] (writeHead ls ++ rest) = some (ls, rest) := by
  have hfeed : ∀ l, OneLine l → '\n' ∉ l ++ ['\r'] := by
    intro l hl hmem
    rcases List.mem_append.mp hmem with hin | hin
    · exact hl.2 hin
    · exact absurd hin (by decide)
  induction ls with
  | nil => rfl
  | cons l ls ih =>
      obtain ⟨⟨hone, hne⟩, hls⟩ := List.forall_mem_cons.mp h
      have htext : writeHead (l :: ls) ++ rest
          = (l ++ ['\r']) ++ '\n' :: (writeHead ls ++ rest) := by
        simp [writeHead, crlf]
      rw [htext, headFrom_line (hfeed l hone), List.nil_append, stripReturn_concat, if_neg hne,
        ih hls]
      rfl

theorem readField_fieldLine {f : Text × Text} (h : FieldOk f) :
    readField (fieldLine f) = some f := by
  have hname : ∀ c ∈ f.1, (c != ':') = true := fun c hc =>
    bne_iff_ne.mpr fun heq => h.noColon (heq ▸ hc)
  have hvalue : f.2.dropWhile (· == ' ') = f.2 := by
    cases hf : f.2 with
    | nil => rfl
    | cons c value =>
        have hc : ¬ (c == ' ') = true := fun heq => h.noBlank (by rw [hf, beq_iff_eq.mp heq]; rfl)
        exact List.dropWhile_cons_of_neg (p := fun x => x == ' ') hc
  rw [readField, fieldLine, if_pos (List.mem_append_right _ List.mem_cons_self),
    List.takeWhile_append_of_pos hname, List.dropWhile_append_of_pos hname,
    List.takeWhile_cons_of_neg (by decide), List.dropWhile_cons_of_neg (by decide),
    List.append_nil, List.drop_one, List.tail_cons, List.dropWhile_cons_of_pos (by decide), hvalue]

theorem mapM_readField {fields : List (Text × Text)} (h : ∀ f ∈ fields, FieldOk f) :
    (fields.map fieldLine).mapM readField = some fields := by
  induction fields with
  | nil => rfl
  | cons f fields ih =>
      obtain ⟨hf, hfields⟩ := List.forall_mem_cons.mp h
      rw [List.map_cons, List.mapM_cons, readField_fieldLine hf, ih hfields]
      rfl

/-- **A message is read back, whatever follows it.** -/
theorem read_write {m : Message} (h : WellFormed m) (more : Text) :
    read (write m ++ more) = some (m, more) := by
  have hlines : ∀ l ∈ m.head, OneLine l ∧ l ≠ [] := by
    rw [Message.head, List.forall_mem_cons]
    refine ⟨⟨h.start, h.start_ne⟩, fun l hl => ?_⟩
    obtain ⟨f, hf, rfl⟩ := List.mem_map.mp hl
    exact ⟨(h.fields f hf).oneLine, by simp [fieldLine]⟩
  rw [read, write, List.append_assoc, headFrom_writeHead hlines]
  show ((m.fields.map fieldLine).mapM readField).bind _ = _
  rw [mapM_readField h.fields, Option.bind_some, h.length, Option.bind_some, takeBytes_append,
    Option.map_some, List.drop_left]

end Foundation.Http
