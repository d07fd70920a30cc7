import NexusCore.Guest.Model

/-!
# Payloads and the shape of a text

`process_event` splices the strings of a payload into its templates as they are.  What a
template adds is read by running a cursor over its parts; between them the cursor goes through
the payload.  The shape is the template's exactly for payloads that are `Harmless`
(`surql_keepsShape_iff`).
-/

namespace NexusCore.Guest

open Foundation.Script SerdeValue

/-! ### Running a cursor over a template -/

theorem digits_inert {n : ℕ} {c : Char} (hc : c ∈ (toString n).toList) :
    c ≠ punctuation.quote ∧ c ≠ punctuation.escape ∧ c ≠ punctuation.stop := by
  have hdigit : c.isDigit = true := by
    rw [show (toString n).toList = Nat.toDigits 10 n by simp [toString, Nat.repr]] at hc
    exact Nat.isDigit_of_mem_toDigits (by decide) (by decide) hc
  refine ⟨?_, ?_, ?_⟩
  · rintro rfl
    exact absurd hdigit (by decide)
  · rintro rfl
    exact absurd hdigit (by decide)
  · rintro rfl
    exact absurd hdigit (by decide)

/-- What follows a table begins a statement if the table has ended one. -/
theorem begun_limit (s : Cursor) (n : ℕ) :
    begun punctuation s (" LIMIT ".toList ++ ((toString n).toList ++ ";".toList))
      = if s = .fresh then 1 else 0 := by
  have hlimit : begun punctuation s " LIMIT ".toList = if s = .fresh then 1 else 0 := by
    cases s <;> decide
  have hgoes : scan punctuation s " LIMIT ".toList = .running
      ∨ scan punctuation s " LIMIT ".toList = .literal := by
    cases s <;> decide
  obtain ⟨hbegun, hscan⟩ := begun_inert punctuation hgoes fun c => digits_inert (n := n)
  have hstop : begun punctuation (scan punctuation s " LIMIT ".toList) ";".toList = 0 :=
    begins_stop punctuation _
  rw [begun_append, begun_append, hbegun, hscan, hstop, hlimit]
  rfl

/-- The statements of a select. -/
theorem statements_select (table : List Char) (n : ℕ) :
    (statements punctuation
        ("SELECT * FROM ".toList
          ++ (table ++ (" LIMIT ".toList ++ ((toString n).toList ++ ";".toList))))).length
      = 1 + (begun punctuation .running table
        + if scan punctuation .running table = .fresh then 1 else 0) := by
  have hhead : begun punctuation .fresh "SELECT * FROM ".toList = 1 := by decide
  have hrunning : scan punctuation .fresh "SELECT * FROM ".toList = .running := by decide
  rw [statements_length, begun_append, hhead, hrunning, begun_append, begun_limit]

/-- The separator of a relation begins its second statement, unless it is inside a literal. -/
theorem begun_separator (s : Cursor) :
    begun punctuation s "; SELECT ->".toList = (if s.mode = .code then 1 else 0)
      ∧ scan punctuation s "; SELECT ->".toList
        = if s.mode = .code then .running else .literal := by
  cases s <;> decide

/-- The statements of a relation. -/
theorem statements_relate (path traversal : List Char) :
    (statements punctuation
        ("RELATE ".toList ++ (path ++ ("; SELECT ->".toList ++ (traversal ++ ";".toList))))).length
      = if after punctuation .code path = .code then
          2 + (later punctuation .code path + later punctuation .code traversal)
        else 1 + (later punctuation .code path + later punctuation .literal traversal) := by
  have hhead : begun punctuation .fresh "RELATE ".toList = 1 := by decide
  have hrunning : scan punctuation .fresh "RELATE ".toList = .running := by decide
  have hstop (s : Cursor) : begun punctuation s ";".toList = 0 := begins_stop punctuation s
  have hpath : begun punctuation .running path = later punctuation .code path :=
    (later_eq punctuation (s := .running) nofun path).symm
  have hmode : (scan punctuation .running path).mode = after punctuation .code path :=
    mode_scan punctuation .running path
  obtain ⟨hbegun, hscan⟩ := begun_separator (scan punctuation .running path)
  rw [statements_length, begun_append, hhead, hrunning, begun_append, begun_append, begun_append,
    hstop, hpath, hbegun, hscan, hmode]
  by_cases hcode : after punctuation .code path = .code
  · have htraversal : begun punctuation .running traversal = later punctuation .code traversal :=
      (later_eq punctuation (s := .running) nofun traversal).symm
    rw [if_pos hcode, if_pos hcode, if_pos hcode, htraversal]
    omega
  · have htraversal : begun punctuation .literal traversal = later punctuation .literal traversal :=
      (later_eq punctuation (s := .literal) nofun traversal).symm
    rw [if_neg hcode, if_neg hcode, if_neg hcode, htraversal]
    omega

/-- A full-text search for a plain term is one statement. -/
theorem statements_fulltext {term : List Char} (h : Plain punctuation term) :
    (statements punctuation
        ("SELECT * FROM user WHERE email @@ '".toList ++ (term ++ "';".toList))).length = 1 := by
  have hhead : begun punctuation .fresh "SELECT * FROM user WHERE email @@ '".toList = 1 := by
    decide
  have hopen : scan punctuation .fresh "SELECT * FROM user WHERE email @@ '".toList = .literal := by
    decide
  obtain ⟨hbegun, hscan⟩ := begun_plain punctuation h
  have hend : begun punctuation .literal "';".toList = 0 := by decide
  rw [statements_length, begun_append, hhead, hopen, begun_append, hbegun, hscan, hend]

/-- The literals of a full-text search are the term alone exactly if it is plain. -/
theorem literals_fulltext (denotes : Char → Char) (term : List Char) :
    literals punctuation denotes .code
        ("SELECT * FROM user WHERE email @@ '".toList ++ (term ++ "';".toList)) = [term]
      ↔ Plain punctuation term := by
  have hhead : "SELECT * FROM user WHERE email @@ '".toList
      = "SELECT * FROM user WHERE email @@ ".toList ++ [punctuation.quote] := by decide
  have hend : "';".toList = punctuation.quote :: [';'] := by decide
  rw [hhead, hend, List.append_assoc, literals_code denotes (by decide), List.singleton_append,
    ← List.cons_append, literal_iff denotes (by decide)]

/-! ### Exactly the harmless payloads -/

variable {V : Type} [SerdeValue V]

theorem keepsShape_select (denotes : Char → Char) {event : TenantEvent V}
    (hop : event.operation = "select") :
    KeepsShape denotes event
        ("SELECT * FROM " ++ table event.payload ++ " LIMIT " ++ toString (limit event.payload)
          ++ ";") ↔ Harmless event := by
  have hcursor := unsplit_iff punctuation (s := .running) nofun (table event.payload).toList
  have htext : ("SELECT * FROM " ++ table event.payload ++ " LIMIT "
        ++ toString (limit event.payload) ++ ";").toList
      = "SELECT * FROM ".toList ++ ((table event.payload).toList ++ (" LIMIT ".toList
        ++ ((toString (limit event.payload).toNat).toList ++ ";".toList))) := by
    simp only [String.toList_append, List.append_assoc]
    rfl
  have hharmless : Harmless event
      ↔ (split punctuation .code (table event.payload).toList).length = 1 := by
    simp only [Harmless, hop]
  have hone : templateStatements "select" = 1 := by decide
  rw [hharmless.trans hcursor, KeepsShape, htext, statements_select, hop, hone]
  by_cases hfresh : scan punctuation .running (table event.payload).toList = .fresh
  · simp [hfresh]
  · simp [hfresh]

theorem keepsShape_relate (denotes : Char → Char) {event : TenantEvent V}
    (hop : event.operation = "relate") :
    KeepsShape denotes event
        ("RELATE " ++ src event.payload ++ "->" ++ edge event.payload ++ "->"
          ++ tgt event.payload ++ "; SELECT ->" ++ edge event.payload ++ "->* FROM "
          ++ src event.payload ++ ";") ↔ Harmless event := by
  have htext : ("RELATE " ++ src event.payload ++ "->" ++ edge event.payload ++ "->"
        ++ tgt event.payload ++ "; SELECT ->" ++ edge event.payload ++ "->* FROM "
        ++ src event.payload ++ ";").toList
      = "RELATE ".toList ++ (path event.payload ++ ("; SELECT ->".toList
        ++ (traversal event.payload ++ ";".toList))) := by
    simp only [path, traversal, String.toList_append, List.append_assoc]
  have htwo : templateStatements "relate" = 2 := by decide
  rw [KeepsShape, htext, statements_relate, hop, htwo]
  simp only [Harmless, hop]
  by_cases hcode : after punctuation .code (path event.payload) = .code
  · simp [hcode]
  · simp [hcode]
    omega

theorem keepsShape_fulltext (denotes : Char → Char) {event : TenantEvent V}
    (hop : event.operation = "fulltext") :
    KeepsShape denotes event
        ("SELECT * FROM user WHERE email @@ '" ++ term event.payload ++ "';")
      ↔ Harmless event := by
  have htext : ("SELECT * FROM user WHERE email @@ '" ++ term event.payload ++ "';").toList
      = "SELECT * FROM user WHERE email @@ '".toList
        ++ ((term event.payload).toList ++ "';".toList) := by
    simp only [String.toList_append, List.append_assoc]
  have hone : templateStatements "fulltext" = 1 := by decide
  have hharmless : Harmless event ↔ Plain punctuation (term event.payload).toList := by
    simp only [Harmless, hop]
  rw [hharmless, KeepsShape, htext, literals_fulltext, hop, hone]
  constructor
  · rintro ⟨-, hplain⟩
    exact hplain rfl
  · intro hplain
    exact ⟨statements_fulltext hplain, fun _ => hplain⟩

theorem keepsShape_live (denotes : Char → Char) {event : TenantEvent V}
    (hop : event.operation = "live") : KeepsShape denotes event "LIVE SELECT * FROM user;" := by
  refine ⟨?_, fun hfulltext => absurd (hop.symm.trans hfulltext) (by decide)⟩
  rw [hop]
  decide

/-- The operations that `process_event` has a branch for. -/
def operations : List String := ["select", "relate", "fulltext", "live"]

/-- **The text for an operation has its template's shape exactly for a harmless payload.** -/
theorem surql_keepsShape_iff (denotes : Char → Char) {event : TenantEvent V}
    (hop : event.operation ∈ operations) :
    ∃ text model, surql event = .ok (text, model)
      ∧ (KeepsShape denotes event text ↔ Harmless event) := by
  simp only [operations, List.mem_cons, List.not_mem_nil, or_false] at hop
  rcases hop with hop | hop | hop | hop
  · exact ⟨_, "relational", by simp only [surql, hop], keepsShape_select denotes hop⟩
  · exact ⟨_, "graph", by simp only [surql, hop], keepsShape_relate denotes hop⟩
  · exact ⟨_, "fulltext", by simp only [surql, hop], keepsShape_fulltext denotes hop⟩
  · have hharmless : Harmless event := by
      unfold Harmless
      rw [hop]
      trivial
    exact ⟨"LIVE SELECT * FROM user;", "cdc", by simp only [surql, hop],
      iff_of_true (keepsShape_live denotes hop) hharmless⟩

/-- **`process_event` keeps the shape of its template exactly for harmless payloads**: what it
answers with carries the text. -/
theorem processEvent_keepsShape_iff (fromReader : List UInt8 → Except String (TenantEvent V))
    (intoWriter : TenantResponse V → Except String (List UInt8)) (denotes : Char → Char)
    (bytes : List UInt8) {event : TenantEvent V} (hdecode : fromReader bytes = .ok event)
    (hop : event.operation ∈ operations) :
    ∃ text model, surql event = .ok (text, model)
      ∧ processEvent fromReader intoWriter bytes = intoWriter (response event text model)
      ∧ (KeepsShape denotes event text ↔ Harmless event) := by
  obtain ⟨text, model, hsurql, hshape⟩ := surql_keepsShape_iff denotes hop
  refine ⟨text, model, hsurql, ?_, hshape⟩
  rw [processEvent, hdecode]
  show (surql event >>= fun answer => intoWriter (response event answer.1 answer.2)) = _
  rw [hsurql]
  rfl

/-! ### A search for a name -/

/-- A number of `serde_json`: what is negative or a float is kept apart from a `u64`. -/
inductive Number
  | posInt (n : UInt64)
  | negInt (n : Int64)
  | float (bits : UInt64)

inductive Value
  | null
  | bool (b : Bool)
  | number (n : Number)
  | string (s : String)
  | array (items : List Value)
  | object (entries : List (String × Value))

/-- The index of a key is null without the key, and for a value that is no object. -/
instance : SerdeValue Value where
  index
    | .object entries, key => (entries.lookup key).getD .null
    | _, _ => .null
  asStr
    | .string s => some s
    | _ => none
  asU64
    | .number (.posInt n) => some n
    | _ => none
  json members := .object (members.map fun member => (member.1, .string member.2))

/-! CBOR, written out for the event and its answer. -/

def cborText (s : String) : List UInt8 :=
  (if s.utf8ByteSize < 24 then [0x60 + s.utf8ByteSize.toUInt8] else [0x78, s.utf8ByteSize.toUInt8])
    ++ s.toUTF8.toList

def cborMap (entries : List (String × List UInt8)) : List UInt8 :=
  (0xA0 + entries.length.toUInt8) :: entries.flatMap fun entry => cborText entry.1 ++ entry.2

def searchName (name : String) : TenantEvent Value where
  tenantId := "acme"
  operation := "fulltext"
  payload := .object [("term", .string name)]

def searchNameBytes (name : String) : List UInt8 :=
  cborMap
    [("tenant_id", cborText "acme"),
     ("operation", cborText "fulltext"),
     ("payload", cborMap [("term", cborText name)])]

def answerBytes (answer : TenantResponse Value) : List UInt8 :=
  cborMap
    [("tenant_id", cborText answer.tenantId),
     ("status", cborText answer.status),
     ("data", cborMap (["model", "note", "surql"].map fun key =>
        (key, cborText ((asStr (index answer.data key)).getD "")))),
     ("model", cborText answer.model)]

theorem processEvent_searchName :
    ∃ text model, surql (searchName "alice") = .ok (text, model)
      ∧ processEvent (fun _ => .ok (searchName "alice")) (fun answer => .ok (answerBytes answer))
          (searchNameBytes "alice")
        = .ok (answerBytes (response (searchName "alice") text model))
      ∧ KeepsShape id (searchName "alice") text := by
  obtain ⟨text, model, hsurql, hanswer, hshape⟩ :=
    processEvent_keepsShape_iff (fun _ => .ok (searchName "alice"))
      (fun answer => .ok (answerBytes answer)) id (searchNameBytes "alice") rfl (by decide)
  have hharmless : Harmless (searchName "alice") := by
    show Plain punctuation "alice".toList
    decide
  exact ⟨text, model, hsurql, hanswer, hshape.mpr hharmless⟩

/-- A table name that goes on with another statement. -/
def removeTable : TenantEvent Value where
  tenantId := "acme"
  operation := "select"
  payload := .object [("table", .string "user; REMOVE TABLE user")]

theorem removeTable_splits :
    removeTable.operation ∈ operations
      ∧ surql removeTable
        = .ok ("SELECT * FROM user; REMOVE TABLE user LIMIT 10;", "relational")
      ∧ ¬ KeepsShape id removeTable "SELECT * FROM user; REMOVE TABLE user LIMIT 10;" := by
  refine ⟨by decide, by decide, ?_⟩
  rintro ⟨hstatements, -⟩
  exact absurd hstatements (by decide)

end NexusCore.Guest
