import NexusCore.Foundation.Script

/-!
# The guest component

`process_event` decodes a tenant's event, builds a SurrealQL text from its payload and answers
with it.  CBOR and JSON belong to libraries: the decoder of events, the encoder of answers and
what is done with the values of a payload are parameters.
-/

namespace NexusCore.Guest

open Foundation.Script

/-! ### JSON values -/

/-- What the component does with a value of the JSON library. -/
class SerdeValue (V : Type) where
  /-- `value[key]` -/
  index : V → String → V
  asStr : V → Option String
  asU64 : V → Option UInt64
  /-- `json!` of an object whose members are strings -/
  json : List (String × String) → V

open SerdeValue

/-! ### Events and answers -/

structure TenantEvent (V : Type) where
  tenantId : String
  operation : String
  payload : V

structure TenantResponse (V : Type) where
  tenantId : String
  status : String
  data : V
  model : String

variable {V : Type} [SerdeValue V]

/-! #### What the branches read from the payload -/

def table (payload : V) : String := (asStr (index payload "table")).getD "user"

def limit (payload : V) : UInt64 := (asU64 (index payload "limit")).getD 10

def src (payload : V) : String := (asStr (index payload "src")).getD "user:alice"

def edge (payload : V) : String := (asStr (index payload "edge")).getD "accessed"

def tgt (payload : V) : String := (asStr (index payload "tgt")).getD "page:home"

def term (payload : V) : String := (asStr (index payload "term")).getD ""

/-- The text and the model for an operation. -/
def surql (event : TenantEvent V) : Except String (String × String) :=
  match event.operation with
  | "select" =>
      .ok ("SELECT * FROM " ++ table event.payload ++ " LIMIT " ++ toString (limit event.payload)
        ++ ";", "relational")
  | "relate" =>
      .ok ("RELATE " ++ src event.payload ++ "->" ++ edge event.payload ++ "->"
        ++ tgt event.payload ++ "; SELECT ->" ++ edge event.payload ++ "->* FROM "
        ++ src event.payload ++ ";", "graph")
  | "fulltext" =>
      .ok ("SELECT * FROM user WHERE email @@ '" ++ term event.payload ++ "';", "fulltext")
  | "live" => .ok ("LIVE SELECT * FROM user;", "cdc")
  | op => .error ("unknown operation: " ++ op)

def response (event : TenantEvent V) (surql model : String) : TenantResponse V where
  tenantId := event.tenantId
  status := "ok"
  data := json
    [("surql", surql),
     ("model", model),
     ("note", "In production: result is CBOR bytes from SurrealDB via WIT query::exec()")]
  model := model

def processEvent (fromReader : List UInt8 → Except String (TenantEvent V))
    (intoWriter : TenantResponse V → Except String (List UInt8)) (bytes : List UInt8) :
    Except String (List UInt8) := do
  let event ← (fromReader bytes).mapError ("cbor decode: " ++ ·)
  let (text, model) ← surql event
  intoWriter (response event text model)

/-! ### The shape of a text -/

/-- Single quotes, backslashes in literals, semicolons. -/
def punctuation : Punctuation Char where
  quote := '\''
  escape := '\\'
  stop := ';'
  blank := Char.isWhitespace
  quote_ne_stop := by decide
  quote_ne_escape := by decide
  blank_quote := by decide

/-- How many statements the template of an operation has. -/
def templateStatements (operation : String) : ℕ := if operation = "relate" then 2 else 1

/-- The statements are those of the template; a full-text search has one literal, and it denotes
the term. -/
def KeepsShape (denotes : Char → Char) (event : TenantEvent V) (text : String) : Prop :=
  (statements punctuation text.toList).length = templateStatements event.operation
    ∧ (event.operation = "fulltext" →
        literals punctuation denotes .code text.toList = [(term event.payload).toList])

/-- `src->edge->tgt`, as the first statement of a relation has it. -/
def path (payload : V) : List Char :=
  (src payload ++ "->" ++ edge payload ++ "->" ++ tgt payload).toList

/-- `edge->* FROM src`, as the second one has it. -/
def traversal (payload : V) : List Char :=
  (edge payload ++ "->* FROM " ++ src payload).toList

/-- What a payload must be for its operation.

A table has no semicolon outside its own literals, and a term no quote and no backslash.  The
path of a relation must close its literals and neither half may go on to another statement; if
the path leaves a literal open, the template's own separator is inside it, and the payload
has to bring the one further statement itself. -/
def Harmless (event : TenantEvent V) : Prop :=
  match event.operation with
  | "select" => (split punctuation .code (table event.payload).toList).length = 1
  | "relate" =>
      if after punctuation .code (path event.payload) = .code then
        later punctuation .code (path event.payload) = 0
          ∧ later punctuation .code (traversal event.payload) = 0
      else
        later punctuation .code (path event.payload)
          + later punctuation .literal (traversal event.payload) = 1
  | "fulltext" => Plain punctuation (term event.payload).toList
  | _ => True

end NexusCore.Guest
