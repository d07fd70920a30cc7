import NexusCore.Foundation.Decimal
import NexusCore.Foundation.Http
import NexusCore.Guest.Shape
import NexusCore.LoadGen.Fleet

/-!
# What the workers send

A worker has one SurrealQL text for each tenant.  A request is an HTTP head with the length of
the text, and the text; both are written to one connection.

* `wire_read`: a server reads back the text, and nothing is left over;
* `query_statement`: a text is one statement;
* `query_inj`: it belongs to one worker and one tenant;
* `fleet_queries`: so two requests of a fleet have the same text only if they are of one worker,
  and for the same tenant in turn.
-/

namespace NexusCore.LoadGen

open Foundation.Decimal Foundation.Http Foundation.Lines Foundation.Script Foundation.Transition
open Foundation.Utf8 Guest

/-! ### The texts -/

/-- The text of a worker for one tenant. -/
def queryFor (operation : String) (workerId payloadSize t : ℕ) : String :=
  if operation = "write" then
    "CREATE tenant_" ++ toString t ++ ":item_" ++ toString workerId ++ " SET data = '"
      ++ String.ofList (List.replicate (min payloadSize 256) 'x') ++ "', ts = time::now();"
  else if operation = "read" then
    "SELECT * FROM tenant_" ++ toString t ++ ":item_" ++ toString workerId ++ " LIMIT 1;"
  else if t % 2 = 0 then
    "SELECT * FROM tenant_" ++ toString t ++ " WHERE id = 'item_" ++ toString workerId ++ "';"
  else
    "UPDATE tenant_" ++ toString t ++ ":item_" ++ toString workerId
      ++ " SET ts = time::now(), counter += 1;"

def queries (operation : String) (workerId payloadSize tenants : ℕ) : List String :=
  (List.range tenants).map (queryFor operation workerId payloadSize)

/-- The head that `simulate_query` writes. -/
def requestHead (addr : String) (length : ℕ) : String :=
  "POST /sql HTTP/1.1\r\n" ++ ("Host: " ++ addr ++ "\r\n")
    ++ "Content-Type: application/octet-stream\r\n" ++ "NS: nexuscore\r\n" ++ "DB: bench\r\n"
    ++ "Accept: application/json\r\n" ++ ("Content-Length: " ++ toString length ++ "\r\n")
    ++ "Connection: close\r\n" ++ "\r\n"

/-- All that `simulate_query` writes to the connection. -/
def simulateQuery (addr : String) (query : String) : Text :=
  (requestHead addr (byteLength query.toList)).toList ++ query.toList

/-! ### A request is read back -/

def requestFields (addr : String) (length : ℕ) : List (Text × Text) :=
  [("Host".toList, addr.toList),
   ("Content-Type".toList, "application/octet-stream".toList),
   ("NS".toList, "nexuscore".toList),
   ("DB".toList, "bench".toList),
   ("Accept".toList, "application/json".toList),
   ("Content-Length".toList, (toString length).toList),
   ("Connection".toList, "close".toList)]

/-- The message of a request. -/
def message (addr : String) (query : String) : Message :=
  ⟨"POST /sql HTTP/1.1".toList, requestFields addr (byteLength query.toList), query.toList⟩

theorem toList_toString (n : ℕ) : (toString n).toList = Nat.toDigits 10 n := by
  simp [toString, Nat.repr]

/-- A character that is no digit is not in a number. -/
theorem not_mem_toString {c : Char} (hc : c.isDigit = false) (n : ℕ) :
    c ∉ (toString n).toList := by
  rw [toList_toString]
  exact not_mem_toDigits hc n

/-- The lines of a head, as they are written. -/
theorem toList_requestHead (addr : String) (length : ℕ) :
    (requestHead addr length).toList
      = writeHead ("POST /sql HTTP/1.1".toList :: (requestFields addr length).map fieldLine) := by
  have hstart : "POST /sql HTTP/1.1\r\n".toList = "POST /sql HTTP/1.1".toList ++ crlf := by decide
  have hhost : "Host: ".toList = "Host".toList ++ [':', ' '] := by decide
  have htype : "Content-Type: application/octet-stream\r\n".toList
      = fieldLine ("Content-Type".toList, "application/octet-stream".toList) ++ crlf := by decide
  have hns : "NS: nexuscore\r\n".toList
      = fieldLine ("NS".toList, "nexuscore".toList) ++ crlf := by decide
  have hdb : "DB: bench\r\n".toList = fieldLine ("DB".toList, "bench".toList) ++ crlf := by decide
  have haccept : "Accept: application/json\r\n".toList
      = fieldLine ("Accept".toList, "application/json".toList) ++ crlf := by decide
  have hlength : "Content-Length: ".toList = "Content-Length".toList ++ [':', ' '] := by decide
  have hclose : "Connection: close\r\n".toList
      = fieldLine ("Connection".toList, "close".toList) ++ crlf := by decide
  have hcrlf : "\r\n".toList = crlf := by decide
  have hcolon : ∀ name value : Text, fieldLine (name, value) = name ++ ([':', ' '] ++ value) :=
    fun _ _ => rfl
  unfold requestHead
  simp only [String.toList_append, hstart, hhost, htype, hns, hdb, haccept, hlength, hclose, hcrlf]
  simp only [writeHead, requestFields, List.map_cons, List.map_nil]
  simp only [hcolon, List.append_assoc]

theorem simulateQuery_eq_write (addr query : String) :
    simulateQuery addr query = write (message addr query) := by
  rw [simulateQuery, toList_requestHead]
  rfl

theorem fieldOk {name value : Text} (hname : OneLine name ∧ ':' ∉ name) (hvalue : OneLine value)
    (hblank : value.head? ≠ some ' ') : FieldOk (name, value) :=
  ⟨hname.1, hname.2, hvalue, hblank⟩

/-- A number is a value of a field. -/
theorem fieldOk_number {name : Text} (hname : OneLine name ∧ ':' ∉ name) (n : ℕ) :
    FieldOk (name, (toString n).toList) := by
  refine fieldOk hname ⟨not_mem_toString (by decide) n, not_mem_toString (by decide) n⟩ ?_
  intro hhead
  exact not_mem_toString (c := ' ') (by decide) n (List.mem_of_mem_head? hhead)

theorem readNumber_toString (n : ℕ) : readNumber (toString n).toList = some n := by
  rw [toList_toString, readNumber,
    if_pos ⟨Nat.toDigits_ne_nil, List.all_eq_true.mpr fun c hc => isDigit_of_mem hc⟩]
  exact congrArg some Nat.ofDigitChars_ten_toDigits

theorem requestFields_ok {addr : String} (haddr : OneLine addr.toList)
    (hblank : addr.toList.head? ≠ some ' ') (length : ℕ) :
    ∀ f ∈ requestFields addr length, FieldOk f := by
  simp only [requestFields, List.forall_mem_cons]
  refine ⟨fieldOk (by decide) haddr hblank, fieldOk (by decide) (by decide) (by decide),
    fieldOk (by decide) (by decide) (by decide), fieldOk (by decide) (by decide) (by decide),
    fieldOk (by decide) (by decide) (by decide), fieldOk_number (by decide) length,
    fieldOk (by decide) (by decide) (by decide), ?_⟩
  exact fun f hf => absurd hf List.not_mem_nil

theorem contentLength_requestFields (addr : String) (length : ℕ) :
    contentLength (requestFields addr length) = some length := by
  have hfind : (requestFields addr length).find?
      (fun f => f.1.map Char.toLower == "content-length".toList)
      = some ("Content-Length".toList, (toString length).toList) := rfl
  rw [contentLength, hfind]
  exact readNumber_toString length

theorem wellFormed_message {addr : String} (haddr : OneLine addr.toList)
    (hblank : addr.toList.head? ≠ some ' ') (query : String) :
    WellFormed (message addr query) where
  start := (by decide : OneLine "POST /sql HTTP/1.1".toList)
  start_ne := (by decide : "POST /sql HTTP/1.1".toList ≠ [])
  fields := requestFields_ok haddr hblank _
  length := contentLength_requestFields addr _

/-- **A server reads back the text of a request**, and nothing is left over. -/
theorem wire_read {addr : String} (haddr : OneLine addr.toList)
    (hblank : addr.toList.head? ≠ some ' ') (query : String) :
    read (simulateQuery addr query) = some (message addr query, []) := by
  rw [simulateQuery_eq_write, ← List.append_nil (write _)]
  exact read_write (wellFormed_message haddr hblank query) []

/-! ### A text is one statement -/

/-- What a text has around its two numbers. -/
structure Template where
  head : Text
  mid : Text
  tail : Text

/-- With the tenant and the worker in it. -/
def Template.text (f : Template) (t w : ℕ) : Text :=
  f.head ++ ((toString t).toList ++ (f.mid ++ ((toString w).toList ++ f.tail)))

def template (operation : String) (payloadSize t : ℕ) : Template :=
  if operation = "write" then
    ⟨"CREATE tenant_".toList, ":item_".toList, " SET data = '".toList
      ++ (List.replicate (min payloadSize 256) 'x' ++ "', ts = time::now();".toList)⟩
  else if operation = "read" then
    ⟨"SELECT * FROM tenant_".toList, ":item_".toList, " LIMIT 1;".toList⟩
  else if t % 2 = 0 then
    ⟨"SELECT * FROM tenant_".toList, " WHERE id = 'item_".toList, "';".toList⟩
  else
    ⟨"UPDATE tenant_".toList, ":item_".toList, " SET ts = time::now(), counter += 1;".toList⟩

theorem toList_queryFor (operation : String) (workerId payloadSize t : ℕ) :
    (queryFor operation workerId payloadSize t).toList
      = (template operation payloadSize t).text t workerId := by
  unfold queryFor template
  split_ifs
  · simp only [String.toList_append, String.toList_ofList, List.append_assoc, Template.text]
  · simp only [String.toList_append, List.append_assoc, Template.text]
  · simp only [String.toList_append, List.append_assoc, Template.text]
  · simp only [String.toList_append, List.append_assoc, Template.text]

/-- The first number is in a statement, the second one in it or in a literal of it, and after
each comes something else. -/
structure Template.Good (f : Template) : Prop where
  head : begun punctuation .fresh f.head = 1 ∧ scan punctuation .fresh f.head = .running
  mid : begun punctuation .running f.mid = 0
  goes : scan punctuation .running f.mid = .running ∨ scan punctuation .running f.mid = .literal
  tail : begun punctuation (scan punctuation .running f.mid) f.tail = 0
  mid_ends : ∃ c rest, f.mid = c :: rest ∧ c.isDigit = false
  tail_ends : ∃ c rest, f.tail = c :: rest ∧ c.isDigit = false

theorem template_good (operation : String) (payloadSize t : ℕ) :
    (template operation payloadSize t).Good := by
  unfold template
  split_ifs
  · have hplain : Plain punctuation (List.replicate (min payloadSize 256) 'x') :=
      ⟨fun h => absurd (List.eq_of_mem_replicate h) (by decide),
        fun h => absurd (List.eq_of_mem_replicate h) (by decide)⟩
    obtain ⟨hbegun, hscan⟩ := begun_plain punctuation hplain
    have hhead : begun punctuation .fresh "CREATE tenant_".toList = 1
        ∧ scan punctuation .fresh "CREATE tenant_".toList = .running := by decide
    have hzero : begun punctuation .running ":item_".toList = 0 := by decide
    have hmid : scan punctuation .running ":item_".toList = .running := by decide
    refine ⟨hhead, hzero, Or.inl hmid, ?_, ⟨_, _, rfl, by decide⟩, ⟨_, _, rfl, by decide⟩⟩
    have hopen : begun punctuation .running " SET data = '".toList = 0
        ∧ scan punctuation .running " SET data = '".toList = .literal := by decide
    rw [hmid, begun_append, hopen.1, hopen.2, begun_append, hbegun, hscan]
    decide
  · exact ⟨by decide, by decide, by decide, by decide, ⟨_, _, rfl, by decide⟩,
      ⟨_, _, rfl, by decide⟩⟩
  · exact ⟨by decide, by decide, by decide, by decide, ⟨_, _, rfl, by decide⟩,
      ⟨_, _, rfl, by decide⟩⟩
  · exact ⟨by decide, by decide, by decide, by decide, ⟨_, _, rfl, by decide⟩,
      ⟨_, _, rfl, by decide⟩⟩

theorem Template.Good.statement {f : Template} (h : f.Good) (t w : ℕ) :
    (statements punctuation (f.text t w)).length = 1 := by
  obtain ⟨hbegun, hscan⟩ :=
    begun_inert punctuation (s := .running) (Or.inl rfl) fun c => digits_inert (n := t)
  obtain ⟨hbegun', hscan'⟩ := begun_inert punctuation h.goes fun c => digits_inert (n := w)
  rw [statements_length, Template.text, begun_append, h.head.1, h.head.2, begun_append, hbegun,
    hscan, begun_append, h.mid, begun_append, hbegun', hscan', h.tail]

/-- **A text is one statement**, whatever the operation, the numbers and the size. -/
theorem query_statement (operation : String) (workerId payloadSize t : ℕ) :
    (statements punctuation (queryFor operation workerId payloadSize t).toList).length = 1 := by
  rw [toList_queryFor]
  exact (template_good operation payloadSize t).statement t workerId

/-! ### A text belongs to one worker and one tenant -/

theorem Template.Good.text_inj {f : Template} (h : f.Good) {t t' w w' : ℕ}
    (heq : f.text t w = f.text t' w') : t = t' ∧ w = w' := by
  obtain ⟨c, mid, hmid, hc⟩ := h.mid_ends
  obtain ⟨d, tail, htail, hd⟩ := h.tail_ends
  have hfirst := List.append_cancel_left heq
  rw [hmid, htail, toList_toString, toList_toString, toList_toString, toList_toString] at hfirst
  obtain ⟨ht, hrest⟩ := toDigits_append_inj hc hc hfirst
  have hsecond := List.append_cancel_left (List.cons.inj hrest).2
  exact ⟨ht, (toDigits_append_inj hd hd hsecond).1⟩

/-- Two tenants have one template, or their texts begin with different letters. -/
theorem template_or (operation : String) (payloadSize t t' : ℕ) :
    template operation payloadSize t = template operation payloadSize t' ∨
      (template operation payloadSize t).head.head?
        ≠ (template operation payloadSize t').head.head? := by
  unfold template
  split_ifs
  · exact Or.inl rfl
  · exact Or.inl rfl
  · exact Or.inl rfl
  · exact Or.inr (by decide)
  · exact Or.inr (by decide)
  · exact Or.inl rfl

/-- **A text tells its tenant and its worker.** -/
theorem query_inj {operation : String} {payloadSize t t' w w' : ℕ}
    (h : queryFor operation w payloadSize t = queryFor operation w' payloadSize t') :
    t = t' ∧ w = w' := by
  have hlist := congrArg String.toList h
  rw [toList_queryFor, toList_queryFor] at hlist
  have hgood := template_good operation payloadSize t
  have hgood' := template_good operation payloadSize t'
  rcases template_or operation payloadSize t t' with hsame | hdiff
  · rw [← hsame] at hlist
    exact hgood.text_inj hlist
  · refine absurd ?_ hdiff
    have hhead : ∀ {f : Template} (t w : ℕ), f.Good →
        (f.text t w).head? = f.head.head? := by
      intro f t w hf
      have hne : f.head ≠ [] := by
        intro hnil
        have hone := hf.head.1
        rw [hnil] at hone
        cases hone
      rw [Template.text, List.head?_append_of_ne_nil _ hne]
    rw [← hhead t w hgood, hlist, hhead t' w' hgood']

/-! ### A fleet's requests -/

/-- **What a fleet sends.**  Every request of every worker has one of its texts, and a server
reads back this text, which is one statement.  Two requests have the same text only if they are
of the same worker, and for the same tenant in turn. -/
theorem fleet_queries {ncpus clock : ℕ} {args : Args} {p : Plan}
    {f : Fleet (workerCount ncpus args)} {es : List (FleetEvent (workerCount ncpus args))}
    {addr : String} (haddr : OneLine addr.toList) (hblank : addr.toList.head? ≠ some ' ')
    (hp : args.plan ncpus = some p)
    (hrun : run (Fleet.step p) (Fleet.init _ clock) es = some f) :
    (∀ i (k : ℕ) r, (f.workers i).requests[k]? = some r → ∃ query,
      (queries args.operation i args.payloadBytes p.tenants.toNat)[r.2]? = some query ∧
        (statements punctuation query.toList).length = 1 ∧
        read (simulateQuery addr query) = some (message addr query, [])) ∧
      ∀ i j (k l : ℕ) r r' query, (f.workers i).requests[k]? = some r →
        (f.workers j).requests[l]? = some r' →
        (queries args.operation i args.payloadBytes p.tenants.toNat)[r.2]? = some query →
        (queries args.operation j args.payloadBytes p.tenants.toNat)[r'.2]? = some query →
        i = j ∧ k % p.tenants.toNat = l % p.tenants.toNat := by
  obtain ⟨hpos, -, htenants, -⟩ := plan_spec hp
  have hT : 0 < p.tenants.toNat := by
    rw [htenants]
    exact Nat.lt_of_lt_of_le hpos (Nat.min_le_right _ _)
  have hpaced := Fleet.paced hrun
  have htext : ∀ w t, t < p.tenants.toNat →
      (queries args.operation w args.payloadBytes p.tenants.toNat)[t]?
        = some (queryFor args.operation w args.payloadBytes t) := by
    intro w t ht
    rw [queries, List.getElem?_map, List.getElem?_range ht]
    rfl
  have hturn : ∀ i (k : ℕ) r, (f.workers i).requests[k]? = some r → r.2 = k % p.tenants.toNat :=
    fun i k r hr => ((hpaced i).onTick k r hr).2.1
  constructor
  · intro i k r hr
    have hr2 := hturn i k r hr
    exact ⟨_, htext i r.2 (hr2 ▸ Nat.mod_lt _ hT), query_statement _ _ _ _,
      wire_read haddr hblank _⟩
  · intro i j k l r r' query hr hr' hquery hquery'
    have hk := hturn i k r hr
    have hl := hturn j l r' hr'
    rw [htext i r.2 (hk ▸ Nat.mod_lt _ hT)] at hquery
    rw [htext j r'.2 (hl ▸ Nat.mod_lt _ hT)] at hquery'
    obtain ⟨ht, hw⟩ := query_inj (Option.some.inj (hquery.trans hquery'.symm))
    exact ⟨Fin.ext hw, by rw [← hk, ← hl, ht]⟩

/-- Both workers send to the first tenant at once. -/
theorem fleet_queries_two :
    ∃ f : Fleet 2,
      run (Fleet.step ⟨1, 1, 3⟩) (Fleet.init 2 0) twoWorkers = some f ∧
      (f.workers 0).requests[0]? = some (5, 0) ∧ (f.workers 1).requests[0]? = some (5, 0) ∧
      ∃ query, (queries "mixed" 0 512 3)[0]? = some query ∧
        read (simulateQuery "127.0.0.1:8000" query)
          = some (message "127.0.0.1:8000" query, []) ∧
        (queries "mixed" 1 512 3)[0]? ≠ some query := by
  have haddr : OneLine "127.0.0.1:8000".toList := by decide
  have hblank : "127.0.0.1:8000".toList.head? ≠ some ' ' := by decide
  have hp : twoCpus.plan 2 = some ⟨1, 1, 3⟩ := by decide
  have hsent : (run (Fleet.step ⟨1, 1, 3⟩) (Fleet.init 2 0) twoWorkers).map
      (fun f => ((f.workers 0).requests[0]?, (f.workers 1).requests[0]?))
      = some (some (5, 0), some (5, 0)) := by decide +kernel
  obtain ⟨f, hf, hpair⟩ := Option.map_eq_some_iff.mp hsent
  have hfirst := congrArg Prod.fst hpair
  have hsecond := congrArg Prod.snd hpair
  obtain ⟨hread, halone⟩ := fleet_queries haddr hblank hp hf
  obtain ⟨query, hquery, -, hback⟩ := hread (0 : Fin 2) 0 (5, 0) hfirst
  refine ⟨f, hf, hfirst, hsecond, query, hquery, hback, fun hsame => ?_⟩
  have hworker : (0 : Fin 2) = 1 :=
    (halone (0 : Fin 2) (1 : Fin 2) 0 0 (5, 0) (5, 0) query hfirst hsecond hquery hsame).1
  exact absurd hworker (by decide)

end NexusCore.LoadGen
