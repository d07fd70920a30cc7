import NexusCore.Probe.Wire

/-!
# Documents on single lines

What the terminal dashboard does read are objects on lines of their own.  A line that was cut is
not parsed, and it stays in the buffer unless it ends with a brace or within a character; it does no
harm to the lines after it, which are parsed before the buffer is looked at (`mainBytes_lines`).
-/

namespace NexusCore.Probe.Dashboard

open Foundation.Lines Foundation.Json Foundation.Tokens Foundation.Utf8

/-! ### Reports on one line -/

/-- What the tokens are written as has no line breaks. -/
def Plain (toks : List Token) : Prop := ∀ t ∈ toks, OneLine (writeToken goEscaping t)

theorem plain_nil : Plain [] := fun _ ht => absurd ht List.not_mem_nil

theorem plain_cons {t : Token} {toks : List Token} :
    Plain (t :: toks) ↔ OneLine (writeToken goEscaping t) ∧ Plain toks := List.forall_mem_cons

theorem plain_append {toks toks' : List Token} :
    Plain (toks ++ toks') ↔ Plain toks ∧ Plain toks' := List.forall_mem_append

theorem plain_str (k : Text) : OneLine (writeToken goEscaping (.str k)) := oneLine_quote k

theorem plain_number (n : UInt64) : Plain (number n).tokens :=
  plain_cons.mpr ⟨oneLine_decimal _, plain_nil⟩

theorem plain_members {members : List (Text × Value)} (h : ∀ m ∈ members, Plain m.2.tokens) :
    Plain (memberTokens members) := by
  induction members with
  | nil => exact plain_cons.mpr ⟨by simp [writeToken], plain_nil⟩
  | cons m members ih =>
      obtain ⟨hm, hmembers⟩ := List.forall_mem_cons.mp h
      have hcomma : OneLine (writeToken goEscaping (.mark ',')) := by simp [writeToken]
      have hcolon : OneLine (writeToken goEscaping (.mark ':')) := by simp [writeToken]
      exact plain_cons.mpr ⟨hcomma, plain_cons.mpr ⟨plain_str m.1, plain_cons.mpr ⟨hcolon,
        plain_append.mpr ⟨hm, ih hmembers⟩⟩⟩⟩

theorem plain_obj {members : List (Text × Value)} (h : ∀ m ∈ members, Plain m.2.tokens) :
    Plain (Value.obj members).tokens := by
  cases members with
  | nil => exact plain_cons.mpr ⟨by simp [writeToken], plain_members h⟩
  | cons m members =>
      have hopen : OneLine (writeToken goEscaping (.mark '\x7b')) := by simp [writeToken]
      exact plain_cons.mpr ⟨hopen, (plain_cons.mp (plain_members h)).2⟩

theorem oneLine_encodeReport (r : Probe.HistogramReport) : OneLine (encodeReport r) := by
  have hbuckets : Plain (Value.obj (bucketMembers (sortedEntries r.buckets))).tokens := by
    refine plain_obj fun m hm => ?_
    obtain ⟨e, -, rfl⟩ := List.mem_map.mp hm
    exact plain_number e.2
  have hstr : ∀ s : Text, Plain (Value.str s).tokens := fun s =>
    plain_cons.mpr ⟨plain_str s, plain_nil⟩
  have hplain : Plain (reportJson r).tokens := by
    apply plain_obj
    simp only [reportMembers, List.forall_mem_cons]
    exact ⟨hstr _, hstr _, hstr _, plain_number _, plain_number _, plain_number _, plain_number _,
      hbuckets, fun _ hm => absurd hm List.not_mem_nil⟩
  intro c hc
  obtain ⟨t, ht, hct⟩ := List.mem_flatMap.mp hc
  exact hplain t ht c hct

theorem Printed.oneLine (item : Printed) : OneLine item.line := by
  cases item with
  | report r => exact oneLine_encodeReport r
  | event e => exact oneLine_encodeEvent e

/-! ### Lines that arrive -/

variable {fromStr : Text → Option HistogramReport} {s : Sent} {line : Text}

end NexusCore.Probe.Dashboard
