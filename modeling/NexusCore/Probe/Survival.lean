import NexusCore.Probe.Render

/-!
# Which reports can be rendered

A report survives if its time stamp can be cut and no row that is shown has a slot from 64 on.
The rows begin with the first count above zero.  Keys such as `5` and `05` name the same slot,
so where counts of zero share that slot, the order in which the map gives its entries
decides how many of them come before it: at most the `leading` entries (`lo_le_leading`), and in
one order exactly these (`exists_worst`).
-/

namespace NexusCore.Probe.Dashboard

open Foundation Foundation.Utf8 Foundation.KeyedList

/-! ### The entries in order -/

theorem sortBySlot_perm (l : List Entry) : (sortBySlot l).Perm l := List.mergeSort_perm l _

theorem sortBySlot_sorted (l : List Entry) : KeySorted Entry.slot (sortBySlot l) :=
  keySorted_mergeSort Entry.slot l

/-- Entries that are in order stay as they are. -/
theorem sortBySlot_of_sorted {l : List Entry} (h : KeySorted Entry.slot l) : sortBySlot l = l :=
  List.mergeSort_of_pairwise (h.imp decide_eq_true)

/-! ### The rows that are shown -/

/-- The first count, if there is one, and the entries around it. -/
theorem lo_cases (l : List Entry) :
    (lo l = 0 ∧ ∀ e ∈ l, e.count = 0)
      ∨ ∃ front e back, l = front ++ e :: back ∧ (∀ f ∈ front, f.count = 0) ∧ 0 < e.count
          ∧ lo l = front.length := by
  rw [lo]
  cases hfind : l.findIdx? fun e => decide (0 < e.count) with
  | none =>
      refine .inl ⟨rfl, fun e he => ?_⟩
      have hnot := of_decide_eq_false (List.findIdx?_eq_none_iff.mp hfind e he)
      exact Nat.eq_zero_of_not_pos hnot
  | some i =>
      obtain ⟨hi, hpos, hbefore⟩ := List.findIdx?_eq_some_iff_getElem.mp hfind
      refine .inr ⟨l.take i, l[i], l.drop (i + 1), ?_, ?_, of_decide_eq_true hpos, ?_⟩
      · rw [← List.drop_eq_getElem_cons hi, List.take_append_drop]
      · intro f hf
        obtain ⟨j, hj, rfl⟩ := List.mem_take_iff_getElem.mp hf
        have hnot := hbefore j (by omega)
        exact Nat.eq_zero_of_not_pos fun hc => hnot (decide_eq_true hc)
      · rw [List.length_take, Option.getD_some]
        omega

theorem lo_lt {l : List Entry} (h : l ≠ []) : lo l < l.length := by
  rcases lo_cases l with ⟨hlo, -⟩ | ⟨front, e, back, rfl, -, -, hlo⟩
  · rw [hlo]
    exact List.length_pos_of_ne_nil h
  · rw [hlo, List.length_append, List.length_cons]
    omega

theorem lo_le_hi (l : List Entry) : lo l ≤ hi l := by
  rw [hi]
  rcases eq_or_ne l [] with rfl | h
  · rfl
  · have hlt := lo_lt h
    omega

/-- **The rows are a valid slice.** -/
theorem slice_rows (l : List Entry) : slice l (lo l) (hi l) = .ok ((l.take (hi l)).drop (lo l)) :=
  if_pos ⟨lo_le_hi l, Nat.min_le_right _ _⟩

/-- The rows that are shown are below a slot exactly if as many entries are. -/
theorem rows_lt_iff {l : List Entry} (h : KeySorted Entry.slot l) (n : ℕ) :
    (∀ e ∈ (l.take (hi l)).drop (lo l), e.slot < n) ↔ hi l ≤ below Entry.slot n l := by
  have hle : hi l ≤ l.length := Nat.min_le_right _ _
  rcases eq_or_ne l [] with rfl | hne
  · exact iff_of_true nofun (Nat.zero_le _)
  have hlo := lo_lt hne
  have hlohi : lo l < hi l := by
    rw [hi]
    omega
  constructor
  · intro hrows
    -- the last row
    have hlast : l[hi l - 1] ∈ (l.take (hi l)).drop (lo l) := by
      apply List.mem_drop_iff_getElem.mpr
      refine ⟨hi l - 1 - lo l, ?_, ?_⟩
      · rw [List.length_take]
        omega
      · rw [List.getElem_take]
        congr 1
        omega
    have hbelow := (h.getElem_lt_iff n (by omega)).mp (hrows _ hlast)
    omega
  · intro hbelow e he
    obtain ⟨i, hi', rfl⟩ := List.mem_take_iff_getElem.mp (List.mem_of_mem_drop he)
    exact (h.getElem_lt_iff n (by omega)).mpr (by omega)

theorem count_le_maxCount {l : List Entry} {e : Entry} (he : e ∈ l) : e.count ≤ maxCount l :=
  List.le_max?_getD_of_mem (List.mem_map_of_mem he)

/-- **A report is rendered** exactly if its time stamp can be cut, and either no slot is too great
or twenty rows are found below. -/
theorem renders_iff (r : Rounding) (report : HistogramReport) (entries : List (String × UInt64)) :
    Completes (renderReport r report entries)
      ↔ CharBoundary report.ts.toList (min (byteLength report.ts.toList) 19)
        ∧ ((parsed entries).length = below Entry.slot 64 (parsed entries)
          ∨ lo (sortBySlot (parsed entries)) + 20 ≤ below Entry.slot 64 (parsed entries)) := by
  have hperm := sortBySlot_perm (parsed entries)
  have hsorted := sortBySlot_sorted (parsed entries)
  have hbelow : below Entry.slot 64 (sortBySlot (parsed entries))
      = below Entry.slot 64 (parsed entries) := hperm.countP_eq _
  have hrows : (∀ e ∈ ((sortBySlot (parsed entries)).take (hi (sortBySlot (parsed entries)))).drop
        (lo (sortBySlot (parsed entries))),
        Completes (renderRow r (maxCount (sortBySlot (parsed entries))) e))
      ↔ hi (sortBySlot (parsed entries)) ≤ below Entry.slot 64 (parsed entries) := by
    rw [← hbelow, ← rows_lt_iff hsorted]
    refine forall₂_congr fun e he => completes_renderRow r ?_
    exact count_le_maxCount (List.mem_of_mem_take (List.mem_of_mem_drop he))
  have hhi : hi (sortBySlot (parsed entries)) ≤ below Entry.slot 64 (parsed entries)
      ↔ (parsed entries).length = below Entry.slot 64 (parsed entries)
        ∨ lo (sortBySlot (parsed entries)) + 20 ≤ below Entry.slot 64 (parsed entries) := by
    have hle := below_le_length Entry.slot 64 (parsed entries)
    rw [hi, hperm.length_eq]
    omega
  rw [renderReport, completes_bind, ← hhi, ← hrows, ← completes_mapM, ← completes_sliceText]
  constructor
  · rintro ⟨ts, hts, hrest⟩
    obtain ⟨shown, hshown, hrest⟩ := completes_bind.mp hrest
    obtain ⟨rows, hmap, -⟩ := completes_bind.mp hrest
    rw [slice_rows] at hshown
    cases hshown
    exact ⟨⟨ts, hts⟩, rows, hmap⟩
  · rintro ⟨⟨ts, hts⟩, rows, hmap⟩
    refine ⟨ts, hts, completes_bind.mpr ⟨_, slice_rows _, ?_⟩⟩
    exact completes_bind.mpr ⟨rows, hmap, _, rfl⟩

/-! ### The order of the map -/

/-- The entries of a map, in one of the orders it may give them. -/
structure Lists (buckets : String → Option UInt64) (entries : List (String × UInt64)) : Prop where
  nodup : (entries.map Prod.fst).Nodup
  mem : ∀ k v, (k, v) ∈ entries ↔ buckets k = some v

theorem Lists.perm {buckets : String → Option UInt64} {entries entries' : List (String × UInt64)}
    (h : Lists buckets entries) (h' : Lists buckets entries') : entries.Perm entries' :=
  (List.perm_ext_iff_of_nodup h.nodup.of_map h'.nodup.of_map).mpr
    fun e => (h.mem e.1 e.2).trans (h'.mem e.1 e.2).symm

theorem Lists.of_perm {buckets : String → Option UInt64}
    {entries entries' : List (String × UInt64)} (h : Lists buckets entries)
    (hperm : entries.Perm entries') : Lists buckets entries' where
  nodup := (hperm.map Prod.fst).nodup_iff.mp h.nodup
  mem k v := hperm.mem_iff.symm.trans (h.mem k v)

/-- A count of zero that can come before every count above zero, if there is one. -/
def IsLeading (l : List Entry) (e : Entry) : Prop :=
  e.count = 0 ∧ (∃ f ∈ l, 0 < f.count) ∧ ∀ f ∈ l, 0 < f.count → e.slot ≤ f.slot

instance (l : List Entry) (e : Entry) : Decidable (IsLeading l e) :=
  inferInstanceAs (Decidable (_ ∧ (∃ f ∈ l, 0 < f.count) ∧ ∀ f ∈ l, 0 < f.count → e.slot ≤ f.slot))

def leading (l : List Entry) : ℕ := l.countP fun e => decide (IsLeading l e)

theorem leading_perm {l l' : List Entry} (h : l.Perm l') : leading l = leading l' := by
  have hleading : ∀ e, IsLeading l e ↔ IsLeading l' e := by
    intro e
    simp only [IsLeading, h.mem_iff]
  rw [leading, leading, h.countP_eq]
  exact List.countP_congr fun e _ => by rw [decide_eq_true_eq, decide_eq_true_eq, hleading]

/-- In order, the rows begin no later than after the leading entries. -/
theorem lo_le_leading {l : List Entry} (h : KeySorted Entry.slot l) : lo l ≤ leading l := by
  rcases lo_cases l with ⟨hlo, -⟩ | ⟨front, e, back, rfl, hfront, he, hlo⟩
  · rw [hlo]
    exact Nat.zero_le _
  · have hall : front.countP (fun f => decide (IsLeading (front ++ e :: back) f))
        = front.length := by
      apply List.countP_eq_length.mpr
      intro f hf
      refine decide_eq_true ⟨hfront f hf, ⟨e, by simp, he⟩, fun g hg hpos => ?_⟩
      rcases List.mem_append.mp hg with hg | hg
      · exact absurd (hfront g hg) (Nat.pos_iff_ne_zero.mp hpos)
      · exact (List.pairwise_append.mp h).2.2 f hf g hg
    rw [hlo, leading, List.countP_append, hall]
    exact Nat.le_add_right _ _

/-- Slots in order, and in each slot the counts of zero first. -/
def rank (e : Entry) : ℕ := 2 * e.slot + if e.count = 0 then 0 else 1

theorem slot_of_rank {l : List Entry} (h : KeySorted rank l) :
    KeySorted Entry.slot l := by
  refine h.imp fun {a b} hab => ?_
  rw [rank, rank] at hab
  split_ifs at hab <;> omega

/-- With counts of zero first, the rows begin after the leading entries. -/
theorem lo_eq_leading {l : List Entry} (h : KeySorted rank l) : lo l = leading l := by
  apply Nat.le_antisymm (lo_le_leading (slot_of_rank h))
  rcases lo_cases l with ⟨-, hzero⟩ | ⟨front, e, back, rfl, -, he, hlo⟩
  · have hnone : leading l = 0 := by
      apply List.countP_eq_zero.mpr
      intro e _ hleading
      obtain ⟨-, ⟨f, hf, hpos⟩, -⟩ := of_decide_eq_true hleading
      exact absurd (hzero f hf) (Nat.pos_iff_ne_zero.mp hpos)
    rw [hnone]
    exact Nat.zero_le _
  · have hnone : (e :: back).countP (fun f => decide (IsLeading (front ++ e :: back) f)) = 0 := by
      apply List.countP_eq_zero.mpr
      intro f hf hleading
      obtain ⟨hzero, -, hbefore⟩ := of_decide_eq_true hleading
      rcases List.mem_cons.mp hf with rfl | hf
      · exact absurd hzero (Nat.pos_iff_ne_zero.mp he)
      · -- it has the slot of the first count, and comes after it
        have hslot := hbefore e (by simp) he
        have hrank := (List.pairwise_cons.mp (List.pairwise_append.mp h).2.1).1 f hf
        rw [rank, rank, if_neg (Nat.pos_iff_ne_zero.mp he), if_pos hzero] at hrank
        omega
    rw [hlo, leading, List.countP_append, hnone]
    exact List.countP_le_length

theorem parsed_perm {entries entries' : List (String × UInt64)} (h : entries.Perm entries') :
    (parsed entries).Perm (parsed entries') := h.filterMap _

/-- Some order of the map puts as many counts of zero first as can be. -/
theorem exists_worst (entries : List (String × UInt64)) :
    ∃ entries', entries'.Perm entries ∧ KeySorted rank (parsed entries') := by
  let key (e : String × UInt64) : ℕ := ((parseU32 e.1).map fun slot => rank (slot, e.2)).getD 0
  refine ⟨_, List.mergeSort_perm entries fun a b => decide (key a ≤ key b), ?_⟩
  refine List.pairwise_filterMap.mpr ((keySorted_mergeSort key entries).imp ?_)
  intro a b hab e he f hf
  obtain ⟨slot, hslot, rfl⟩ := Option.map_eq_some_iff.mp he
  obtain ⟨slot', hslot', rfl⟩ := Option.map_eq_some_iff.mp hf
  simpa only [key, hslot, hslot', Option.map_some, Option.getD_some] using hab

/-- **A report survives every order of its map** exactly if its time stamp can be cut, and either
no slot is 64 or more, or twenty slots below that are left after the leading entries. -/
theorem renders_all_iff (r : Rounding) (report : HistogramReport)
    {entries : List (String × UInt64)} (hentries : Lists report.buckets entries) :
    (∀ entries', Lists report.buckets entries' → Completes (renderReport r report entries'))
      ↔ CharBoundary report.ts.toList (min (byteLength report.ts.toList) 19)
        ∧ ((∀ e ∈ parsed entries, e.slot < 64)
          ∨ leading (parsed entries) + 20 ≤ below Entry.slot 64 (parsed entries)) := by
  have hall : (∀ e ∈ parsed entries, e.slot < 64)
      ↔ (parsed entries).length = below Entry.slot 64 (parsed entries) := by
    rw [eq_comm, below, List.countP_eq_length]
    exact forall₂_congr fun e _ => decide_eq_true_iff.symm
  rw [hall]
  constructor
  · intro h
    obtain ⟨worst, hperm, hrank⟩ := exists_worst entries
    have hworst := (renders_iff r report worst).mp (h worst (hentries.of_perm hperm.symm))
    have hparsed := parsed_perm hperm
    rw [sortBySlot_of_sorted (slot_of_rank hrank), lo_eq_leading hrank, leading_perm hparsed,
      below, hparsed.countP_eq, hparsed.length_eq] at hworst
    exact hworst
  · rintro ⟨hts, hslots⟩ entries' hentries'
    have hparsed := parsed_perm (hentries'.perm hentries)
    have hlo := lo_le_leading (sortBySlot_sorted (parsed entries'))
    rw [leading_perm ((sortBySlot_perm _).trans hparsed)] at hlo
    refine (renders_iff r report entries').mpr ⟨hts, ?_⟩
    rw [below, hparsed.countP_eq, hparsed.length_eq]
    exact hslots.imp id fun hle => Nat.le_trans (Nat.add_le_add_right hlo 20) hle

/-! Reports with one bucket. -/

def oneBucket (ts key : String) (count : UInt64) : HistogramReport where
  ts := ts
  stack := "surrealdb"
  op := "vfs_read"
  p50Ns := 18432
  p99Ns := 72800
  p999Ns := 215000
  totalCount := count
  buckets := fun k => if k = key then some count else none

theorem lists_oneBucket (ts key : String) (count : UInt64) :
    Lists (oneBucket ts key count).buckets [(key, count)] where
  nodup := List.nodup_singleton key
  mem k v := by
    rw [List.mem_singleton, Prod.mk.injEq, oneBucket]
    by_cases hk : k = key <;> simp [hk, eq_comm]

theorem renders_oneBucket :
    Completes (renderReport Rounding.none (oneBucket "2024-05-01T10:00:00Z" "14" 120)
      [("14", 120)]) := by
  have hlists := lists_oneBucket "2024-05-01T10:00:00Z" "14" 120
  have hts : (takeBytes "2024-05-01T10:00:00Z".toList 19).isSome = true := by decide
  have hparsed : parsed [("14", 120)] = [(14, 120)] := by decide
  refine (renders_all_iff Rounding.none _ hlists).mpr ⟨?_, .inl ?_⟩ _ hlists
  · exact charBoundary_iff.mpr (Option.isSome_iff_exists.mp hts)
  · rw [hparsed]
    intro e he
    rw [List.mem_singleton.mp he]
    decide

/-- A slot of 64, and a time stamp with a character at the cut. -/
theorem oneBucket_panics :
    (Lists (oneBucket "2024-05-01T10:00:00Z" "64" 1).buckets [("64", 1)]
        ∧ ¬ Completes (renderReport Rounding.none (oneBucket "2024-05-01T10:00:00Z" "64" 1)
            [("64", 1)]))
      ∧ Lists (oneBucket "2024-05-01 at 10:0é" "14" 120).buckets [("14", 120)]
        ∧ ¬ Completes (renderReport Rounding.none (oneBucket "2024-05-01 at 10:0é" "14" 120)
            [("14", 120)]) := by
  refine ⟨⟨lists_oneBucket _ _ _, ?_⟩, lists_oneBucket _ _ _, ?_⟩
  · rw [renders_iff]
    rintro ⟨-, hlength | hlo⟩
    · exact absurd hlength (by decide)
    · have hzero : below Entry.slot 64 (parsed [("64", 1)]) = 0 := by decide
      rw [hzero] at hlo
      omega
  · rw [renders_iff, charBoundary_iff]
    rintro ⟨⟨front, hfront⟩, -⟩
    have hlength : min (byteLength "2024-05-01 at 10:0é".toList) 19 = 19 := by decide
    have hnone : takeBytes "2024-05-01 at 10:0é".toList 19 = none := by decide
    rw [oneBucket, hlength, hnone] at hfront
    cases hfront

end NexusCore.Probe.Dashboard
