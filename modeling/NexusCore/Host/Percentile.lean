import NexusCore.Foundation.KeyedList
import NexusCore.Foundation.Machine
import NexusCore.Host.Agg

/-!
# The tail latency

`p99_latency_us` sorts a copy of the kept samples and takes the one at 99 hundredths of their
number.  In a sorted list the position of a sample says how many are below it, so the sample is a
true 99th percentile (`p99_percentile`).
-/

namespace NexusCore.Host

open Foundation.KeyedList Foundation.Machine

/-! ### The code -/

/-- `sort_unstable`: equal samples cannot be told apart. -/
def sortUnstable (v : List UInt64) : List UInt64 :=
  v.mergeSort fun a b => decide (a.toNat ≤ b.toNat)

/-- `(len as f64 * 0.99).floor()`, with the product taken exactly. -/
def p99Floor (len : ℕ) : ℕ := ⌊(len : ℚ) * (99 / 100)⌋₊

def p99Idx (len : ℕ) : ℕ := min (p99Floor len) (len - 1)

/-- The nanoseconds that `p99_latency_us` selects. -/
def p99Ns (latNs : List UInt64) : Checked UInt64 :=
  let v := sortUnstable latNs
  index v (p99Idx v.length)

/-- `Agg::p99_latency_us`. -/
def Agg.p99LatencyUs (a : Agg) : Checked ℚ :=
  if a.latNs = [] then .ok 0
  else do
    let ns ← p99Ns a.latNs
    .ok (ns.toNat / 1000)

/-! ### The position -/

theorem p99Floor_eq (len : ℕ) : p99Floor len = 99 * len / 100 := by
  have hcast : (len : ℚ) * (99 / 100) = ((99 * len : ℕ) : ℚ) / ((100 : ℕ) : ℚ) := by
    push_cast
    ring
  rw [p99Floor, hcast, Nat.floor_div_eq_div]

/-- The position is inside the list. -/
theorem p99Floor_lt {len : ℕ} (h : 0 < len) : p99Floor len < len := by
  rw [p99Floor_eq]
  omega

/-- Nothing is cut off at the end. -/
theorem p99Idx_eq {len : ℕ} (h : 0 < len) : p99Idx len = p99Floor len :=
  Nat.min_eq_left (Nat.le_sub_one_of_lt (p99Floor_lt h))

theorem sortUnstable_perm (v : List UInt64) : (sortUnstable v).Perm v := List.mergeSort_perm v _

theorem sortUnstable_sorted (v : List UInt64) : KeySorted UInt64.toNat (sortUnstable v) :=
  keySorted_mergeSort UInt64.toNat v

theorem sortUnstable_eq_of_perm {v w : List UInt64} (h : v.Perm w) :
    sortUnstable v = sortUnstable w :=
  mergeSort_eq_of_perm (fun _ _ => UInt64.toNat_inj.mp) h

/-! ### The percentile -/

theorem below_succ_eq_countP (x : UInt64) (l : List UInt64) :
    below UInt64.toNat (x.toNat + 1) l = l.countP fun y => decide (y ≤ x) :=
  List.countP_congr fun y _ => by
    rw [decide_eq_true_eq, decide_eq_true_eq, Nat.lt_succ_iff, UInt64.le_iff_toNat_le]

theorem below_eq_countP (x : UInt64) (l : List UInt64) :
    below UInt64.toNat x.toNat l = l.countP fun y => decide (y < x) :=
  List.countP_congr fun y _ => by
    rw [decide_eq_true_eq, decide_eq_true_eq, UInt64.lt_iff_toNat_lt]

/-- **`p99_latency_us` picks a true 99th percentile** of the kept samples, at a position that needs
no clamp, and their order does not matter. -/
theorem p99_percentile (a : Agg) (h : a.latNs ≠ []) :
    p99Idx a.latNs.length = p99Floor a.latNs.length
      ∧ p99Floor a.latNs.length < a.latNs.length
      ∧ ∃ ns, p99Ns a.latNs = .ok ns
        ∧ a.p99LatencyUs = .ok (ns.toNat / 1000)
        ∧ ns ∈ a.latNs
        ∧ 99 * a.latNs.length < 100 * a.latNs.countP (fun x => decide (x ≤ ns))
        ∧ 100 * a.latNs.countP (fun x => decide (x < ns)) ≤ 99 * a.latNs.length
        ∧ ∀ latNs, latNs.Perm a.latNs →
          ({ a with latNs := latNs } : Agg).p99LatencyUs = a.p99LatencyUs := by
  have hpos := List.length_pos_of_ne_nil h
  have hidx := p99Idx_eq hpos
  have hlt := p99Floor_lt hpos
  have hperm := sortUnstable_perm a.latNs
  have hbound : p99Idx (sortUnstable a.latNs).length < (sortUnstable a.latNs).length := by
    rw [hperm.length_eq, hidx]
    exact hlt
  have hns : p99Ns a.latNs = .ok (sortUnstable a.latNs)[p99Idx (sortUnstable a.latNs).length] :=
    index_of_lt hbound
  obtain ⟨hle, hless⟩ := (sortUnstable_sorted a.latNs).rank_getElem hbound
  rw [below_succ_eq_countP, hperm.countP_eq] at hle
  rw [below_eq_countP, hperm.countP_eq] at hless
  have hposition : p99Idx (sortUnstable a.latNs).length = 99 * a.latNs.length / 100 := by
    rw [hperm.length_eq, hidx, p99Floor_eq]
  refine ⟨hidx, hlt, _, hns, ?_, hperm.mem_iff.mp (List.getElem_mem hbound), ?_, ?_, ?_⟩
  · rw [Agg.p99LatencyUs, if_neg h, hns, ok_bind]
  · omega
  · omega
  · intro latNs hlat
    have hne : latNs ≠ [] := fun hnil => h (List.perm_nil.mp (hnil ▸ hlat.symm))
    rw [Agg.p99LatencyUs, Agg.p99LatencyUs, if_neg hne, if_neg h, p99Ns, p99Ns,
      sortUnstable_eq_of_perm hlat]

theorem p99_percentile_small :
    ∃ ns, p99Ns [300, 100, 200] = .ok ns ∧ ns ∈ [300, 100, 200]
      ∧ 99 * 3 < 100 * [300, 100, 200].countP (fun x => decide (x ≤ ns)) := by
  obtain ⟨-, -, ns, hns, -, hmem, hle, -⟩ :=
    p99_percentile { Agg.init 0 with latNs := [300, 100, 200] } (List.cons_ne_nil _ _)
  exact ⟨ns, hns, hmem, hle⟩

end NexusCore.Host
