import Mathlib

/-!
# Lists ordered by a numeric key

In a list whose keys never decrease, the entries of one key stand next to each other.  Their
block begins after the `below key u` entries of smaller keys, so the numbers `below key u`,
`u = 0, 1, …`, are the block boundaries: the row pointers of a compressed row layout and the
prefix sums of a counting sort.

* `below_succ`: the boundaries are the running sums of the block sizes `sizeAt`;
* `getElem_lt_iff`: a position is before a boundary exactly if its key is;
* `block_eq_filter`: the entries between two boundaries are the entries of that key;
* `below_add_sizeAt`: an entry's own position is its block's start plus the number of
  entries of its key before it, which is where a counting sort puts it;
* `flatMap_filter_range`: the blocks one after another are the whole list.
-/

namespace Foundation.KeyedList

variable {α : Type*} (key : α → ℕ)

/-- The keys do not decrease along the list. -/
def KeySorted (l : List α) : Prop := l.Pairwise fun a b => key a ≤ key b

/-- How many entries have a key below `u`. -/
def below (u : ℕ) (l : List α) : ℕ := l.countP fun a => decide (key a < u)

/-- How many entries have the key `u`. -/
def sizeAt (u : ℕ) (l : List α) : ℕ := l.countP fun a => decide (key a = u)

@[simp] theorem below_zero (l : List α) : below key 0 l = 0 := by
  simp [below]

@[simp] theorem sizeAt_nil (u : ℕ) : sizeAt key u [] = 0 := rfl

theorem sizeAt_cons (u : ℕ) (a : α) (l : List α) :
    sizeAt key u (a :: l) = sizeAt key u l + if key a = u then 1 else 0 := by
  simp only [sizeAt, List.countP_cons, decide_eq_true_eq]

theorem below_cons (u : ℕ) (a : α) (l : List α) :
    below key u (a :: l) = below key u l + if key a < u then 1 else 0 := by
  simp only [below, List.countP_cons, decide_eq_true_eq]

theorem below_append (u : ℕ) (l₁ l₂ : List α) :
    below key u (l₁ ++ l₂) = below key u l₁ + below key u l₂ := List.countP_append

theorem sizeAt_append (u : ℕ) (l₁ l₂ : List α) :
    sizeAt key u (l₁ ++ l₂) = sizeAt key u l₁ + sizeAt key u l₂ := List.countP_append

/-- The boundaries are the running sums of the block sizes. -/
theorem below_succ (u : ℕ) (l : List α) :
    below key (u + 1) l = below key u l + sizeAt key u l := by
  induction l with
  | nil => rfl
  | cons a l ih =>
      rw [below_cons, below_cons, sizeAt_cons, ih]
      split <;> split <;> split <;> omega

theorem below_le_length (u : ℕ) (l : List α) : below key u l ≤ l.length := List.countP_le_length

theorem below_mono {u v : ℕ} (h : u ≤ v) (l : List α) : below key u l ≤ below key v l := by
  apply List.countP_mono_left
  intro a _ ha
  have hlt : key a < u := of_decide_eq_true ha
  exact decide_eq_true (Nat.lt_of_lt_of_le hlt h)

theorem below_eq_length {n : ℕ} {l : List α} (h : ∀ a ∈ l, key a < n) :
    below key n l = l.length :=
  List.countP_eq_length.mpr fun a ha => decide_eq_true (h a ha)

theorem below_eq_zero {n : ℕ} {l : List α} (h : ∀ a ∈ l, n ≤ key a) : below key n l = 0 :=
  List.countP_eq_zero.mpr fun a ha hc => Nat.not_lt.mpr (h a ha) (of_decide_eq_true hc)

variable {key}

theorem KeySorted.filter {l : List α} (h : KeySorted key l) (p : α → Bool) :
    KeySorted key (l.filter p) := h.sublist List.filter_sublist

/-- Sorting by a key. -/
theorem keySorted_mergeSort (key : α → ℕ) (l : List α) :
    KeySorted key (l.mergeSort fun a b => decide (key a ≤ key b)) := by
  have hsorted : (l.mergeSort fun a b => decide (key a ≤ key b)).Pairwise
      fun a b => decide (key a ≤ key b) = true := by
    apply List.pairwise_mergeSort
    · intro a b c hab hbc
      exact decide_eq_true (Nat.le_trans (of_decide_eq_true hab) (of_decide_eq_true hbc))
    · intro a b
      simpa using Nat.le_total (key a) (key b)
  exact hsorted.imp of_decide_eq_true

/-- A sorted list is its entries below `u` followed by the others. -/
theorem KeySorted.split {l : List α} (h : KeySorted key l) (u : ℕ) :
    l.filter (fun a => decide (key a < u)) ++ l.filter (fun a => decide (u ≤ key a)) = l := by
  induction l with
  | nil => rfl
  | cons a l ih =>
      obtain ⟨hhead, htail⟩ := List.pairwise_cons.mp h
      by_cases ha : key a < u
      · have hge : ¬ u ≤ key a := Nat.not_le.mpr ha
        simp only [List.filter_cons, ha, hge, decide_true, decide_false, if_true, List.cons_append]
        rw [if_neg (by decide), ih htail]
      · -- everything after `a` has at least its key, so nothing is left for the first part
        have hnone : l.filter (fun b => decide (key b < u)) = [] := by
          rw [List.filter_eq_nil_iff]
          intro b hb hc
          have hlt : key b < u := of_decide_eq_true hc
          have hle := hhead b hb
          omega
        have hall : l.filter (fun b => decide (u ≤ key b)) = l := by
          rw [List.filter_eq_self]
          intro b hb
          have hle := hhead b hb
          exact decide_eq_true (by omega)
        have hge : u ≤ key a := Nat.not_lt.mp ha
        simp [ha, hge, hnone, hall]

/-- **A key is below `u` exactly at the positions before the boundary.** -/
theorem KeySorted.getElem_lt_iff {l : List α} (h : KeySorted key l) (u : ℕ) {i : ℕ}
    (hi : i < l.length) : key l[i] < u ↔ i < below key u l := by
  induction l generalizing i with
  | nil => exact absurd hi (Nat.not_lt_zero i)
  | cons a l ih =>
      obtain ⟨hhead, htail⟩ := List.pairwise_cons.mp h
      rw [below_cons]
      by_cases ha : key a < u
      · rw [if_pos ha]
        cases i with
        | zero => exact iff_of_true ha (Nat.succ_pos _)
        | succ i =>
            rw [List.getElem_cons_succ, ih htail (Nat.lt_of_succ_lt_succ hi)]
            omega
      · -- everything from `a` on has at least the key `u`
        have hzero : below key u l = 0 :=
          below_eq_zero key fun b hb => Nat.le_trans (Nat.not_lt.mp ha) (hhead b hb)
        rw [if_neg ha, hzero]
        refine iff_of_false ?_ (Nat.not_lt_zero i)
        cases i with
        | zero => exact ha
        | succ i =>
            have hle := hhead _ (List.getElem_mem (Nat.lt_of_succ_lt_succ hi))
            rw [List.getElem_cons_succ]
            omega

/-- **The entry at a position** has more than so many entries at or below it, and no more than so
many below it. -/
theorem KeySorted.rank_getElem {l : List α} (h : KeySorted key l) {i : ℕ} (hi : i < l.length) :
    i < below key (key l[i] + 1) l ∧ below key (key l[i]) l ≤ i :=
  ⟨(h.getElem_lt_iff _ hi).mp (Nat.lt_succ_self _),
    Nat.not_lt.mp fun hc => Nat.lt_irrefl _ ((h.getElem_lt_iff _ hi).mpr hc)⟩

/-- Sorting forgets the order, where different entries have different keys. -/
theorem mergeSort_eq_of_perm (hinj : Function.Injective key) {l l' : List α} (h : l.Perm l') :
    (l.mergeSort fun a b => decide (key a ≤ key b))
      = l'.mergeSort fun a b => decide (key a ≤ key b) := by
  apply List.Perm.eq_of_pairwise (fun a b _ _ hab hba => hinj (Nat.le_antisymm hab hba))
    (keySorted_mergeSort key l) (keySorted_mergeSort key l')
  exact (List.mergeSort_perm l _).trans (h.trans (List.mergeSort_perm l' _).symm)

/-- Up to key `n`, the entries of key `n` come last. -/
theorem KeySorted.filter_lt_succ {l : List α} (h : KeySorted key l) (n : ℕ) :
    l.filter (fun a => decide (key a < n + 1))
      = l.filter (fun a => decide (key a < n)) ++ l.filter (fun a => decide (key a = n)) := by
  have hs := (h.filter fun a => decide (key a < n + 1)).split n
  rw [List.filter_filter, List.filter_filter] at hs
  rw [← hs]
  congr 1
  · apply List.filter_congr
    intro a _
    simp only [← Bool.decide_and, decide_eq_decide]
    omega
  · apply List.filter_congr
    intro a _
    simp only [← Bool.decide_and, decide_eq_decide]
    omega

/-- **The blocks one after another are the list.** -/
theorem KeySorted.flatMap_filter_range {l : List α} (h : KeySorted key l) (n : ℕ) :
    (List.range n).flatMap (fun u => l.filter fun a => decide (key a = u))
      = l.filter fun a => decide (key a < n) := by
  induction n with
  | zero => simp
  | succ n ih =>
      rw [List.range_succ, List.flatMap_append, ih, h.filter_lt_succ n]
      simp

/-- **A block is what stands between its boundaries.** -/
theorem KeySorted.block_eq_filter {l : List α} (h : KeySorted key l) (u : ℕ) :
    (l.drop (below key u l)).take (below key (u + 1) l - below key u l)
      = l.filter fun a => decide (key a = u) := by
  have hlen : (l.filter fun a => decide (key a < u)).length = below key u l :=
    List.countP_eq_length_filter.symm
  have hblock : (l.filter fun a => decide (key a = u)).length
      = below key (u + 1) l - below key u l := by
    rw [below_succ, Nat.add_sub_cancel_left]
    exact List.countP_eq_length_filter.symm
  -- `l` is: keys below `u`, key `u`, keys above `u`
  have hcut : l = l.filter (fun a => decide (key a < u))
      ++ (l.filter (fun a => decide (key a = u)) ++ l.filter fun a => decide (u + 1 ≤ key a)) := by
    rw [← List.append_assoc, ← h.filter_lt_succ u, h.split (u + 1)]
  have hmid : ∀ xs ys zs : List α, l = xs ++ (ys ++ zs) →
      (l.drop xs.length).take ys.length = ys := by
    rintro xs ys zs rfl
    rw [List.drop_left, List.take_left]
  rw [← hblock, ← hlen]
  exact hmid _ _ _ hcut

/-- The entry at a position between two boundaries has that key. -/
theorem KeySorted.key_getElem {l : List α} (h : KeySorted key l) {u i : ℕ} (hi : i < l.length)
    (hlo : below key u l ≤ i) (hhi : i < below key (u + 1) l) : key l[i] = u := by
  have hlen : i - below key u l
      < ((l.drop (below key u l)).take (below key (u + 1) l - below key u l)).length := by
    rw [List.length_take, List.length_drop]
    omega
  have hmem : l[i] ∈ (l.drop (below key u l)).take (below key (u + 1) l - below key u l) := by
    apply List.mem_iff_getElem.mpr
    refine ⟨i - below key u l, hlen, ?_⟩
    simp only [List.getElem_take, List.getElem_drop, Nat.add_sub_cancel' hlo]
  rw [h.block_eq_filter u] at hmem
  exact of_decide_eq_true (List.mem_filter.mp hmem).2

/-- **Where a counting sort puts an entry**: its block's start plus the entries of its key
already placed is its position in the sorted list. -/
theorem KeySorted.below_add_sizeAt {pre post : List α} {a : α}
    (h : KeySorted key (pre ++ a :: post)) :
    below key (key a) (pre ++ a :: post) + sizeAt key (key a) pre = pre.length := by
  obtain ⟨-, htail, hcross⟩ := List.pairwise_append.mp h
  have hpost : below key (key a) (a :: post) = 0 := by
    apply below_eq_zero
    intro b hb
    rcases List.mem_cons.mp hb with rfl | hb
    · exact Nat.le_refl _
    · exact (List.pairwise_cons.mp htail).1 b hb
  have hpre : below key (key a + 1) pre = pre.length := by
    apply below_eq_length
    intro b hb
    exact Nat.lt_succ_of_le (hcross b hb a (by simp))
  rw [below_append, hpost, Nat.add_zero, ← below_succ, hpre]

end Foundation.KeyedList
