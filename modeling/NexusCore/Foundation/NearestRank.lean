import Mathlib
import NexusCore.Foundation.KeyedList

/-!
# Nearest-rank percentiles and buckets

The nearest-rank `q`-percentile of a list is its least entry `x` such that at least `q` times
the length of the list are no greater than `x`.  When the entries are sorted into numbered
buckets that respect their order, the percentile can be found from the bucket sizes alone, up
to its bucket: it lies in the first bucket at which the running count reaches `q` times the
length.

* `exists_nearestRank`: a non-empty list has every percentile up to `1`;
* `bucket_eq_of_reachedFirst`: the bucket of the percentile is the first one that is reached;
* `ReachedFirst.mono`: greater percentiles are reached no earlier.
-/

namespace Foundation.NearestRank

open Foundation.KeyedList

variable {α : Type*}

/-- The least entry with at least `q` times the length at or below it, by a numeric key. -/
structure IsNearestRank (key : α → ℕ) (q : ℚ) (l : List α) (x : α) : Prop where
  mem : x ∈ l
  reaches : q * l.length ≤ below key (key x + 1) l
  least : ∀ y ∈ l, q * l.length ≤ below key (key y + 1) l → key x ≤ key y

/-- The running count over the buckets reaches `q` times the length at `s`, and not before. -/
structure ReachedFirst (bucket : α → ℕ) (q : ℚ) (l : List α) (s : ℕ) : Prop where
  reached : q * l.length ≤ below bucket (s + 1) l
  first : ∀ t < s, (below bucket (t + 1) l : ℚ) < q * l.length

variable {key bucket : α → ℕ} {q r : ℚ} {l : List α}

/-- The entry of greatest key among those that meet a condition. -/
theorem exists_greatest (key : α → ℕ) (p : α → Prop) (h : ∃ a ∈ l, p a) :
    ∃ a ∈ l, p a ∧ ∀ b ∈ l, p b → key b ≤ key a := by
  induction l with
  | nil =>
      obtain ⟨a, ha, -⟩ := h
      exact absurd ha List.not_mem_nil
  | cons c l ih =>
      by_cases htail : ∃ a ∈ l, p a
      · obtain ⟨a, ha, hpa, hmax⟩ := ih htail
        by_cases hc : p c ∧ key a ≤ key c
        · refine ⟨c, by simp, hc.1, ?_⟩
          intro b hb hpb
          rcases List.mem_cons.mp hb with rfl | hb
          · exact Nat.le_refl _
          · exact Nat.le_trans (hmax b hb hpb) hc.2
        · refine ⟨a, by simp [ha], hpa, ?_⟩
          intro b hb hpb
          rcases List.mem_cons.mp hb with rfl | hb
          · by_contra hlt
            exact hc ⟨hpb, by omega⟩
          · exact hmax b hb hpb
      · obtain ⟨a, ha, hpa⟩ := h
        have hac : a = c := by
          rcases List.mem_cons.mp ha with rfl | ha
          · rfl
          · exact absurd ⟨a, ha, hpa⟩ htail
        subst hac
        refine ⟨a, by simp, hpa, ?_⟩
        intro b hb hpb
        rcases List.mem_cons.mp hb with rfl | hb
        · exact Nat.le_refl _
        · exact absurd ⟨b, hb, hpb⟩ htail

/-- A non-empty list has every percentile up to `1`. -/
theorem exists_nearestRank (key : α → ℕ) (hne : l ≠ []) (hq : q ≤ 1) :
    ∃ x, IsNearestRank key q l x := by
  -- the greatest entry reaches every percentile, so there is a least key that does
  obtain ⟨a, ha⟩ := List.exists_mem_of_ne_nil l hne
  obtain ⟨m, hm, -, hmax⟩ := exists_greatest key (fun _ => True) ⟨a, ha, trivial⟩
  have hall : below key (key m + 1) l = l.length :=
    below_eq_length key fun b hb => Nat.lt_succ_of_le (hmax b hb trivial)
  have hex : ∃ k, ∃ y ∈ l, key y = k ∧ q * l.length ≤ below key (key y + 1) l := by
    refine ⟨key m, m, hm, rfl, ?_⟩
    rw [hall]
    exact mul_le_of_le_one_left (Nat.cast_nonneg _) hq
  classical
  obtain ⟨x, hx, hkey, hreach⟩ := Nat.find_spec hex
  refine ⟨x, hx, hreach, ?_⟩
  intro y hy hyreach
  rw [hkey]
  exact Nat.find_min' hex ⟨y, hy, rfl, hyreach⟩

/-- Counting by a coarser order counts at least as many. -/
theorem below_le_below {k s : ℕ} (h : ∀ a ∈ l, key a < k → bucket a < s) :
    below key k l ≤ below bucket s l := by
  apply List.countP_mono_left
  intro a ha hlt
  exact decide_eq_true (h a ha (of_decide_eq_true hlt))

/-- **The percentile lies in the first bucket that is reached.** -/
theorem bucket_eq_of_reachedFirst (hmono : ∀ a b, key a ≤ key b → bucket a ≤ bucket b)
    (hq : 0 < q) {x : α} {s : ℕ} (hx : IsNearestRank key q l x)
    (hs : ReachedFirst bucket q l s) : bucket x = s := by
  apply Nat.le_antisymm
  · -- the greatest entry of the buckets up to `s` reaches the percentile, too
    have hlen : (0 : ℚ) < l.length := by
      exact_mod_cast List.length_pos_of_mem hx.mem
    have hpos : 0 < below bucket (s + 1) l := by
      have hlt : (0 : ℚ) < below bucket (s + 1) l :=
        lt_of_lt_of_le (mul_pos hq hlen) hs.reached
      exact_mod_cast hlt
    obtain ⟨a, ha, hbucket⟩ := List.countP_pos_iff.mp hpos
    obtain ⟨y, hy, hys, hmax⟩ := exists_greatest key (fun a => bucket a < s + 1)
      ⟨a, ha, of_decide_eq_true hbucket⟩
    have hcount : below bucket (s + 1) l ≤ below key (key y + 1) l :=
      below_le_below fun b hb hlt => Nat.lt_succ_of_le (hmax b hb hlt)
    have hxy : key x ≤ key y := by
      apply hx.least y hy
      exact le_trans hs.reached (by exact_mod_cast hcount)
    exact Nat.le_trans (hmono x y hxy) (Nat.le_of_lt_succ hys)
  · by_contra hlt
    have hfirst := hs.first (bucket x) (Nat.not_le.mp hlt)
    have hcount : below key (key x + 1) l ≤ below bucket (bucket x + 1) l :=
      below_le_below fun b _ hb => Nat.lt_succ_of_le (hmono b x (Nat.le_of_lt_succ hb))
    have hreach : q * l.length ≤ below bucket (bucket x + 1) l :=
      le_trans hx.reaches (by exact_mod_cast hcount)
    exact absurd hreach (not_le.mpr hfirst)

/-- **Greater percentiles are reached no earlier.** -/
theorem ReachedFirst.mono {s t : ℕ} (hqr : q ≤ r) (hs : ReachedFirst bucket q l s)
    (ht : ReachedFirst bucket r l t) : s ≤ t := by
  by_contra hlt
  have hfirst := hs.first t (Nat.not_le.mp hlt)
  have hscale : q * l.length ≤ r * l.length :=
    mul_le_mul_of_nonneg_right hqr (Nat.cast_nonneg _)
  exact absurd (le_trans hscale ht.reached) (not_le.mpr hfirst)

end Foundation.NearestRank
