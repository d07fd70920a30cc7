import Mathlib

/-!
# Numbers that climb by one

Parties compute numbers, each at most one more than some number computed before it; they may
also fall back, and several may compute the same number.  A list of such numbers, the newest
first, `Climbs`.

* `Climbs.mem_of_le`: it has every number up to its greatest one;
* `Climbs.count_add_le`: so a number that was computed often was so late, as many steps after
  the start as there are numbers below it.
-/

namespace Foundation.Climb

/-- The greatest number of a list. -/
def peak (vs : List ℕ) : ℕ := vs.foldr max 0

@[simp] theorem peak_cons (v : ℕ) (vs : List ℕ) : peak (v :: vs) = max v (peak vs) := rfl

/-- Each number is at most one more than the greatest one before it. -/
def Climbs : List ℕ → Prop
  | [] => True
  | v :: vs => v ≤ peak vs + 1 ∧ Climbs vs

variable {vs : List ℕ} {t : ℕ}

theorem le_peak (h : t ∈ vs) : t ≤ peak vs := by
  induction vs with
  | nil => cases h
  | cons v vs ih =>
      rw [peak_cons]
      rcases List.mem_cons.mp h with rfl | h
      · exact le_max_left _ _
      · exact Nat.le_trans (ih h) (le_max_right _ _)

/-- **No number is left out** on the way up. -/
theorem Climbs.mem_of_le (h : Climbs vs) (hpos : 0 < t) (ht : t ≤ peak vs) : t ∈ vs := by
  induction vs with
  | nil =>
      have hzero : peak [] = 0 := rfl
      omega
  | cons v vs ih =>
      obtain ⟨hv, h⟩ := h
      by_cases hle : t ≤ peak vs
      · exact List.mem_cons_of_mem v (ih h hle)
      · rw [peak_cons] at ht
        have hself : t = v := by omega
        rw [hself]
        exact List.mem_cons_self

/-- The numbers below `t` come first, once each at least. -/
theorem Climbs.count_add_min_le (h : Climbs vs) (hpos : 0 < t) :
    vs.count t + min (peak vs) (t - 1) ≤ vs.length := by
  induction vs with
  | nil => simp [peak]
  | cons v vs ih =>
      obtain ⟨hv, h⟩ := h
      have hrest := ih h
      rw [peak_cons, List.length_cons, List.count_cons]
      by_cases hself : v = t
      · rw [if_pos (beq_iff_eq.mpr hself)]
        omega
      · rw [if_neg fun heq => hself (beq_iff_eq.mp heq)]
        omega

/-- **A number that was reached `n` times** was so in at least `n` and `t - 1` steps. -/
theorem Climbs.count_add_le (h : Climbs vs) (hpos : 0 < t) (hmem : t ∈ vs) :
    vs.count t + (t - 1) ≤ vs.length := by
  have hpeak := le_peak hmem
  have hle := h.count_add_min_le hpos
  rwa [min_eq_right (by omega)] at hle

theorem peak_le_length (h : Climbs vs) : peak vs ≤ vs.length := by
  induction vs with
  | nil => exact Nat.le_refl 0
  | cons v vs ih =>
      have hrest := ih h.2
      have hv := h.1
      rw [peak_cons, List.length_cons]
      omega

end Foundation.Climb
