import Mathlib

/-!
# Rounded fractions

Floating-point numbers, as far as their order goes: every operation gives the exact result and
then rounds it.  Rounding keeps the order and leaves small integers as they are, so a part of a
whole never comes out greater than the whole (`Rounding.floor_scaled_le`).
-/

namespace Foundation

/-- A way to round, in double precision: integers up to `2 ^ 53` are exact. -/
structure Rounding where
  round : ℚ → ℚ
  monotone : Monotone round
  exact : ∀ n : ℕ, n ≤ 2 ^ 53 → round n = n

namespace Rounding

/-- No rounding at all. -/
def none : Rounding := ⟨id, monotone_id, fun _ _ => rfl⟩

variable (r : Rounding)

/-- `part / whole * width`, as it is computed. -/
def scaled (part whole width : ℕ) : ℚ :=
  r.round (r.round (r.round part / r.round whole) * r.round width)

theorem round_pos {n : ℕ} (hn : 0 < n) : 0 < r.round n := by
  have hone : r.round (1 : ℕ) = 1 := by
    rw [r.exact 1 (by decide), Nat.cast_one]
  have hle : r.round (1 : ℕ) ≤ r.round n := r.monotone (by exact_mod_cast hn)
  rw [hone] at hle
  exact lt_of_lt_of_le one_pos hle

/-- **A part of the width is no more than the width.** -/
theorem floor_scaled_le {part whole width : ℕ} (hpart : part ≤ whole) (hwhole : 0 < whole)
    (hwidth : width ≤ 2 ^ 53) : ⌊scaled r part whole width⌋₊ ≤ width := by
  have hratio : r.round part / r.round whole ≤ (1 : ℕ) := by
    rw [Nat.cast_one, div_le_one (round_pos r hwhole)]
    exact r.monotone (by exact_mod_cast hpart)
  have hround : r.round (r.round part / r.round whole) ≤ 1 := by
    have hle := r.monotone hratio
    rwa [r.exact 1 (by decide), Nat.cast_one] at hle
  have hscaled : scaled r part whole width ≤ width := by
    have hle : r.round (r.round part / r.round whole) * r.round width ≤ (width : ℚ) := by
      rw [r.exact width hwidth]
      exact mul_le_of_le_one_left (Nat.cast_nonneg width) hround
    calc scaled r part whole width ≤ r.round width := r.monotone hle
      _ = width := r.exact width hwidth
  exact Nat.floor_le_of_le hscaled

end Rounding

end Foundation
