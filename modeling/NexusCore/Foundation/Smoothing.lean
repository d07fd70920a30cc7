import Mathlib

/-!
# Exponentially smoothed means

A mean that takes in one value after the other, each with the same weight against what it was.

* `smoothAll_replicate`: on equal values its distance from them shrinks by the same factor at
  every step;
* `smoothAll_mem_Icc`: it stays between bounds of the values and of its start.
-/

namespace Foundation.Smoothing

variable {𝕜 : Type*} [Field 𝕜]

def smooth (weight mean x : 𝕜) : 𝕜 := mean * (1 - weight) + x * weight

/-- The values one after the other. -/
def smoothAll (weight start : 𝕜) (xs : List 𝕜) : 𝕜 := xs.foldl (smooth weight) start

theorem smoothAll_concat (weight start : 𝕜) (xs : List 𝕜) (x : 𝕜) :
    smoothAll weight start (xs ++ [x]) = smooth weight (smoothAll weight start xs) x :=
  List.foldl_concat _ _ _ _

/-- **Equal values** are approached geometrically. -/
theorem smoothAll_replicate (weight start x : 𝕜) (n : ℕ) :
    smoothAll weight start (List.replicate n x) - x = (start - x) * (1 - weight) ^ n := by
  have hstep : ∀ mean : 𝕜, smooth weight mean x - x = (mean - x) * (1 - weight) := by
    intro mean
    unfold smooth
    ring
  induction n with
  | zero =>
      rw [pow_zero, mul_one]
      rfl
  | succ n ih =>
      rw [List.replicate_succ', smoothAll_concat, hstep, ih, pow_succ]
      ring

section Bounds

variable [LinearOrder 𝕜] [IsStrictOrderedRing 𝕜] {weight start lo hi x : 𝕜} {xs : List 𝕜}

theorem smooth_mem_Icc (h0 : 0 ≤ weight) (h1 : weight ≤ 1) (hmean : start ∈ Set.Icc lo hi)
    (hx : x ∈ Set.Icc lo hi) : smooth weight start x ∈ Set.Icc lo hi := by
  have hrest : 0 ≤ 1 - weight := sub_nonneg.mpr h1
  constructor
  · calc lo = lo * (1 - weight) + lo * weight := by ring
      _ ≤ start * (1 - weight) + x * weight := by
          gcongr
          · exact hmean.1
          · exact hx.1
  · calc start * (1 - weight) + x * weight ≤ hi * (1 - weight) + hi * weight := by
          gcongr
          · exact hmean.2
          · exact hx.2
      _ = hi := by ring

/-- **A smoothed mean stays within bounds.** -/
theorem smoothAll_mem_Icc (h0 : 0 ≤ weight) (h1 : weight ≤ 1) (hstart : start ∈ Set.Icc lo hi)
    (hxs : ∀ x ∈ xs, x ∈ Set.Icc lo hi) : smoothAll weight start xs ∈ Set.Icc lo hi := by
  induction xs using List.reverseRecOn with
  | nil => exact hstart
  | append_singleton xs x ih =>
      rw [smoothAll_concat]
      exact smooth_mem_Icc h0 h1 (ih fun y hy => hxs y (by simp [hy])) (hxs x (by simp))

end Bounds

end Foundation.Smoothing
