import Mathlib

/-!
# Binary search by a three-way comparison

The search keeps a window of a list and halves it until one entry is left; the comparison
of that entry decides.  Nothing is asked of the entries themselves: the comparison `f` places
each of them before, at or behind the target, and the list is laid out for it (`Arranged`)
when the entries before come first and the entries behind come last.

* `narrow_spec`: the last entry of the window is an entry at the target if there is any;
* `binarySearchBy_isOk_iff`: the search succeeds exactly when some entry is at the target,
  also where several are.
-/

namespace Foundation.Search

variable {α : Type*} (f : α → Ordering)

/-- Entries before the target, then entries at it, then entries behind it. -/
def Arranged (l : List α) : Prop :=
  l.Pairwise fun a b => (f b = .lt → f a = .lt) ∧ (f a = .gt → f b = .gt)

/-- Halve the window of `size` entries from `base` on; `fuel` bounds the number of passes. -/
def narrow (l : List α) : ℕ → ℕ → ℕ → ℕ
  | 0, base, _ => base
  | fuel + 1, base, size =>
      if size ≤ 1 then base
      else
        let half := size / 2
        let mid := base + half
        let base := if (l[mid]?.map f) = some .gt then base else mid
        narrow l fuel base (size - half)

/-- The position of an entry at the target, or where one would stand. -/
def binarySearchBy (l : List α) : Except ℕ ℕ :=
  let base := narrow f l l.length 0 l.length
  match l[base]? with
  | none => .error 0
  | some a =>
      match f a with
      | .eq => .ok base
      | .lt => .error (base + 1)
      | .gt => .error base

variable {f}

theorem Arranged.getElem {l : List α} (h : Arranged f l) {i j : ℕ} (hij : i < j)
    (hj : j < l.length) :
    (f l[j] = .lt → f l[i] = .lt) ∧ (f l[i] = .gt → f l[j] = .gt) :=
  List.pairwise_iff_getElem.mp h i j (Nat.lt_trans hij hj) hj hij

/-- Everything from an entry behind the target on is behind it. -/
theorem Arranged.gt_of_le {l : List α} (h : Arranged f l) {i j : ℕ} (hij : i ≤ j)
    (hi : i < l.length) (hj : j < l.length) (hgt : f l[i] = .gt) : f l[j] = .gt := by
  rcases Nat.eq_or_lt_of_le hij with rfl | hlt
  · exact hgt
  · exact (h.getElem hlt hj).2 hgt

/-- An entry that follows one at the target and is not behind it is at it, too. -/
theorem Arranged.eq_of_lt {l : List α} (h : Arranged f l) {i j : ℕ} (hij : i < j)
    (hj : j < l.length) (heq : f l[i] = .eq) (hgt : f l[j] ≠ .gt) : f l[j] = .eq := by
  cases hc : f l[j] with
  | eq => rfl
  | gt => exact absurd hc hgt
  | lt =>
      rw [(h.getElem hij hj).1 hc] at heq
      cases heq

/-- A pass whose middle entry is behind the target keeps the lower half. -/
theorem narrow_of_gt {l : List α} {base size : ℕ} (fuel : ℕ) (hsize : ¬ size ≤ 1)
    (hmid : base + size / 2 < l.length) (hgt : f l[base + size / 2] = .gt) :
    narrow f l (fuel + 1) base size = narrow f l fuel base (size - size / 2) := by
  simp only [narrow, if_neg hsize, List.getElem?_eq_getElem hmid, Option.map_some, hgt, if_true]

/-- Otherwise the window goes on from the middle. -/
theorem narrow_of_ne_gt {l : List α} {base size : ℕ} (fuel : ℕ) (hsize : ¬ size ≤ 1)
    (hmid : base + size / 2 < l.length) (hgt : f l[base + size / 2] ≠ .gt) :
    narrow f l (fuel + 1) base size = narrow f l fuel (base + size / 2) (size - size / 2) := by
  simp only [narrow, if_neg hsize, List.getElem?_eq_getElem hmid, Option.map_some,
    Option.some.injEq, hgt, if_false]

/-- **The window keeps the target.**  Halving ends at an entry of the window, and that entry
is at the target when the window holds one that is. -/
theorem narrow_spec {l : List α} (h : Arranged f l) (fuel base size : ℕ) (hsize : 0 < size)
    (hfuel : size ≤ fuel) (hwin : base + size ≤ l.length) :
    base ≤ narrow f l fuel base size ∧ narrow f l fuel base size < base + size ∧
    ((∃ k, ∃ hk : k < l.length, base ≤ k ∧ k < base + size ∧ f l[k] = .eq) →
      ∃ hb : narrow f l fuel base size < l.length, f l[narrow f l fuel base size] = .eq) := by
  induction fuel generalizing base size with
  | zero => omega
  | succ fuel ih =>
      by_cases hone : size ≤ 1
      · have hdone : narrow f l (fuel + 1) base size = base := if_pos hone
        simp only [hdone]
        refine ⟨Nat.le_refl _, by omega, ?_⟩
        rintro ⟨k, hk, hlo, hhi, heq⟩
        obtain rfl : k = base := by omega
        exact ⟨hk, heq⟩
      · have hmid : base + size / 2 < l.length := by omega
        by_cases hgt : f l[base + size / 2] = .gt
        · -- everything from the middle on is behind the target
          obtain ⟨hlo, hhi, hkeep⟩ := ih base (size - size / 2) (by omega) (by omega) (by omega)
          rw [narrow_of_gt fuel hone hmid hgt]
          refine ⟨hlo, by omega, ?_⟩
          rintro ⟨k, hk, hbk, hks, heq⟩
          apply hkeep
          refine ⟨k, hk, hbk, ?_, heq⟩
          by_contra hge
          rw [h.gt_of_le (by omega) hmid hk hgt] at heq
          cases heq
        · -- an entry at the target before the middle makes the middle one, too
          obtain ⟨hlo, hhi, hkeep⟩ :=
            ih (base + size / 2) (size - size / 2) (by omega) (by omega) (by omega)
          rw [narrow_of_ne_gt fuel hone hmid hgt]
          refine ⟨by omega, by omega, ?_⟩
          rintro ⟨k, hk, hbk, hks, heq⟩
          apply hkeep
          by_cases hle : base + size / 2 ≤ k
          · exact ⟨k, hk, hle, by omega, heq⟩
          · exact ⟨base + size / 2, hmid, Nat.le_refl _, by omega,
              h.eq_of_lt (by omega) hmid heq hgt⟩

/-- A position that is answered holds an entry at the target. -/
theorem binarySearchBy_sound {l : List α} {i : ℕ} (h : binarySearchBy f l = .ok i) :
    ∃ hi : i < l.length, f l[i] = .eq := by
  unfold binarySearchBy at h
  simp only at h
  split at h
  · cases h
  · rename_i a ha
    split at h
    · rename_i heq
      cases h
      obtain ⟨hi, hget⟩ := List.getElem?_eq_some_iff.mp ha
      exact ⟨hi, by rw [hget]; exact heq⟩
    · cases h
    · cases h

/-- **The search succeeds exactly when some entry is at the target.** -/
theorem binarySearchBy_isOk_iff {l : List α} (h : Arranged f l) :
    (∃ i, binarySearchBy f l = .ok i) ↔ ∃ a ∈ l, f a = .eq := by
  constructor
  · rintro ⟨i, hi⟩
    obtain ⟨hlt, heq⟩ := binarySearchBy_sound hi
    exact ⟨l[i], List.getElem_mem hlt, heq⟩
  · rintro ⟨a, ha, heq⟩
    obtain ⟨k, hk, rfl⟩ := List.getElem_of_mem ha
    obtain ⟨-, -, hkeep⟩ :=
      narrow_spec h l.length 0 l.length (by omega) (Nat.le_refl _) (by omega)
    obtain ⟨hb, hat⟩ := hkeep ⟨k, hk, Nat.zero_le _, by omega, heq⟩
    refine ⟨narrow f l l.length 0 l.length, ?_⟩
    simp only [binarySearchBy, List.getElem?_eq_getElem hb, hat]

end Foundation.Search
