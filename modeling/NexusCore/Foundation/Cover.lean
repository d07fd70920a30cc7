import Mathlib

/-!
# Covering a set

Finite sets that may overlap, repeat, be empty or reach beyond the set they are to cover.  What
they leave open is at least what their sizes leave over (`card_sub_le_holes`); it is exactly
that if they are disjoint and stay inside (`card_sub_eq_holes`).
-/

namespace Foundation.Cover

variable {α : Type*} [DecidableEq α]

def union (l : List (Finset α)) : Finset α := l.foldr (· ∪ ·) ∅

/-- What is left of a set. -/
def holes (t : Finset α) (l : List (Finset α)) : Finset α := t \ union l

def size (l : List (Finset α)) : ℕ := (l.map Finset.card).sum

theorem union_cons (s : Finset α) (l : List (Finset α)) : union (s :: l) = s ∪ union l := rfl

omit [DecidableEq α] in
theorem size_cons (s : Finset α) (l : List (Finset α)) : size (s :: l) = s.card + size l := by
  rw [size, List.map_cons, List.sum_cons]
  rfl

theorem mem_union {x : α} {l : List (Finset α)} : x ∈ union l ↔ ∃ s ∈ l, x ∈ s := by
  induction l with
  | nil => exact iff_of_false (Finset.notMem_empty x) nofun
  | cons s l ih => simp only [union_cons, Finset.mem_union, ih, List.mem_cons, exists_eq_or_imp]

theorem mem_holes {x : α} {t : Finset α} {l : List (Finset α)} :
    x ∈ holes t l ↔ x ∈ t ∧ ∀ s ∈ l, x ∉ s := by
  rw [holes, Finset.mem_sdiff, mem_union]
  push Not
  rfl

/-- Overlaps count once. -/
theorem card_union_le (l : List (Finset α)) : (union l).card ≤ size l := by
  induction l with
  | nil => exact Nat.le_refl 0
  | cons s l ih =>
      rw [union_cons, size_cons]
      exact (Finset.card_union_le s (union l)).trans (Nat.add_le_add_left ih s.card)

theorem card_union_eq {l : List (Finset α)} (h : l.Pairwise Disjoint) :
    (union l).card = size l := by
  induction l with
  | nil => rfl
  | cons s l ih =>
      obtain ⟨hhead, htail⟩ := List.pairwise_cons.mp h
      have hdisjoint : Disjoint s (union l) := by
        rw [Finset.disjoint_right]
        intro x hx hs
        obtain ⟨s', hs', hmem⟩ := mem_union.mp hx
        exact Finset.disjoint_left.mp (hhead s' hs') hs hmem
      rw [union_cons, size_cons, Finset.card_union_of_disjoint hdisjoint, ih htail]

/-- **What the sizes leave over is open.** -/
theorem card_sub_le_holes (t : Finset α) (l : List (Finset α)) :
    t.card - size l ≤ (holes t l).card := by
  have hsdiff : t.card - (union l).card ≤ (holes t l).card := Finset.le_card_sdiff (union l) t
  have hle := card_union_le l
  omega

/-- **Disjoint sets inside leave no more open.** -/
theorem card_sub_eq_holes {t : Finset α} {l : List (Finset α)} (hinside : ∀ s ∈ l, s ⊆ t)
    (hdisjoint : l.Pairwise Disjoint) : t.card - size l = (holes t l).card := by
  have hsubset : union l ⊆ t := by
    intro x hx
    obtain ⟨s, hs, hmem⟩ := mem_union.mp hx
    exact hinside s hs hmem
  rw [holes, Finset.card_sdiff_of_subset hsubset, card_union_eq hdisjoint]

end Foundation.Cover
