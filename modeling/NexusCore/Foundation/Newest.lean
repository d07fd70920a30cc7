import Mathlib

/-!
# Registers that keep the newest value

A register holds one value; an offered value replaces it when its version is greater.
`newest ver cur offers` is what the register holds after a sequence of offers.

The register never goes back (`newest_mono`), and what it ends up with does not depend on
the order or the repetition of the offers: it is the offer of greatest version when that
version beats the first value (`newest_eq_of_greatest`), and the first value when no version
does (`newest_eq_self`).
-/

namespace Foundation.Newest

variable {α ι : Type*} [LinearOrder ι] (ver : α → ι)

/-- One offer. -/
def offer (cur new : α) : α := if ver new ≤ ver cur then cur else new

/-- What the register holds after the offers. -/
def newest (cur : α) (offers : List α) : α := offers.foldl (offer ver) cur

theorem newest_cons (cur a : α) (offers : List α) :
    newest ver cur (a :: offers) = newest ver (offer ver cur a) offers := rfl

/-- An offer leaves the greater of the two versions. -/
theorem ver_offer (cur a : α) : ver (offer ver cur a) = max (ver cur) (ver a) := by
  unfold offer
  split
  · next h => exact (max_eq_left h).symm
  · next h => exact (max_eq_right (le_of_lt (not_le.mp h))).symm

/-- **The register never goes back.** -/
theorem newest_mono (cur : α) (offers : List α) : ver cur ≤ ver (newest ver cur offers) := by
  induction offers generalizing cur with
  | nil => exact le_refl _
  | cons a offers ih =>
      rw [newest_cons]
      refine le_trans ?_ (ih _)
      rw [ver_offer ver]
      exact le_max_left _ _

/-- It holds at least every version that was offered. -/
theorem le_newest {a : α} {offers : List α} (ha : a ∈ offers) (cur : α) :
    ver a ≤ ver (newest ver cur offers) := by
  induction offers generalizing cur with
  | nil => cases ha
  | cons b offers ih =>
      rw [newest_cons]
      rcases List.mem_cons.mp ha with rfl | ha
      · refine le_trans ?_ (newest_mono ver _ offers)
        rw [ver_offer ver]
        exact le_max_right _ _
      · exact ih ha _

/-- It holds the first value or one that was offered. -/
theorem newest_mem (cur : α) (offers : List α) :
    newest ver cur offers = cur ∨ newest ver cur offers ∈ offers := by
  induction offers generalizing cur with
  | nil => exact Or.inl rfl
  | cons a offers ih =>
      rw [newest_cons]
      rcases ih (offer ver cur a) with h | h
      · rw [h]
        unfold offer
        split
        · exact Or.inl rfl
        · exact Or.inr List.mem_cons_self
      · exact Or.inr (List.mem_cons_of_mem _ h)

/-- **The greatest offer wins**, whatever the order of the offers and however often each is
repeated, when no other offer carries its version. -/
theorem newest_eq_of_greatest {cur a : α} {offers : List α} (ha : a ∈ offers)
    (hcur : ver cur < ver a) (hmax : ∀ b ∈ offers, ver b ≤ ver a)
    (huniq : ∀ b ∈ offers, ver b = ver a → b = a) : newest ver cur offers = a := by
  have hle := le_newest ver ha cur
  rcases newest_mem ver cur offers with h | h
  · rw [h] at hle
    exact absurd hcur (not_lt.mpr hle)
  · exact huniq _ h (le_antisymm (hmax _ h) hle)

/-- **The first value stays** when no offer beats it. -/
theorem newest_eq_self {cur : α} {offers : List α} (h : ∀ b ∈ offers, ver b ≤ ver cur) :
    newest ver cur offers = cur := by
  induction offers with
  | nil => rfl
  | cons a offers ih =>
      have ha : offer ver cur a = cur := if_pos (h a List.mem_cons_self)
      rw [newest_cons, ha]
      exact ih fun b hb => h b (List.mem_cons_of_mem _ hb)

end Foundation.Newest
