import Mathlib

/-!
# Turns in rotation

A list whose `k`-th entry is `k` modulo the number of parties serves them in rotation.

* `Rotates.count`: how often each party has had its turn, exactly;
* `Rotates.count_le_succ`: two parties differ by one turn at most;
* `countP_le_of_index`: entries that stand early in a list are few;
* `sum_update_add`: a sum over the parties after one of them has changed.
-/

namespace Foundation.Rotation

variable {α ι : Type*}

/-- The parties `0, …, n - 1` have their turns one after another, again and again. -/
def Rotates (n : ℕ) (turns : List ℕ) : Prop := ∀ k t, turns[k]? = some t → t = k % n

variable {n t u : ℕ} {turns : List ℕ}

theorem Rotates.eq_map (h : Rotates n turns) :
    turns = (List.range turns.length).map (· % n) := by
  apply List.ext_getElem?
  intro k
  by_cases hk : k < turns.length
  · rw [List.getElem?_map, List.getElem?_range hk, List.getElem?_eq_getElem hk]
    exact congrArg some (h k _ (List.getElem?_eq_getElem hk))
  · have hk' : turns.length ≤ k := Nat.not_lt.mp hk
    rw [List.getElem?_eq_none hk', List.getElem?_eq_none (by simpa using hk')]

/-- **The turns of one party.** -/
theorem Rotates.count (h : Rotates n turns) (ht : t < n) :
    turns.count t = turns.length / n + if t < turns.length % n then 1 else 0 := by
  have hn : 0 < n := Nat.zero_lt_of_lt ht
  have hmod : ∀ k, k % n = t ↔ k ≡ t [MOD n] := fun k => by
    rw [Nat.ModEq, Nat.mod_eq_of_lt ht]
  have hcount := Nat.count_modEq_card turns.length hn t
  rw [Nat.mod_eq_of_lt ht, Nat.count] at hcount
  rw [← hcount, List.count]
  conv_lhs => rw [h.eq_map]
  rw [List.countP_map]
  refine List.countP_congr fun k _ => ?_
  simp [hmod]

/-- **Two parties differ by one turn at most.** -/
theorem Rotates.count_le_succ (h : Rotates n turns) (ht : t < n) (hu : u < n) :
    turns.count t ≤ turns.count u + 1 := by
  rw [h.count ht, h.count hu]
  split <;> omega

theorem countP_le_of_index {p : α → Bool} {l : List α} {b : ℕ}
    (h : ∀ k x, l[k]? = some x → p x = true → k < b) : l.countP p ≤ b := by
  have hdrop : (l.drop b).countP p = 0 := by
    rw [List.countP_eq_zero]
    intro x hx hpx
    obtain ⟨j, hj⟩ := List.mem_iff_getElem?.mp hx
    rw [List.getElem?_drop] at hj
    exact absurd (h _ _ hj hpx) (by omega)
  calc l.countP p = (l.take b ++ l.drop b).countP p := by rw [List.take_append_drop]
    _ = (l.take b).countP p := by rw [List.countP_append, hdrop, Nat.add_zero]
    _ ≤ (l.take b).length := List.countP_le_length
    _ ≤ b := List.length_take_le b l

/-- One party changes. -/
theorem sum_update_add [Fintype ι] [DecidableEq ι] (f : ι → α) (i : ι) (x : α) (g : α → ℕ) :
    ∑ j, g (Function.update f i x j) + g (f i) = ∑ j, g (f j) + g x := by
  have hrest : ∑ j ∈ Finset.univ.erase i, g (Function.update f i x j)
      = ∑ j ∈ Finset.univ.erase i, g (f j) :=
    Finset.sum_congr rfl fun j hj => by
      rw [Function.update_of_ne (Finset.ne_of_mem_erase hj)]
  rw [← Finset.add_sum_erase _ _ (Finset.mem_univ i), hrest, Function.update_self,
    ← Finset.add_sum_erase _ (fun j => g (f j)) (Finset.mem_univ i)]
  omega

end Foundation.Rotation
