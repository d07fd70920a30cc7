import Mathlib

/-!
# Strings written over parts of a string

`overwrite l pos bs` replaces the entries of `l` from `pos` on by those of `bs`; `overlay`
writes several strings one after another.  What stands in a string is said by `Shows`: the
entries from `pos` on are those of `bs`.

* `shows_overwrite` and `Shows.overwrite`: a write shows itself and keeps what stands apart;
* `shows_overlay`: strings written apart from each other all stand at the end;
* `sum_length_le`: strings that lie apart inside a string are together no longer than it.
-/

namespace Foundation.Overlay

variable {α : Type*}

/-- Replace the entries from `pos` on. -/
def overwrite (l : List α) (pos : ℕ) (bs : List α) : List α :=
  l.take pos ++ (bs ++ l.drop (pos + bs.length))

/-- Write several strings, the first one first. -/
def overlay : List α → List (ℕ × List α) → List α
  | l, [] => l
  | l, w :: ws => overlay (overwrite l w.1 w.2) ws

/-- The string `bs` stands in `l` from `pos` on. -/
def Shows (l : List α) (pos : ℕ) (bs : List α) : Prop :=
  ∀ i (hi : i < bs.length), l[pos + i]? = some bs[i]

/-- Two ranges, given by start and length, do not meet. -/
def Apart (p q : ℕ × ℕ) : Prop := p.1 + p.2 ≤ q.1 ∨ q.1 + q.2 ≤ p.1

instance : DecidableRel Apart := fun _ _ => inferInstanceAs (Decidable (_ ∨ _))

/-- The range of a write. -/
def extent (w : ℕ × List α) : ℕ × ℕ := (w.1, w.2.length)

/-! ### One write -/

@[simp] theorem overwrite_length {l bs : List α} {pos : ℕ} (h : pos + bs.length ≤ l.length) :
    (overwrite l pos bs).length = l.length := by
  simp only [overwrite, List.length_append, List.length_take, List.length_drop]
  omega

theorem getElem?_overwrite {l bs : List α} {pos : ℕ} (h : pos + bs.length ≤ l.length) (x : ℕ) :
    (overwrite l pos bs)[x]?
      = if x < pos then l[x]? else if x < pos + bs.length then bs[x - pos]? else l[x]? := by
  have htake : (l.take pos).length = pos := by
    rw [List.length_take]
    omega
  rw [overwrite]
  by_cases hlo : x < pos
  · rw [if_pos hlo, List.getElem?_append_left (by omega), List.getElem?_take_of_lt hlo]
  · rw [if_neg hlo, List.getElem?_append_right (by omega), htake]
    by_cases hhi : x < pos + bs.length
    · rw [if_pos hhi, List.getElem?_append_left (by omega)]
    · rw [if_neg hhi, List.getElem?_append_right (by omega), List.getElem?_drop]
      congr 1
      omega

/-- **A write shows itself.** -/
theorem shows_overwrite {l bs : List α} {pos : ℕ} (h : pos + bs.length ≤ l.length) :
    Shows (overwrite l pos bs) pos bs := by
  intro i hi
  rw [getElem?_overwrite h, if_neg (by omega), if_pos (by omega), Nat.add_sub_cancel_left,
    List.getElem?_eq_getElem hi]

/-- **A write keeps what stands apart from it.** -/
theorem Shows.overwrite {l bs cs : List α} {pos p : ℕ} (h : Shows l p cs)
    (hin : pos + bs.length ≤ l.length) (hd : Apart (pos, bs.length) (p, cs.length)) :
    Shows (overwrite l pos bs) p cs := by
  intro i hi
  rw [← h i hi, getElem?_overwrite hin]
  rcases hd with hd | hd
  · rw [if_neg (by omega), if_neg (by omega)]
  · rw [if_pos (by omega)]

/-- A second write right behind the first one makes one write of the two. -/
theorem overwrite_overwrite {l bs cs : List α} {pos : ℕ}
    (h : pos + (bs.length + cs.length) ≤ l.length) :
    overwrite (overwrite l pos bs) (pos + bs.length) cs = overwrite l pos (bs ++ cs) := by
  have h₁ : pos + bs.length ≤ l.length := by omega
  have h₂ : pos + bs.length + cs.length ≤ (overwrite l pos bs).length := by
    rw [overwrite_length h₁]
    omega
  have h₃ : pos + (bs ++ cs).length ≤ l.length := by
    rw [List.length_append]
    exact h
  apply List.ext_getElem?
  intro x
  rw [getElem?_overwrite h₂, getElem?_overwrite h₁, getElem?_overwrite h₃, List.length_append]
  by_cases hlo : x < pos
  · rw [if_pos (by omega), if_pos hlo, if_pos hlo]
  by_cases hmid : x < pos + bs.length
  · rw [if_pos hmid, if_neg hlo, if_pos hmid, if_neg hlo, if_pos (by omega),
      List.getElem?_append_left (by omega)]
  by_cases hhi : x < pos + bs.length + cs.length
  · rw [if_neg hmid, if_pos hhi, if_neg hlo, if_pos (by omega),
      List.getElem?_append_right (by omega)]
    congr 1
    omega
  · rw [if_neg hmid, if_neg hhi, if_neg hlo, if_neg hmid, if_neg hlo, if_neg (by omega)]

/-! ### Reading what stands in a string -/

/-- What stands in a string is a part of it. -/
theorem Shows.append {l bs : List α} {pos : ℕ} (h : Shows l pos bs)
    (hin : pos + bs.length ≤ l.length) :
    l = l.take pos ++ (bs ++ l.drop (pos + bs.length)) := by
  apply List.ext_getElem?
  intro x
  have hover := getElem?_overwrite hin x
  rw [Overlay.overwrite] at hover
  rw [hover]
  by_cases hlo : x < pos
  · rw [if_pos hlo]
  · rw [if_neg hlo]
    by_cases hhi : x < pos + bs.length
    · have hx := h (x - pos) (by omega)
      rw [Nat.add_sub_cancel' (Nat.not_lt.mp hlo)] at hx
      rw [if_pos hhi, hx, List.getElem?_eq_getElem (by omega)]
    · rw [if_neg hhi]

/-- The second part of what stands in a string. -/
theorem Shows.right {l bs cs : List α} {pos : ℕ} (h : Shows l pos (bs ++ cs)) :
    Shows l (pos + bs.length) cs := by
  intro i hi
  have hget := h (bs.length + i) (by rw [List.length_append]; omega)
  rw [← Nat.add_assoc] at hget
  rw [hget, List.getElem_append_right (Nat.le_add_right _ _)]
  simp only [Nat.add_sub_cancel_left]

/-- What stands behind a dropped prefix. -/
theorem Shows.drop {l bs : List α} {k pos : ℕ} (h : Shows l (pos + k) bs) :
    Shows (l.drop k) pos bs := by
  intro i hi
  rw [List.getElem?_drop, ← h i hi]
  congr 1
  omega

/-! ### Several writes -/

/-- Every write lies inside the string. -/
def InRange (n : ℕ) (ws : List (ℕ × List α)) : Prop := ∀ w ∈ ws, w.1 + w.2.length ≤ n

theorem overlay_length {l : List α} {ws : List (ℕ × List α)} (h : InRange l.length ws) :
    (overlay l ws).length = l.length := by
  induction ws generalizing l with
  | nil => rfl
  | cons w ws ih =>
      have hw := overwrite_length (h w (by simp))
      rw [overlay, ih (by rw [hw]; exact fun v hv => h v (by simp [hv])), hw]

/-- Later writes keep what stands apart from all of them. -/
theorem Shows.overlay {l cs : List α} {p : ℕ} {ws : List (ℕ × List α)} (h : Shows l p cs)
    (hin : InRange l.length ws) (hd : ∀ w ∈ ws, Apart (extent w) (p, cs.length)) :
    Shows (overlay l ws) p cs := by
  induction ws generalizing l with
  | nil => exact h
  | cons w ws ih =>
      have hw := hin w (by simp)
      apply ih (h.overwrite hw (hd w (by simp)))
      · rw [overwrite_length hw]
        exact fun v hv => hin v (by simp [hv])
      · exact fun v hv => hd v (by simp [hv])

/-- **Strings written apart from each other all stand at the end.** -/
theorem shows_overlay {l : List α} {ws : List (ℕ × List α)} (hin : InRange l.length ws)
    (hd : ws.Pairwise fun v w => Apart (extent v) (extent w)) :
    ∀ w ∈ ws, Shows (overlay l ws) w.1 w.2 := by
  induction ws generalizing l with
  | nil => simp
  | cons v ws ih =>
      obtain ⟨hhead, htail⟩ := List.pairwise_cons.mp hd
      have hv := hin v (by simp)
      have hin' : InRange (Overlay.overwrite l v.1 v.2).length ws := by
        rw [overwrite_length hv]
        exact fun w hw => hin w (by simp [hw])
      intro w hw
      rcases List.mem_cons.mp hw with rfl | hw
      · exact (shows_overwrite hv).overlay hin' fun u hu => (hhead u hu).symm
      · exact ih hin' htail w hw

/-! ### Room -/

/-- The positions that ranges cover. -/
def covered (rs : List (ℕ × ℕ)) : Finset ℕ :=
  rs.foldr (fun r s => Finset.Ico r.1 (r.1 + r.2) ∪ s) ∅

theorem mem_covered {rs : List (ℕ × ℕ)} {x : ℕ} :
    x ∈ covered rs ↔ ∃ r ∈ rs, r.1 ≤ x ∧ x < r.1 + r.2 := by
  induction rs with
  | nil => simp [covered]
  | cons r rs ih =>
      have hcons : covered (r :: rs) = Finset.Ico r.1 (r.1 + r.2) ∪ covered rs := rfl
      rw [hcons, Finset.mem_union, Finset.mem_Ico, ih]
      simp

/-- Ranges apart from each other cover as many positions as they are long. -/
theorem card_covered {rs : List (ℕ × ℕ)} (hd : rs.Pairwise Apart) :
    (covered rs).card = (rs.map Prod.snd).sum := by
  induction rs with
  | nil => rfl
  | cons r rs ih =>
      obtain ⟨hhead, htail⟩ := List.pairwise_cons.mp hd
      have hdisj : Disjoint (Finset.Ico r.1 (r.1 + r.2)) (covered rs) := by
        rw [Finset.disjoint_left]
        intro x hx hx'
        obtain ⟨q, hq, hlo, hhi⟩ := mem_covered.mp hx'
        rw [Finset.mem_Ico] at hx
        rcases hhead q hq with hc | hc <;> omega
      show (Finset.Ico r.1 (r.1 + r.2) ∪ covered rs).card = ((r :: rs).map Prod.snd).sum
      rw [Finset.card_union_of_disjoint hdisj, ih htail, Nat.card_Ico, List.map_cons,
        List.sum_cons]
      omega

/-- **Ranges apart inside a string are together no longer than it.** -/
theorem sum_length_le {n : ℕ} {rs : List (ℕ × ℕ)} (hd : rs.Pairwise Apart)
    (hin : ∀ r ∈ rs, r.1 + r.2 ≤ n) : (rs.map Prod.snd).sum ≤ n := by
  rw [← card_covered hd, ← Finset.card_range n]
  apply Finset.card_le_card
  intro x hx
  obtain ⟨r, hr, -, hhi⟩ := mem_covered.mp hx
  exact Finset.mem_range.mpr (Nat.lt_of_lt_of_le hhi (hin r hr))

end Foundation.Overlay
