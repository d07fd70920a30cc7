import Mathlib

/-!
# Logs that drop their oldest entries when full

A log takes one entry after the other.  When it has reached its capacity, a part of it, from
the oldest entry on, is dropped before the next entry comes in.

`Keeps` is the invariant: the log is the last part of all that was pushed, all of it as long
as that fits, and never shorter than a drop leaves it once it did not.
-/

namespace Foundation.CappedLog

variable {α : Type*} {cap : ℕ} {surplus : ℕ → ℕ} {log past : List α}

/-- A full log of some length drops as many entries as `surplus` says. -/
def push (cap : ℕ) (surplus : ℕ → ℕ) (log : List α) (a : α) : List α :=
  (if cap ≤ log.length then log.drop (surplus log.length) else log) ++ [a]

/-- What a log keeps of all that was pushed. -/
structure Keeps (cap : ℕ) (surplus : ℕ → ℕ) (log past : List α) : Prop where
  suffix : log <:+ past
  whole : past.length ≤ cap → log = past
  least : cap < past.length → cap - surplus cap + 1 ≤ log.length
  most : log.length ≤ cap

theorem Keeps.nil (cap : ℕ) (surplus : ℕ → ℕ) : Keeps cap surplus ([] : List α) [] where
  suffix := List.suffix_refl _
  whole := fun _ => rfl
  least := fun h => absurd h (Nat.not_lt_zero _)
  most := Nat.zero_le _

theorem push_of_lt (h : log.length < cap) (a : α) : push cap surplus log a = log ++ [a] := by
  rw [push, if_neg (Nat.not_le.mpr h)]

theorem push_of_le (h : cap ≤ log.length) (a : α) :
    push cap surplus log a = log.drop (surplus log.length) ++ [a] := by
  rw [push, if_pos h]

/-- **A push keeps the invariant**, if a full log drops anything at all. -/
theorem Keeps.push (h : Keeps cap surplus log past) (hcap : 0 < cap) (hdrop : 0 < surplus cap)
    (a : α) : Keeps cap surplus (push cap surplus log a) (past ++ [a]) := by
  have hle : log.length ≤ past.length := h.suffix.length_le
  rcases Nat.lt_or_ge log.length cap with hroom | hfull
  · rw [push_of_lt hroom]
    refine ⟨?_, ?_, ?_, ?_⟩
    · exact List.suffix_append_self_iff.mpr h.suffix
    · intro hfits
      rw [List.length_append, List.length_singleton] at hfits
      rw [h.whole (by omega)]
    · intro hover
      rw [List.length_append, List.length_singleton] at hover ⊢
      rcases Nat.lt_or_ge cap past.length with hpast | hpast
      · have hleast := h.least hpast
        omega
      · -- the log would hold all of the past, and be full
        rw [h.whole hpast] at hroom
        omega
    · rw [List.length_append, List.length_singleton]
      omega
  · have hlen : log.length = cap := Nat.le_antisymm h.most hfull
    rw [push_of_le hfull, hlen]
    have hnew : (log.drop (surplus cap) ++ [a]).length = cap - surplus cap + 1 := by
      rw [List.length_append, List.length_drop, List.length_singleton, hlen]
    refine ⟨?_, ?_, ?_, ?_⟩
    · exact List.suffix_append_self_iff.mpr ((List.drop_suffix (surplus cap) log).trans h.suffix)
    · intro hfits
      rw [List.length_append, List.length_singleton] at hfits
      omega
    · intro _
      rw [hnew]
    · rw [hnew]
      omega

end Foundation.CappedLog
