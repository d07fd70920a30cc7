import NexusCore.Foundation.KeyedTable

/-!
# Tables with room for so many keys

A table that is full takes a request only for a key that it has already; a request for another
key is refused, and the table stays as it is.

* `keys_putAll`: the keys of a table that was empty are the first ones that were requested;
* `entry_putAll`: the entry of such a key is the latest one requested for it, also when that
  came after the table was full.
-/

namespace Foundation.KeyedTable

variable {α K : Type*} [DecidableEq K] (key : α → K)

/-- A request to a table with room for `room` keys. -/
def put (room : ℕ) (l : List α) (a : α) : List α :=
  if key a ∈ l.map key ∨ l.length < room then upsert key l a else l

/-- The requests one after the other, from the empty table. -/
def putAll (room : ℕ) (as : List α) : List α := as.foldl (put key room) []

variable {key} {room : ℕ} {l as : List α} {a : α} {k : K}

theorem putAll_concat (room : ℕ) (as : List α) (a : α) :
    putAll key room (as ++ [a]) = put key room (putAll key room as) a :=
  List.foldl_concat _ _ _ _

theorem mem_firstKeys : k ∈ firstKeys key as ↔ k ∈ as.map key := List.mem_eraseDups

/-- What a request does to the keys. -/
theorem keys_put (key : α → K) (room : ℕ) (l : List α) (a : α) :
    (put key room l a).map key
      = l.map key ++ if key a ∈ l.map key ∨ room ≤ l.length then [] else [key a] := by
  rw [put]
  by_cases hmem : key a ∈ l.map key
  · rw [if_pos (Or.inl hmem), keys_upsert, if_pos hmem, if_pos (Or.inl hmem)]
  · by_cases hroom : l.length < room
    · rw [if_pos (Or.inr hroom), keys_upsert, if_neg hmem,
        if_neg (not_or.mpr ⟨hmem, Nat.not_le.mpr hroom⟩)]
    · rw [if_neg (not_or.mpr ⟨hmem, hroom⟩), if_pos (Or.inr (Nat.not_lt.mp hroom)),
        List.append_nil]

/-- **The keys** are the first ones that were requested. -/
theorem keys_putAll (key : α → K) (room : ℕ) (as : List α) :
    (putAll key room as).map key = (firstKeys key as).take room := by
  induction as using List.reverseRecOn with
  | nil => exact List.take_nil.symm
  | append_singleton as a ih =>
      have hlen : (putAll key room as).length = min room (firstKeys key as).length := by
        rw [← List.length_map key, ih, List.length_take]
      rw [putAll_concat, keys_put, ih, firstKeys_concat, List.take_append, hlen]
      congr 1
      by_cases hroom : room ≤ (firstKeys key as).length
      · rw [if_pos (Or.inr (Nat.min_eq_left hroom).ge), Nat.sub_eq_zero_of_le hroom,
          List.take_zero]
      · have hall : (firstKeys key as).take room = firstKeys key as :=
          List.take_of_length_le (Nat.le_of_not_le hroom)
        have hmin : ¬ room ≤ min room (firstKeys key as).length := by omega
        have hone : 1 ≤ room - (firstKeys key as).length := by omega
        rw [hall]
        simp only [hmin, or_false, mem_firstKeys]
        split
        · exact List.take_nil.symm
        · exact (List.take_of_length_le hone).symm

/-- The entry of a key after a request. -/
theorem entry_put (key : α → K) (room : ℕ) (l : List α) (a : α) (k : K) :
    entry key (put key room l a) k
      = if key a = k ∧ (k ∈ l.map key ∨ l.length < room) then some a else entry key l k := by
  rw [put]
  by_cases htake : key a ∈ l.map key ∨ l.length < room
  · rw [if_pos htake, entry_upsert]
    by_cases hk : key a = k
    · rw [if_pos hk, if_pos ⟨hk, hk ▸ htake⟩]
    · rw [if_neg hk, if_neg fun h => hk h.1]
  · have hnot : ¬ (key a = k ∧ (k ∈ l.map key ∨ l.length < room)) := by
      rintro ⟨rfl, h⟩
      exact htake h
    rw [if_neg htake, if_neg hnot]

theorem entry_of_not_mem (h : k ∉ l.map key) : entry key l k = none :=
  entry_eq_none fun _ hx hkey => h (List.mem_map.mpr ⟨_, hx, hkey⟩)

/-- **The entries**: a key that has got in has the latest one that was requested for it. -/
theorem entry_putAll (key : α → K) (room : ℕ) (as : List α) (k : K) :
    entry key (putAll key room as) k
      = if k ∈ (firstKeys key as).take room then latest key as k else none := by
  induction as using List.reverseRecOn with
  | nil =>
      rw [firstKeys, List.map_nil, List.eraseDups_nil, List.take_nil, if_neg List.not_mem_nil]
      rfl
  | append_singleton as a ih =>
      have hkeys := keys_putAll key room (as ++ [a])
      by_cases hmem : k ∈ (firstKeys key (as ++ [a])).take room
      · rw [if_pos hmem, latest_concat]
        rw [← hkeys, putAll_concat, keys_put] at hmem
        rw [putAll_concat, entry_put]
        by_cases hk : key a = k
        · subst hk
          -- the key got in before, or gets in now
          have htake : key a ∈ (putAll key room as).map key
              ∨ (putAll key room as).length < room := by
            rcases List.mem_append.mp hmem with hold | hnew
            · exact Or.inl hold
            · split at hnew
              · cases hnew
              · next hnot => exact Or.inr (Nat.not_le.mp (not_or.mp hnot).2)
          rw [if_pos ⟨rfl, htake⟩, if_pos rfl]
        · have hold : k ∈ (putAll key room as).map key := by
            rcases List.mem_append.mp hmem with hold | hnew
            · exact hold
            · split at hnew
              · cases hnew
              · exact absurd (List.mem_singleton.mp hnew).symm hk
          rw [if_neg fun h => hk h.1, if_neg hk, ih, ← keys_putAll, if_pos hold]
      · rw [if_neg hmem]
        rw [← hkeys] at hmem
        exact entry_of_not_mem hmem

/-! ### One request and one removal -/

theorem entry_isSome_iff : (entry key l k).isSome ↔ k ∈ l.map key := by
  constructor
  · intro h
    obtain ⟨a, ha⟩ := Option.isSome_iff_exists.mp h
    exact List.mem_map.mpr ⟨a, List.mem_of_find?_eq_some ha, of_decide_eq_true
      (List.find?_some (p := fun a => decide (key a = k)) ha)⟩
  · intro h
    by_contra hnone
    rw [Bool.not_eq_true, Option.isSome_eq_false_iff, Option.isNone_iff_eq_none] at hnone
    obtain ⟨a, ha, hk⟩ := List.mem_map.mp h
    exact List.find?_eq_none.mp hnone a ha (decide_eq_true hk)

theorem distinct_put (h : Distinct key l) (room : ℕ) (a : α) : Distinct key (put key room l a) := by
  rw [put]
  split
  · exact distinct_upsert h a
  · exact h

theorem length_put (key : α → K) (room : ℕ) (l : List α) (a : α) :
    (put key room l a).length
      = l.length + if key a ∈ l.map key ∨ room ≤ l.length then 0 else 1 := by
  rw [← List.length_map key, keys_put, List.length_append, List.length_map]
  split <;> rfl

theorem length_put_le (h : l.length ≤ room) (a : α) : (put key room l a).length ≤ room := by
  rw [length_put]
  split <;> omega

/-- The table without a key. -/
def remove (key : α → K) (l : List α) (k : K) : List α := l.filter fun a => decide (key a ≠ k)

theorem distinct_remove (h : Distinct key l) (k : K) : Distinct key (remove key l k) :=
  h.sublist (List.filter_sublist.map key)

theorem length_remove_le (key : α → K) (l : List α) (k : K) : (remove key l k).length ≤ l.length :=
  List.length_filter_le _ _

/-- The entry of a key after a removal. -/
theorem entry_remove (key : α → K) (l : List α) (k k' : K) :
    entry key (remove key l k) k' = if k' = k then none else entry key l k' := by
  by_cases hk : k' = k
  · rw [if_pos hk]
    refine entry_eq_none fun x hx hkey => ?_
    exact of_decide_eq_true (List.mem_filter.mp hx).2 (hkey.trans hk)
  · rw [if_neg hk, remove, entry, entry, List.find?_filter]
    congr 1
    funext a
    by_cases hkey : key a = k'
    · simp [hkey, hk]
    · simp [hkey]

/-- Removing a key that is there once takes one entry. -/
theorem length_remove (h : Distinct key l) (hmem : k ∈ l.map key) :
    (remove key l k).length + 1 = l.length := by
  have hone : l.countP (fun a => decide (key a = k)) = 1 := by
    have hcount := List.count_eq_one_of_mem h hmem
    rw [List.count_eq_countP, List.countP_map] at hcount
    rw [← hcount]
    apply List.countP_congr
    intro a _
    simp
  have hsplit := List.length_eq_countP_add_countP (fun a => decide (key a = k)) (l := l)
  rw [remove, ← List.countP_eq_length_filter, hsplit, hone, Nat.add_comm]
  congr 1
  apply List.countP_congr
  intro a _
  simp

end Foundation.KeyedTable
