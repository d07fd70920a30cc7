import Mathlib

/-!
# Tables kept in a list

Every entry of a list has a key.  A request `upsert` puts its entry in the place of the first
one with the same key, or at the end when there is none; `replay` is a sequence of requests.

`upsert_cases` says what one request does, and everything else follows from it:

* `distinct_replay`: keys that are distinct stay so;
* `entry_replay`: the entry of a key is the latest one requested for it;
* `getElem?_replay`: an entry stays where it is, replaced by the latest one requested since;
* `keys_replay`: new keys come at the end, in the order of their first requests;
* `replay_congr`: the result depends on the latest requests and on that order only;
* `replay_eq_overwrite`: requests with the keys of a table, in its order, overwrite it.
-/

namespace Foundation.KeyedTable

variable {α K : Type*} [DecidableEq K] (key : α → K)

/-- No key is there twice. -/
def Distinct (l : List α) : Prop := (l.map key).Nodup

/-- The first entry of a key. -/
def entry (l : List α) (k : K) : Option α := l.find? fun a => key a = k

/-- In the place of the first entry with this key, or at the end. -/
def upsert (l : List α) (a : α) : List α :=
  match l.findIdx? fun b => key b = key a with
  | some i => l.set i a
  | none => l ++ [a]

/-- The requests one after the other. -/
def replay (l as : List α) : List α := as.foldl (upsert key) l

/-- The last of the requests for a key. -/
def latest (as : List α) (k : K) : Option α := (as.filter fun a => key a = k).getLast?

/-- The keys of the requests, in the order of their first ones. -/
def firstKeys (as : List α) : List K := (as.map key).eraseDups

/-- Those among them that a table does not have. -/
def newKeys (l as : List α) : List K := (firstKeys key as).filter fun k => k ∉ l.map key

variable {key} {l l' as as' : List α} {a b : α} {k : K} {i : ℕ}

/-! ### One request -/

/-- **What a request does**: it replaces the first entry with its key, or appends. -/
theorem upsert_cases (key : α → K) (l : List α) (a : α) :
    (∃ before b after, l = before ++ b :: after ∧ (∀ x ∈ before, key x ≠ key a) ∧ key b = key a ∧
        upsert key l a = before ++ a :: after) ∨
      (∀ x ∈ l, key x ≠ key a) ∧ upsert key l a = l ++ [a] := by
  rw [upsert]
  cases hfind : l.findIdx? fun b => decide (key b = key a) with
  | none =>
      right
      refine ⟨?_, rfl⟩
      intro x hx
      have hnot := List.findIdx?_eq_none_iff.mp hfind x hx
      exact of_decide_eq_false hnot
  | some i =>
      left
      obtain ⟨hi, hhit, hmiss⟩ := List.findIdx?_eq_some_iff_getElem.mp hfind
      refine ⟨l.take i, l[i], l.drop (i + 1), ?_, ?_, of_decide_eq_true hhit, ?_⟩
      · rw [List.getElem_cons_drop, List.take_append_drop]
      · intro x hx
        obtain ⟨j, hj, rfl⟩ := List.mem_take_iff_getElem.mp hx
        have hnot := hmiss j (by omega)
        simpa using hnot
      · exact List.set_eq_take_append_cons_drop.trans (if_pos hi)

theorem keys_upsert (key : α → K) (l : List α) (a : α) :
    (upsert key l a).map key
      = l.map key ++ if key a ∈ l.map key then [] else [key a] := by
  rcases upsert_cases key l a with ⟨before, b, after, rfl, -, hb, hup⟩ | ⟨hnew, hup⟩
  · have hmem : key a ∈ (before ++ b :: after).map key :=
      List.mem_map.mpr ⟨b, List.mem_append_right _ List.mem_cons_self, hb⟩
    rw [hup, if_pos hmem, List.append_nil, List.map_append, List.map_append, List.map_cons,
      List.map_cons, hb]
  · have hmem : key a ∉ l.map key := by
      intro hin
      obtain ⟨x, hx, hkey⟩ := List.mem_map.mp hin
      exact hnew x hx hkey
    rw [hup, if_neg hmem, List.map_append, List.map_singleton]

theorem distinct_upsert (h : Distinct key l) (a : α) : Distinct key (upsert key l a) := by
  rw [Distinct, keys_upsert]
  by_cases hmem : key a ∈ l.map key
  · rw [if_pos hmem, List.append_nil]
    exact h
  · rw [if_neg hmem]
    exact List.nodup_append.mpr ⟨h, List.nodup_singleton _, fun x hx y hy hxy => hmem (by
      rwa [← List.mem_singleton.mp hy, ← hxy])⟩

theorem entry_append (l l' : List α) (k : K) :
    entry key (l ++ l') k = (entry key l k).or (entry key l' k) := List.find?_append

theorem entry_cons (a : α) (l : List α) (k : K) :
    entry key (a :: l) k = if key a = k then some a else entry key l k := by
  rw [entry, List.find?_cons]
  by_cases hk : key a = k
  · rw [if_pos hk, decide_eq_true hk]
  · rw [if_neg hk, decide_eq_false hk]
    rfl

theorem entry_eq_none (h : ∀ x ∈ l, key x ≠ k) : entry key l k = none :=
  List.find?_eq_none.mpr fun x hx => by simpa using h x hx

/-- The entry of a key after a request. -/
theorem entry_upsert (key : α → K) (l : List α) (a : α) (k : K) :
    entry key (upsert key l a) k = if key a = k then some a else entry key l k := by
  rcases upsert_cases key l a with ⟨before, b, after, rfl, hbefore, hb, hup⟩ | ⟨hnew, hup⟩
  · rw [hup, entry_append, entry_append, entry_cons, entry_cons, hb]
    by_cases hk : key a = k
    · rw [if_pos hk, if_pos hk, entry_eq_none (hk ▸ hbefore), Option.none_or]
    · rw [if_neg hk, if_neg hk, if_neg hk]
  · rw [hup, entry_append, entry_cons]
    by_cases hk : key a = k
    · rw [if_pos hk, if_pos hk, entry_eq_none (hk ▸ hnew), Option.none_or]
    · rw [if_neg hk, if_neg hk]
      exact Option.or_none

theorem map_replace_eq_self (h : ∀ x ∈ l, key x ≠ key a) :
    l.map (fun b => if key b = key a then a else b) = l := by
  conv_rhs => rw [← List.map_id l]
  exact List.map_congr_left fun x hx => if_neg (h x hx)

/-- With distinct keys, a request replaces every entry with its key. -/
theorem upsert_eq_map (h : Distinct key l) (a : α) :
    upsert key l a = l.map (fun b => if key b = key a then a else b)
      ++ if key a ∈ l.map key then [] else [a] := by
  rcases upsert_cases key l a with ⟨before, c, after, rfl, hbefore, hc, hup⟩ | ⟨hnew, hup⟩
  · have hmem : key a ∈ (before ++ c :: after).map key :=
      List.mem_map.mpr ⟨c, List.mem_append_right _ List.mem_cons_self, hc⟩
    have hafter : ∀ x ∈ after, key x ≠ key a := by
      intro x hx hkey
      rw [Distinct, List.map_append, List.map_cons, List.nodup_append] at h
      exact (List.nodup_cons.mp h.2.1).1 (List.mem_map.mpr ⟨x, hx, hkey.trans hc.symm⟩)
    rw [hup, if_pos hmem, List.append_nil, List.map_append, List.map_cons,
      map_replace_eq_self hbefore, map_replace_eq_self hafter, if_pos hc]
  · have hmem : key a ∉ l.map key := by
      intro hin
      obtain ⟨x, hx, hkey⟩ := List.mem_map.mp hin
      exact hnew x hx hkey
    rw [hup, if_neg hmem, map_replace_eq_self hnew]

/-- The entry at a position after a request. -/
theorem getElem?_upsert (h : Distinct key l) (a : α) (hb : l[i]? = some b) :
    (upsert key l a)[i]? = some (if key b = key a then a else b) := by
  have hi : i < (l.map fun b => if key b = key a then a else b).length := by
    rw [List.length_map]
    exact (List.getElem?_eq_some_iff.mp hb).1
  rw [upsert_eq_map h, List.getElem?_append_left hi, List.getElem?_map, hb]
  rfl

/-! ### Sequences of requests -/

theorem replay_concat (key : α → K) (l as : List α) (a : α) :
    replay key l (as ++ [a]) = upsert key (replay key l as) a :=
  List.foldl_concat _ _ _ _

theorem latest_concat (as : List α) (a : α) (k : K) :
    latest key (as ++ [a]) k = if key a = k then some a else latest key as k := by
  rw [latest, List.filter_append]
  by_cases hk : key a = k
  · rw [if_pos hk, List.filter_cons_of_pos (by simpa using hk), List.filter_nil,
      List.getLast?_concat]
  · rw [if_neg hk, List.filter_cons_of_neg (by simpa using hk), List.filter_nil,
      List.append_nil, latest]

theorem distinct_replay (h : Distinct key l) (as : List α) : Distinct key (replay key l as) := by
  induction as using List.reverseRecOn with
  | nil => exact h
  | append_singleton as a ih =>
      rw [replay_concat]
      exact distinct_upsert ih a

/-- **Last write wins.** -/
theorem entry_replay (key : α → K) (l as : List α) (k : K) :
    entry key (replay key l as) k = (latest key as k).or (entry key l k) := by
  induction as using List.reverseRecOn with
  | nil => rfl
  | append_singleton as a ih =>
      rw [replay_concat, entry_upsert, latest_concat, ih]
      split <;> rfl

theorem key_latest (h : latest key as k = some a) : key a = k := by
  have hmem := List.mem_of_getLast? h
  exact of_decide_eq_true (List.mem_filter.mp hmem).2

/-- **Positions are kept.** -/
theorem getElem?_replay (h : Distinct key l) (as : List α) (hb : l[i]? = some b) :
    (replay key l as)[i]? = some ((latest key as (key b)).getD b) := by
  induction as using List.reverseRecOn with
  | nil => exact hb
  | append_singleton as a ih =>
      have hkey : key ((latest key as (key b)).getD b) = key b := by
        cases hlatest : latest key as (key b) with
        | none => rfl
        | some c => exact key_latest hlatest
      rw [replay_concat, getElem?_upsert (distinct_replay h as) a ih, latest_concat, hkey]
      by_cases hk : key a = key b
      · rw [if_pos hk, if_pos hk.symm]
        rfl
      · rw [if_neg hk, if_neg (Ne.symm hk)]

theorem firstKeys_concat (as : List α) (a : α) :
    firstKeys key (as ++ [a])
      = firstKeys key as ++ if key a ∈ as.map key then [] else [key a] := by
  rw [firstKeys, List.map_append, List.map_singleton, List.eraseDups_append, firstKeys]
  congr 1
  by_cases hmem : key a ∈ as.map key
  · rw [if_pos hmem, List.removeAll, List.filter_cons_of_neg (by simpa using hmem)]
    rfl
  · rw [if_neg hmem, List.removeAll, List.filter_cons_of_pos (by simpa using hmem)]
    rfl

/-- **New keys come at the end**, in the order of their first requests. -/
theorem keys_replay (key : α → K) (l as : List α) :
    (replay key l as).map key = l.map key ++ newKeys key l as := by
  induction as using List.reverseRecOn with
  | nil => exact (List.append_nil _).symm
  | append_singleton as a ih =>
      have hmem : key a ∈ (replay key l as).map key ↔ key a ∈ l.map key ∨ key a ∈ as.map key := by
        rw [ih, List.mem_append, newKeys, List.mem_filter, firstKeys, List.mem_eraseDups]
        simp only [decide_eq_true_eq]
        tauto
      rw [replay_concat, keys_upsert, newKeys, firstKeys_concat, List.filter_append,
        ← List.append_assoc, ← newKeys, ← ih]
      congr 1
      by_cases hold : key a ∈ l.map key
      · rw [if_pos (hmem.mpr (Or.inl hold))]
        split
        · rfl
        · rw [List.filter_cons_of_neg (by simpa using hold), List.filter_nil]
      · by_cases hseen : key a ∈ as.map key
        · rw [if_pos (hmem.mpr (Or.inr hseen)), if_pos hseen]
          rfl
        · rw [if_neg (fun hin => (hmem.mp hin).elim hold hseen), if_neg hseen,
            List.filter_cons_of_pos (by simpa using hold), List.filter_nil]

/-! ### What the result depends on -/

theorem entry_of_mem (h : Distinct key l) (ha : a ∈ l) : entry key l (key a) = some a := by
  induction l with
  | nil => cases ha
  | cons b l ih =>
      have hcons := List.nodup_cons.mp h
      rw [entry_cons]
      rcases List.mem_cons.mp ha with rfl | hin
      · exact if_pos rfl
      · have hne : key b ≠ key a := fun hkey =>
          hcons.1 (hkey ▸ List.mem_map_of_mem hin)
        rw [if_neg hne]
        exact ih hcons.2 hin

/-- Tables with the same keys in the same order, and the same entries for them. -/
theorem ext_of_keys (h : Distinct key l) (h' : Distinct key l') (hkeys : l.map key = l'.map key)
    (hentry : ∀ k, entry key l k = entry key l' k) : l = l' := by
  have hsome : ∀ {l : List α}, Distinct key l → l.map some = (l.map key).map (entry key l) := by
    intro l h
    rw [List.map_map]
    exact List.map_congr_left fun a ha => (entry_of_mem h ha).symm
  have hfun : entry key l = entry key l' := funext hentry
  have heq : l.map some = l'.map some := by
    rw [hsome h, hsome h', hkeys, hfun]
  exact List.map_injective_iff.mpr (Option.some_injective α) heq

/-- **Requests for different keys commute**, but for the order of the first ones. -/
theorem replay_congr (h : Distinct key l) (hlatest : ∀ k, latest key as k = latest key as' k)
    (hfirst : firstKeys key as = firstKeys key as') : replay key l as = replay key l as' := by
  refine ext_of_keys (distinct_replay h as) (distinct_replay h as') ?_ ?_
  · rw [keys_replay, keys_replay, newKeys, newKeys, hfirst]
  · intro k
    rw [entry_replay, entry_replay, hlatest k]

/-! ### Overwriting -/

theorem upsert_append (hl : ∀ x ∈ l, key x ≠ key a) (l' : List α) :
    upsert key (l ++ l') a = l ++ upsert key l' a := by
  have hnone : l.findIdx? (fun b => decide (key b = key a)) = none :=
    List.findIdx?_eq_none_iff.mpr fun x hx => decide_eq_false (hl x hx)
  rw [upsert, upsert, List.findIdx?_append, hnone, Option.none_or]
  cases l'.findIdx? fun b => decide (key b = key a) with
  | none => exact List.append_assoc _ _ _
  | some i =>
      show (l ++ l').set (i + l.length) a = l ++ l'.set i a
      rw [List.set_append_right _ _ (Nat.le_add_left _ _), Nat.add_sub_cancel]

theorem upsert_cons_self (hb : key b = key a) (l : List α) : upsert key (b :: l) a = a :: l := by
  rw [upsert, List.findIdx?_cons, decide_eq_true hb]
  rfl

/-- After the entries `done`, which have other keys, the requests overwrite the rest. -/
theorem replay_append_eq_overwrite (done : List α) (hdone : Distinct key (done ++ as))
    (hsame : ∀ (i : ℕ) a b, as[i]? = some a → l[i]? = some b → key a = key b) :
    replay key (done ++ l) as = done ++ as ++ l.drop as.length := by
  induction as generalizing done l with
  | nil => rw [List.append_nil, List.length_nil, List.drop_zero]; rfl
  | cons a as ih =>
      have hfresh : ∀ x ∈ done, key x ≠ key a := by
        intro x hx hkey
        rw [Distinct, List.map_append, List.nodup_append] at hdone
        exact hdone.2.2 _ (List.mem_map_of_mem hx) _ (List.mem_map_of_mem List.mem_cons_self) hkey
      have hdone' : Distinct key (done ++ [a] ++ as) := by
        rwa [List.append_assoc, List.singleton_append]
      have hup : replay key (done ++ l) (a :: as) = replay key (done ++ upsert key l a) as := by
        rw [replay, List.foldl_cons, upsert_append hfresh, replay]
      rw [hup]
      cases l with
      | nil =>
          have hrec := ih (l := []) (done ++ [a]) hdone' (by simp)
          rw [List.append_nil, List.drop_nil] at hrec
          rw [show upsert key [] a = [a] from rfl, hrec, List.drop_nil, List.append_assoc done]
          rfl
      | cons b l =>
          have hb : key b = key a := (hsame 0 a b rfl rfl).symm
          have hrec := ih (l := l) (done ++ [a]) hdone' fun i => hsame (i + 1)
          rw [upsert_cons_self hb, List.length_cons, List.drop_succ_cons,
            show done ++ a :: l = done ++ [a] ++ l from (List.append_assoc done [a] l).symm, hrec,
            List.append_assoc done [a]]
          rfl

/-- **A table with the same keys is overwritten.**  Where both lists have an entry, these have
the same key. -/
theorem replay_eq_overwrite (has : Distinct key as)
    (hsame : ∀ (i : ℕ) a b, as[i]? = some a → l[i]? = some b → key a = key b) :
    replay key l as = as ++ l.drop as.length :=
  replay_append_eq_overwrite [] has hsame

end Foundation.KeyedTable
