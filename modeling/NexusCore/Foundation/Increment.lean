import Mathlib

/-!
# Counters that are read and written back

Several parties increment counters, one for each key.  An increment is two steps: a party
reads the counter, and later it writes back what it saw, and one more.  Between the two
another party may read or write.

`Counters` is what matters of such a system: the stored numbers, the increments that have
read and not yet written, with what they saw, and how many have written.  `Exact` says that
nothing was lost and that the open increments of a key are at most one, an up-to-date one.

* `Exact.read` and `Exact.write`: increments that read alone stay exact;
* `Bounded` holds whatever the order of the steps is: no counter ever exceeds the number of
  its writes;
* `Exact.of_read` and `Exact.of_write` go backward: if a system is exact after a step, it was
  exact before, and a read was made alone.  So a loss is never made good;
* `Counters.begun_read` and `Counters.begun_write`: what has begun is written or open.
-/

namespace Foundation.Increment

variable {K : Type*}

/-- The counters of a system, its open increments, and how many were written. -/
structure Counters (K : Type*) where
  stored : K → ℕ
  reads : List (K × ℕ)
  written : K → ℕ

/-- An increment reads its counter. -/
def Counters.read (c : Counters K) (k : K) : Counters K :=
  { c with reads := c.reads ++ [(k, c.stored k)] }

/-- An increment between `before` and `after` writes: its counter is `v` then. -/
def Counters.write [DecidableEq K] (c : Counters K) (before after : List (K × ℕ)) (k : K)
    (v : ℕ) : Counters K :=
  { stored := Function.update c.stored k v
    reads := before ++ after
    written := Function.update c.written k (c.written k + 1) }

/-- No increment of the key is open. -/
def Counters.Idle (c : Counters K) (k : K) : Prop := k ∉ c.reads.map Prod.fst

/-- What any order of reads and writes keeps. -/
structure Bounded (c : Counters K) : Prop where
  stored_le : ∀ k, c.stored k ≤ c.written k
  seen_le : ∀ p ∈ c.reads, p.2 ≤ c.written p.1
  /-- what is seen and equals the number of writes is still stored -/
  current : ∀ p ∈ c.reads, p.2 = c.written p.1 → c.stored p.1 = p.2

/-- Nothing was lost, and nothing is about to be. -/
structure Exact (c : Counters K) : Prop where
  stored_eq : ∀ k, c.stored k = c.written k
  alone : (c.reads.map Prod.fst).Nodup
  seen_eq : ∀ p ∈ c.reads, p.2 = c.stored p.1

variable {c : Counters K} {k : K} {before after : List (K × ℕ)} {seen v : ℕ}

theorem Bounded.read (h : Bounded c) (k : K) : Bounded (c.read k) where
  stored_le := h.stored_le
  seen_le := by
    intro p hp
    rcases List.mem_append.mp hp with hold | hlast
    · exact h.seen_le p hold
    · rw [List.mem_singleton.mp hlast]
      exact h.stored_le k
  current := by
    intro p hp heq
    rcases List.mem_append.mp hp with hold | hlast
    · exact h.current p hold heq
    · rw [List.mem_singleton.mp hlast]
      rfl

theorem Exact.read (h : Exact c) (hidle : c.Idle k) : Exact (c.read k) where
  stored_eq := h.stored_eq
  alone := by
    show ((c.reads ++ [(k, c.stored k)]).map Prod.fst).Nodup
    rw [List.map_append, List.map_singleton, List.nodup_append]
    refine ⟨h.alone, List.nodup_singleton _, ?_⟩
    intro a ha b hb hab
    have hself : a = k := hab.trans (List.mem_singleton.mp hb)
    exact hidle (hself ▸ ha)
  seen_eq := by
    intro p hp
    rcases List.mem_append.mp hp with hold | hlast
    · exact h.seen_eq p hold
    · rw [List.mem_singleton.mp hlast]
      rfl

/-- **Backward over a read**: it was made alone. -/
theorem Exact.of_read (h : Exact (c.read k)) : Exact c ∧ c.Idle k := by
  have halone : ((c.reads ++ [(k, c.stored k)]).map Prod.fst).Nodup := h.alone
  rw [List.map_append, List.map_singleton, List.nodup_append] at halone
  refine ⟨⟨h.stored_eq, halone.1, ?_⟩, ?_⟩
  · intro p hp
    exact h.seen_eq p (List.mem_append_left _ hp)
  · intro hmem
    exact halone.2.2 k hmem k (List.mem_singleton_self k) rfl

theorem self_mem_reads (hreads : c.reads = before ++ (k, seen) :: after) :
    (k, seen) ∈ c.reads := by
  rw [hreads]
  exact List.mem_append_right _ List.mem_cons_self

theorem mem_reads (hreads : c.reads = before ++ (k, seen) :: after) {p : K × ℕ}
    (hp : p ∈ before ++ after) : p ∈ c.reads := by
  rw [hreads]
  rcases List.mem_append.mp hp with hp | hp
  · exact List.mem_append_left _ hp
  · exact List.mem_append_right _ (List.mem_cons_of_mem _ hp)

/-- The keys of the open increments, the one that writes first. -/
theorem keys_perm (hreads : c.reads = before ++ (k, seen) :: after) :
    (c.reads.map Prod.fst).Perm (k :: (before ++ after).map Prod.fst) := by
  have hperm : (before ++ (k, seen) :: after).Perm ((k, seen) :: (before ++ after)) :=
    List.perm_middle
  rw [hreads]
  exact hperm.map Prod.fst

/-- The increment that writes is the only one of its key. -/
theorem Exact.alone_split (h : Exact c) (hreads : c.reads = before ++ (k, seen) :: after) :
    k ∉ (before ++ after).map Prod.fst ∧ ((before ++ after).map Prod.fst).Nodup :=
  List.nodup_cons.mp ((keys_perm hreads).nodup_iff.mp h.alone)

variable [DecidableEq K]

/-- The increments of a key that have begun. -/
def Counters.begun (c : Counters K) (k : K) : ℕ :=
  c.written k + (c.reads.map Prod.fst).count k

theorem Counters.begun_read (c : Counters K) (k k' : K) :
    (c.read k).begun k' = c.begun k' + [k].count k' := by
  show c.written k' + ((c.reads ++ [(k, c.stored k)]).map Prod.fst).count k' = _
  rw [List.map_append, List.count_append, ← Nat.add_assoc]
  rfl

/-- The other keys are as they were. -/
theorem Counters.write_of_ne {k' : K} (hk : k' ≠ k) :
    (c.write before after k v).stored k' = c.stored k' ∧
      (c.write before after k v).written k' = c.written k' :=
  ⟨Function.update_of_ne hk _ _, Function.update_of_ne hk _ _⟩

theorem Counters.write_self :
    (c.write before after k v).stored k = v ∧
      (c.write before after k v).written k = c.written k + 1 :=
  ⟨Function.update_self _ _ _, Function.update_self _ _ _⟩

theorem Counters.begun_write (hreads : c.reads = before ++ (k, seen) :: after) (v : ℕ) (k' : K) :
    (c.write before after k v).begun k' = c.begun k' := by
  have hcount : (c.reads.map Prod.fst).count k'
      = ((before ++ after).map Prod.fst).count k' + if k = k' then 1 else 0 := by
    rw [(keys_perm hreads).count_eq, List.count_cons]
    simp only [beq_iff_eq]
  show (c.write before after k v).written k' + ((before ++ after).map Prod.fst).count k'
    = c.written k' + (c.reads.map Prod.fst).count k'
  rw [hcount]
  by_cases hk : k' = k
  · rw [hk, Counters.write_self.2, if_pos rfl]
    omega
  · rw [(Counters.write_of_ne hk).2, if_neg (Ne.symm hk)]
    omega

/-- **Any write**, be it stale or without an effect, keeps the bound. -/
theorem Bounded.write (h : Bounded c) (hreads : c.reads = before ++ (k, seen) :: after)
    (hv : v ≤ seen + 1 ∨ v ≤ c.stored k) : Bounded (c.write before after k v) := by
  have hseen : seen ≤ c.written k := h.seen_le (k, seen) (self_mem_reads hreads)
  have hstored := h.stored_le k
  refine ⟨?_, ?_, ?_⟩
  · intro k'
    by_cases hk : k' = k
    · rw [hk, Counters.write_self.1, Counters.write_self.2]
      omega
    · rw [(Counters.write_of_ne hk).1, (Counters.write_of_ne hk).2]
      exact h.stored_le k'
  · intro p hp
    have hle := h.seen_le p (mem_reads hreads hp)
    by_cases hk : p.1 = k
    · rw [hk] at hle
      rw [hk, Counters.write_self.2]
      omega
    · rwa [(Counters.write_of_ne hk).2]
  · intro p hp heq
    have hle := h.seen_le p (mem_reads hreads hp)
    by_cases hk : p.1 = k
    · rw [hk] at hle
      rw [hk, Counters.write_self.2] at heq
      omega
    · rw [(Counters.write_of_ne hk).2] at heq
      rw [(Counters.write_of_ne hk).1]
      exact h.current p (mem_reads hreads hp) heq

/-- **A write of what is still stored, and one more**, keeps a system exact. -/
theorem Exact.write (h : Exact c) (hreads : c.reads = before ++ (k, seen) :: after)
    (hv : seen = c.stored k → v = seen + 1) : Exact (c.write before after k v) := by
  have hseen : seen = c.stored k := h.seen_eq (k, seen) (self_mem_reads hreads)
  obtain ⟨hout, hnodup⟩ := h.alone_split hreads
  refine ⟨?_, hnodup, ?_⟩
  · intro k'
    by_cases hk : k' = k
    · rw [hk, Counters.write_self.1, Counters.write_self.2, hv hseen, hseen, h.stored_eq k]
    · rw [(Counters.write_of_ne hk).1, (Counters.write_of_ne hk).2]
      exact h.stored_eq k'
  · intro p hp
    have hk : p.1 ≠ k := fun hk => hout (List.mem_map.mpr ⟨p, hp, hk⟩)
    rw [(Counters.write_of_ne hk).1]
    exact h.seen_eq p (mem_reads hreads hp)

/-- **Backward over a write**: the number of writes is reached by an up-to-date one only. -/
theorem Exact.of_write (hb : Bounded c) (hreads : c.reads = before ++ (k, seen) :: after)
    (hv : v ≤ seen + 1 ∨ v ≤ c.stored k) (h : Exact (c.write before after k v)) : Exact c := by
  have hmem : (k, seen) ∈ c.reads := self_mem_reads hreads
  have hseen : seen ≤ c.written k := hb.seen_le (k, seen) hmem
  have hstored := hb.stored_le k
  have hnew : v = c.written k + 1 := by
    have heq := h.stored_eq k
    rwa [Counters.write_self.1, Counters.write_self.2] at heq
  have hcurrent : c.stored k = seen := hb.current (k, seen) hmem (show seen = c.written k by omega)
  -- another open increment of the key would have to have seen this write
  have hout : k ∉ (before ++ after).map Prod.fst := by
    intro hin
    obtain ⟨p, hp, hk⟩ := List.mem_map.mp hin
    have hle := hb.seen_le p (mem_reads hreads hp)
    have heq := h.seen_eq p hp
    rw [hk] at hle heq
    rw [Counters.write_self.1] at heq
    omega
  refine ⟨?_, ?_, ?_⟩
  · intro k'
    by_cases hk : k' = k
    · rw [hk]
      omega
    · have heq := h.stored_eq k'
      rwa [(Counters.write_of_ne hk).1, (Counters.write_of_ne hk).2] at heq
  · exact (keys_perm hreads).nodup_iff.mpr (List.nodup_cons.mpr ⟨hout, h.alone⟩)
  · intro p hp
    rw [hreads] at hp
    rcases List.mem_cons.mp (List.perm_middle.mem_iff.mp hp) with rfl | hp
    · exact hcurrent.symm
    · have hk : p.1 ≠ k := fun hk => hout (List.mem_map.mpr ⟨p, hp, hk⟩)
      have heq := h.seen_eq p hp
      rwa [(Counters.write_of_ne hk).1] at heq

end Foundation.Increment
