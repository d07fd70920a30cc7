import Mathlib

/-!
# Breadth-first search with a queue that is never cleaned

A search keeps a queue of vertices with depths.  It pops the first entry and either skips
it, because it is too deep or its vertex was taken out before, or expands it, which appends
all successors one level deeper.  Vertices are marked when they are popped, so one vertex
may stand in the queue many times and at different depths.

`Frontier next root D out popped queue` is what such a search keeps, `out` being the
expanded entries, `popped` all popped ones.  The search itself is not fixed here: a program
that pops and appends in this manner uses the rules

* `Frontier.init`, `Frontier.skip`, `Frontier.expand`, one for each thing it can do;
* `Frontier.mem_iff`: when the queue is empty, `out` has the vertices at distance below `D`,
  each with its distance;
* `Frontier.discovery`: `out` is ordered by distance and, more finely, by first appearance
  in the queue;
* `Frontier.exists_complete`: over a finite vertex type every search can be finished;
* `Frontier.isPrefix_of_le`: a finished search to a greater depth begins with the shallower one.
-/

namespace Foundation.BreadthFirst

variable {V : Type*}

section Distance

variable (next : V → List V) (root : V)

/-- `Walk next root v k`: `k` successor steps lead from `root` to `v`. -/
inductive Walk : V → ℕ → Prop
  | root : Walk root 0
  | step {u v : V} {k : ℕ} : Walk u k → v ∈ next u → Walk v (k + 1)

/-- The length of a shortest walk. -/
def IsDist (v : V) (d : ℕ) : Prop := Walk next root v d ∧ ∀ k, Walk next root v k → d ≤ k

/-- A vertex has one distance. -/
theorem IsDist.unique {next : V → List V} {root v : V} {d d' : ℕ} (h : IsDist next root v d)
    (h' : IsDist next root v d') : d = d' := Nat.le_antisymm (h.2 _ h'.1) (h'.2 _ h.1)

/-- What an expansion appends to the queue. -/
def children (e : V × ℕ) : List (V × ℕ) := (next e.1).map fun v => (v, e.2 + 1)

/-- Everything that ever stood in the queue, given what was expanded. -/
def enqueued (out : List (V × ℕ)) : List (V × ℕ) := (root, 0) :: out.flatMap (children next)

theorem enqueued_append_list (out rest : List (V × ℕ)) :
    enqueued next root (out ++ rest)
      = enqueued next root out ++ rest.flatMap (children next) := by
  rw [enqueued, List.flatMap_append, enqueued, List.cons_append]

theorem enqueued_append (out : List (V × ℕ)) (e : V × ℕ) :
    enqueued next root (out ++ [e]) = enqueued next root out ++ children next e := by
  rw [enqueued_append_list, List.flatMap_singleton]

theorem map_fst_enqueued (out : List (V × ℕ)) :
    (enqueued next root out).map Prod.fst = root :: out.flatMap fun e => next e.1 := by
  simp only [enqueued, List.map_cons, List.map_flatMap, children, List.map_map]
  congr 1
  apply List.flatMap_congr
  intro e _
  rw [show (Prod.fst ∘ fun v : V => (v, e.2 + 1)) = id from rfl, List.map_id]

end Distance

variable [DecidableEq V] {next : V → List V} {root : V} {D : ℕ}

/-- The position at which a vertex is first popped. -/
def firstAt (popped : List (V × ℕ)) (v : V) : ℕ := (popped.map Prod.fst).idxOf v

/-- What a search keeps from one pop to the next. -/
structure Frontier (next : V → List V) (root : V) (D : ℕ) (out popped queue : List (V × ℕ)) :
    Prop where
  /-- the queue is what was appended and not yet popped -/
  split : enqueued next root out = popped ++ queue
  popped_of_out : ∀ e ∈ out, e ∈ popped
  lt : ∀ e ∈ out, e.2 < D
  nodup : (out.map Prod.fst).Nodup
  /-- depths never fall along the queue -/
  sorted : (popped ++ queue).Pairwise fun a b => a.2 ≤ b.2
  walk : ∀ e ∈ popped ++ queue, Walk next root e.1 e.2
  /-- a popped entry that is not too deep was expanded, then or at a lesser depth -/
  covered : ∀ e ∈ popped, e.2 < D → ∃ d ≤ e.2, (e.1, d) ∈ out
  order : out.Pairwise fun a b => a.2 ≤ b.2 ∧ firstAt popped a.1 < firstAt popped b.1

namespace Frontier

variable {out popped queue : List (V × ℕ)} {e : V × ℕ}

theorem init : Frontier next root D [] [] [(root, 0)] where
  split := rfl
  popped_of_out := by simp
  lt := by simp
  nodup := List.nodup_nil
  sorted := List.pairwise_singleton _ _
  walk := by
    intro e he
    rw [List.nil_append, List.mem_singleton] at he
    rw [he]
    exact Walk.root
  covered := by simp
  order := List.Pairwise.nil

/-- Popped entries are no deeper than the head of the queue. -/
theorem popped_le (h : Frontier next root D out popped (e :: queue)) :
    ∀ a ∈ popped, a.2 ≤ e.2 := fun a ha =>
  (List.pairwise_append.mp h.sorted).2.2 a ha e List.mem_cons_self

theorem firstAt_append {a : V × ℕ} (ha : a ∈ popped) (l : List (V × ℕ)) :
    firstAt (popped ++ l) a.1 = firstAt popped a.1 := by
  rw [firstAt, List.map_append, List.idxOf_append_of_mem (List.mem_map_of_mem ha), firstAt]

/-- Popping one more entry keeps the order of the expanded ones. -/
theorem order_append (h : Frontier next root D out popped queue) (l : List (V × ℕ)) :
    out.Pairwise fun a b =>
      a.2 ≤ b.2 ∧ firstAt (popped ++ l) a.1 < firstAt (popped ++ l) b.1 := by
  apply List.Pairwise.imp_of_mem _ h.order
  intro a b ha hb hab
  rwa [firstAt_append (h.popped_of_out a ha), firstAt_append (h.popped_of_out b hb)]

/-- **Skipping** an entry that is too deep or whose vertex was expanded before. -/
theorem skip (h : Frontier next root D out popped (e :: queue))
    (hskip : D ≤ e.2 ∨ e.1 ∈ out.map Prod.fst) :
    Frontier next root D out (popped ++ [e]) queue where
  split := by rw [h.split, List.append_assoc, List.singleton_append]
  popped_of_out a ha := List.mem_append_left _ (h.popped_of_out a ha)
  lt := h.lt
  nodup := h.nodup
  sorted := by
    rw [List.append_assoc]
    exact h.sorted
  walk := by
    rw [List.append_assoc]
    exact h.walk
  covered := by
    intro a ha hlt
    rcases List.mem_append.mp ha with ha | ha
    · exact h.covered a ha hlt
    · rw [List.mem_singleton.mp ha] at hlt ⊢
      rcases hskip with hdeep | hmem
      · omega
      · obtain ⟨b, hb, hbe⟩ := List.mem_map.mp hmem
        refine ⟨b.2, h.popped_le b (h.popped_of_out b hb), ?_⟩
        rw [← hbe]
        exact hb
  order := h.order_append [e]

/-- A vertex that was not expanded does not stand among the popped ones, below depth `D`. -/
theorem not_mem_popped (h : Frontier next root D out popped (e :: queue)) (hd : e.2 < D)
    (hnew : e.1 ∉ out.map Prod.fst) : e.1 ∉ popped.map Prod.fst := by
  intro hmem
  obtain ⟨a, ha, hae⟩ := List.mem_map.mp hmem
  have hle := h.popped_le a ha
  obtain ⟨d, -, hd'⟩ := h.covered a ha (by omega)
  apply hnew
  rw [← hae]
  exact List.mem_map.mpr ⟨(a.1, d), hd', rfl⟩

/-- Whatever has been queued is a child of an entry popped no later than the head, so it is at
most one deeper. -/
theorem depth_le (h : Frontier next root D out popped (e :: queue)) :
    ∀ a ∈ popped ++ e :: queue, a.2 ≤ e.2 + 1 := by
  rw [← h.split, enqueued]
  intro a ha
  rcases List.mem_cons.mp ha with rfl | ha
  · exact Nat.zero_le _
  · obtain ⟨b, hb, hab⟩ := List.mem_flatMap.mp ha
    obtain ⟨v, -, rfl⟩ := List.mem_map.mp hab
    exact Nat.succ_le_succ (h.popped_le b (h.popped_of_out b hb))

/-- The children of the head go to the end of the queue. -/
theorem sorted_children (h : Frontier next root D out popped (e :: queue)) :
    ((popped ++ e :: queue) ++ children next e).Pairwise fun a b => a.2 ≤ b.2 := by
  rw [List.pairwise_append]
  refine ⟨h.sorted, ?_, ?_⟩
  · rw [children, List.pairwise_map]
    exact List.pairwise_of_forall fun _ _ => Nat.le_refl _
  · intro a ha b hb
    obtain ⟨v, -, rfl⟩ := List.mem_map.mp hb
    exact h.depth_le a ha

/-- An entry whose vertex is new comes after the expanded ones. -/
theorem order_snoc (h : Frontier next root D out popped (e :: queue)) (hd : e.2 < D)
    (hnew : e.1 ∉ out.map Prod.fst) :
    (out ++ [e]).Pairwise fun a b =>
      a.2 ≤ b.2 ∧ firstAt (popped ++ [e]) a.1 < firstAt (popped ++ [e]) b.1 := by
  rw [List.pairwise_append]
  refine ⟨h.order_append [e], List.pairwise_singleton _ _, ?_⟩
  intro a ha b hb
  rw [List.mem_singleton.mp hb]
  have hpop := h.popped_of_out a ha
  refine ⟨h.popped_le a hpop, ?_⟩
  rw [firstAt_append hpop, firstAt, firstAt, List.map_append,
    List.idxOf_append_of_notMem (h.not_mem_popped hd hnew), List.map_singleton,
    List.idxOf_cons_self, Nat.add_zero]
  exact List.idxOf_lt_length_of_mem (List.mem_map_of_mem hpop)

/-- **Expanding** an entry at its vertex's first turn. -/
theorem expand (h : Frontier next root D out popped (e :: queue)) (hd : e.2 < D)
    (hnew : e.1 ∉ out.map Prod.fst) :
    Frontier next root D (out ++ [e]) (popped ++ [e]) (queue ++ children next e) := by
  have hsplit : (popped ++ [e]) ++ (queue ++ children next e)
      = (popped ++ (e :: queue)) ++ children next e := by simp
  have hwalk : Walk next root e.1 e.2 := h.walk e (by simp)
  refine
    { split := by rw [enqueued_append, h.split, hsplit]
      popped_of_out := ?_
      lt := ?_
      nodup := ?_
      sorted := hsplit ▸ h.sorted_children
      walk := ?_
      covered := ?_
      order := h.order_snoc hd hnew }
  · intro a ha
    rcases List.mem_append.mp ha with ha | ha
    · exact List.mem_append_left _ (h.popped_of_out a ha)
    · exact List.mem_append_right _ ha
  · intro a ha
    rcases List.mem_append.mp ha with ha | ha
    · exact h.lt a ha
    · rwa [List.mem_singleton.mp ha]
  · rw [List.map_append, List.map_singleton, List.nodup_append]
    refine ⟨h.nodup, List.nodup_singleton _, ?_⟩
    intro a ha b hb hab
    rw [List.mem_singleton.mp hb] at hab
    exact hnew (hab ▸ ha)
  · rw [hsplit]
    intro a ha
    rcases List.mem_append.mp ha with ha | ha
    · exact h.walk a ha
    · obtain ⟨v, hv, rfl⟩ := List.mem_map.mp ha
      exact Walk.step hwalk hv
  · intro a ha hlt
    rcases List.mem_append.mp ha with ha | ha
    · obtain ⟨d, hle, hd'⟩ := h.covered a ha hlt
      exact ⟨d, hle, List.mem_append_left _ hd'⟩
    · rw [List.mem_singleton.mp ha]
      exact ⟨e.2, Nat.le_refl _, by simp⟩

/-! ### The finished search -/

/-- Walks shorter than `D` end in expanded vertices, expanded no deeper. -/
theorem mem_of_walk (h : Frontier next root D out popped []) {v : V} {k : ℕ}
    (hw : Walk next root v k) (hk : k < D) : ∃ d ≤ k, (v, d) ∈ out := by
  have hsplit : enqueued next root out = popped := by rw [h.split, List.append_nil]
  induction hw with
  | root => exact h.covered (root, 0) (by rw [← hsplit]; exact List.mem_cons_self) hk
  | @step u v k hu hv ih =>
      obtain ⟨d, hle, hmem⟩ := ih (by omega)
      have hchild : (v, d + 1) ∈ popped := by
        rw [← hsplit]
        apply List.mem_cons_of_mem
        exact List.mem_flatMap.mpr ⟨(u, d), hmem, List.mem_map.mpr ⟨v, hv, rfl⟩⟩
      obtain ⟨d', hle', hmem'⟩ := h.covered (v, d + 1) hchild (by show d + 1 < D; omega)
      have hle'' : d' ≤ d + 1 := hle'
      exact ⟨d', by omega, hmem'⟩

/-- **A finished search has found the vertices at distance below `D`**, with their distances. -/
theorem mem_iff (h : Frontier next root D out popped []) {v : V} {d : ℕ} :
    (v, d) ∈ out ↔ d < D ∧ IsDist next root v d := by
  constructor
  · intro hmem
    have hlt : d < D := h.lt _ hmem
    refine ⟨hlt, h.walk _ (List.mem_append_left _ (h.popped_of_out _ hmem)), ?_⟩
    intro k hk
    by_contra hlt'
    obtain ⟨d', hle, hmem'⟩ := h.mem_of_walk hk (by omega)
    have heq : ((v, d') : V × ℕ) = (v, d) := List.inj_on_of_nodup_map h.nodup hmem' hmem rfl
    have hdd : d' = d := congrArg Prod.snd heq
    omega
  · rintro ⟨hlt, hw, hmin⟩
    obtain ⟨d', hle, hmem⟩ := h.mem_of_walk hw hlt
    have hle' := hmin d' (h.walk _ (List.mem_append_left _ (h.popped_of_out _ hmem)))
    rwa [show d = d' by omega]

/-- **The order of a finished search**: by distance, and by first appearance in the queue. -/
theorem discovery (h : Frontier next root D out popped []) :
    out.Pairwise fun a b => a.2 ≤ b.2 ∧
      (root :: out.flatMap fun e => next e.1).idxOf a.1
        < (root :: out.flatMap fun e => next e.1).idxOf b.1 := by
  have hpop : popped.map Prod.fst = root :: out.flatMap fun e => next e.1 := by
    rw [← map_fst_enqueued next root, h.split, List.append_nil]
  rw [← hpop]
  exact h.order

/-! ### Finishing a search -/

/-- The successors of the vertices that are not yet expanded. -/
def pending [Fintype V] (next : V → List V) (out : List (V × ℕ)) : ℕ :=
  ∑ v ∈ Finset.univ.filter fun v => v ∉ out.map Prod.fst, (next v).length

theorem pending_append [Fintype V] (next : V → List V) (hnew : e.1 ∉ out.map Prod.fst) :
    pending next (out ++ [e]) + (next e.1).length = pending next out := by
  have hsplit : (Finset.univ.filter fun v => v ∉ out.map Prod.fst)
      = insert e.1 (Finset.univ.filter fun v => v ∉ (out ++ [e]).map Prod.fst) := by
    ext v
    simp only [List.map_append, List.map_singleton, List.mem_append, List.mem_singleton,
      Finset.mem_filter, Finset.mem_univ, true_and, Finset.mem_insert]
    by_cases hv : v = e.1
    · rw [hv]
      simp [hnew]
    · simp [hv]
  rw [pending, pending, hsplit, Finset.sum_insert (by simp)]
  exact Nat.add_comm _ _

/-- **Every search over a finite vertex type can be finished**, what was expanded so far
staying in front. -/
theorem exists_complete [Fintype V] (h : Frontier next root D out popped queue) :
    ∃ out' popped', Frontier next root D (out ++ out') popped' [] := by
  generalize hn : pending next out + queue.length = n
  induction n using Nat.strong_induction_on generalizing out popped queue with
  | _ n ih =>
      cases queue with
      | nil => exact ⟨[], popped, by rwa [List.append_nil]⟩
      | cons e queue =>
          rw [List.length_cons] at hn
          by_cases hskip : D ≤ e.2 ∨ e.1 ∈ out.map Prod.fst
          · exact ih _ (by omega) (h.skip hskip) rfl
          · obtain ⟨hd, hnew⟩ := not_or.mp hskip
            have hlen : (queue ++ children next e).length = queue.length + (next e.1).length := by
              rw [List.length_append, children, List.length_map]
            have hpend := pending_append next hnew
            obtain ⟨out', popped', hdone⟩ :=
              ih _ (by omega) (h.expand (Nat.not_le.mp hd) hnew) rfl
            rw [List.append_assoc] at hdone
            exact ⟨[e] ++ out', popped', hdone⟩

/-! ### Searches to different depths -/

section Compare

variable {first rest : List (V × ℕ)} {a : V × ℕ}

/-- What is expanded next was appended by the expansions before it. -/
theorem next_mem_enqueued (h : Frontier next root D (first ++ a :: rest) popped []) :
    a ∈ enqueued next root first := by
  have hmem : a ∈ enqueued next root (first ++ a :: rest) := by
    rw [h.split]
    exact List.mem_append_left _ (h.popped_of_out a (by simp))
  rw [enqueued_append_list] at hmem
  rcases List.mem_append.mp hmem with hmem | hmem
  · exact hmem
  · -- a child of a later entry is deeper than that entry
    obtain ⟨b, hb, hchild⟩ := List.mem_flatMap.mp hmem
    obtain ⟨v, -, hv⟩ := List.mem_map.mp hchild
    have hdeeper : a.2 = b.2 + 1 := by rw [← hv]
    have hle : a.2 ≤ b.2 := by
      rcases List.mem_cons.mp hb with rfl | hb
      · exact Nat.le_refl _
      · have horder := (List.pairwise_append.mp h.order).2.1
        exact ((List.pairwise_cons.mp horder).1 b hb).1
    omega

/-- An entry whose vertex is still to be expanded comes no earlier than the next one. -/
theorem next_first (h : Frontier next root D (first ++ rest) popped []) {e : V × ℕ}
    (he : e ∈ enqueued next root first) (hd : e.2 < D) (hnew : e.1 ∉ first.map Prod.fst) :
    ∃ a rest', rest = a :: rest' ∧ a.2 ≤ e.2 ∧
      firstAt (enqueued next root first) a.1 ≤ firstAt (enqueued next root first) e.1 := by
  have hpop : enqueued next root first ++ rest.flatMap (children next) = popped := by
    rw [← enqueued_append_list, h.split, List.append_nil]
  obtain ⟨d, hle, hmem⟩ := h.covered e (hpop ▸ List.mem_append_left _ he) hd
  have hrest : (e.1, d) ∈ rest := by
    rcases List.mem_append.mp hmem with hfirst | hrest
    · exact absurd (List.mem_map_of_mem hfirst) hnew
    · exact hrest
  cases rest with
  | nil => cases hrest
  | cons a rest =>
      have horder := (List.pairwise_append.mp h.order).2.1
      have ha := h.next_mem_enqueued
      refine ⟨a, rest, rfl, ?_⟩
      rw [← firstAt_append ha (List.flatMap (children next) (a :: rest)),
        ← firstAt_append he (List.flatMap (children next) (a :: rest)), hpop]
      rcases List.mem_cons.mp hrest with heq | hlater
      · rw [← heq]
        exact ⟨hle, Nat.le_refl _⟩
      · have hab := (List.pairwise_cons.mp horder).1 _ hlater
        exact ⟨Nat.le_trans hab.1 hle, Nat.le_of_lt hab.2⟩

theorem next_not_mem (h : Frontier next root D (first ++ a :: rest) popped []) :
    a.1 ∉ first.map Prod.fst := by
  have hnodup := h.nodup
  rw [List.map_append, List.map_cons, List.nodup_append] at hnodup
  intro hmem
  exact hnodup.2.2 a.1 hmem a.1 List.mem_cons_self rfl

theorem firstAt_inj {l : List (V × ℕ)} {a b : V × ℕ} (ha : a ∈ l)
    (h : firstAt l a.1 = firstAt l b.1) : a.1 = b.1 :=
  List.idxOf_inj (List.mem_map_of_mem ha) |>.mp h

/-- **A deeper search begins with the shallower one.**  Up to any point both have appended the
same entries, so both expand the first of them that is still to be expanded. -/
theorem isPrefix_of_le {D' : ℕ} {out' popped' : List (V × ℕ)} (hD : D ≤ D')
    (h : Frontier next root D out popped []) (h' : Frontier next root D' out' popped' []) :
    out <+: out' := by
  suffices hall : ∀ first rest, out = first ++ rest → first <+: out' from
    hall out [] (List.append_nil out).symm
  intro first
  induction first using List.reverseRecOn with
  | nil => exact fun _ _ => List.nil_prefix
  | append_singleton first a ih =>
      intro rest hout
      rw [List.append_assoc, List.singleton_append] at hout
      obtain ⟨rest', hout'⟩ := ih _ hout
      rw [hout] at h
      rw [← hout'] at h'
      have ha := h.next_mem_enqueued
      have hlt : a.2 < D := h.lt a (by simp)
      obtain ⟨b, rest', rfl, hble, hbfirst⟩ := h'.next_first ha (by omega) h.next_not_mem
      have hb := h'.next_mem_enqueued
      obtain ⟨a', _, hcons, -, hafirst⟩ := h.next_first hb (by omega) h'.next_not_mem
      cases hcons
      have hvertex : a.1 = b.1 := firstAt_inj ha (Nat.le_antisymm hafirst hbfirst)
      have hdist := (h.mem_iff (v := a.1) (d := a.2)).mp (by simp)
      have hdist' := (h'.mem_iff (v := b.1) (d := b.2)).mp (by simp)
      rw [← hvertex] at hdist'
      have hab : a = b := Prod.ext hvertex (hdist.2.unique hdist'.2)
      rw [← hout', hab]
      exact ⟨rest', by simp⟩

/-- **Two finished searches to one depth expand the same.** -/
theorem out_unique {out' popped' : List (V × ℕ)} (h : Frontier next root D out popped [])
    (h' : Frontier next root D out' popped' []) : out = out' :=
  (isPrefix_of_le (Nat.le_refl D) h h').eq_of_length_le
    (isPrefix_of_le (Nat.le_refl D) h' h).length_le

end Compare

end Frontier

end Foundation.BreadthFirst
