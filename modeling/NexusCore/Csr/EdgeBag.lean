import NexusCore.Csr.Rebuild

/-!
# The graph store as a bounded bag of edges

`EdgeBag nodeCap edgeCap` is what the store is for: a multiset of edges between known nodes,
of bounded size.  `EdgeBag.add` takes a batch in or answers why not.  The memory code
refines it: `Holds` relates a memory to a bag, `addEdgeBatch_refines` shows that one call
answers as `add` does and keeps the relation, and `runBatches_refines` carries that along
every sequence of batches.

The relation also remembers how the memory got there: which bytes were touched since `init`,
and the generation, which counts the batches that were taken in.  Since each of those
brought at least one edge, the generation never exceeds the number of edges.
-/

namespace NexusCore.Csr

open Foundation.Machine Foundation.LinearMemory

variable {p : Profile} {g : CsrGraph} {nodeCap edgeCap : UInt32} {m₀ m m' : Mem}

/-- A bounded multiset of edges between the nodes below `nodeCap`. -/
@[ext]
structure EdgeBag (nodeCap edgeCap : UInt32) where
  edges : Multiset Edge
  card_le : edges.card ≤ edgeCap.toNat
  ids : ∀ e ∈ edges, e.1 < nodeCap ∧ e.2 < nodeCap

namespace EdgeBag

def empty : EdgeBag nodeCap edgeCap := ⟨0, Nat.zero_le _, by simp⟩

/-- Take a batch in, or say why not. -/
def add (s : EdgeBag nodeCap edgeCap) (b : List Edge) : EdgeBag nodeCap edgeCap × Result UInt32 :=
  if b = [] then (s, .ok 0)
  else if hfull : edgeCap.toNat < s.edges.card + b.length then
    (s, .error "edge capacity exhausted")
  else if hbad : ∃ e ∈ b, nodeCap ≤ e.1 ∨ nodeCap ≤ e.2 then
    (s, .error "node ID exceeds capacity")
  else
    (⟨s.edges + b, by
        rw [Multiset.card_add, Multiset.coe_card]
        omega, by
        intro e he
        rcases Multiset.mem_add.mp he with he | he
        · exact s.ids e he
        · have hnot : ¬ (nodeCap ≤ e.1 ∨ nodeCap ≤ e.2) := fun hc => hbad ⟨e, he, hc⟩
          simpa only [not_or, UInt32.not_le] using hnot⟩,
      .ok (UInt32.ofNat b.length))

/-- The bag after a sequence of batches. -/
def addAll (s : EdgeBag nodeCap edgeCap) : List (List Edge) → EdgeBag nodeCap edgeCap
  | [] => s
  | b :: bs => (s.add b).1.addAll bs

/-- The answers to a sequence of batches. -/
def answers (s : EdgeBag nodeCap edgeCap) : List (List Edge) → List (Result UInt32)
  | [] => []
  | b :: bs => (s.add b).2 :: (s.add b).1.answers bs

end EdgeBag

/-- The edges of the batches that were answered with `Ok`. -/
def acceptedEdges : List (List Edge) → List (Result UInt32) → List Edge
  | b :: bs, .ok _ :: rs => b ++ acceptedEdges bs rs
  | _ :: bs, .error _ :: rs => acceptedEdges bs rs
  | _, _ => []

/-- How many non-empty batches were answered with `Ok`. -/
def acceptedRounds : List (List Edge) → List (Result UInt32) → ℕ
  | b :: bs, .ok _ :: rs => (if b = [] then 0 else 1) + acceptedRounds bs rs
  | _ :: bs, .error _ :: rs => acceptedRounds bs rs
  | _, _ => 0

variable (s : EdgeBag nodeCap edgeCap)

/-- One batch moves the bag by what it was answered with. -/
theorem EdgeBag.add_edges (b : List Edge) :
    (s.add b).1.edges = s.edges + acceptedEdges [b] [(s.add b).2] := by
  unfold EdgeBag.add
  split
  · rename_i hb
    simp [hb, acceptedEdges]
  · split
    · simp [acceptedEdges]
    · split <;> simp [acceptedEdges]

/-- An accepted batch is answered with its length. -/
theorem EdgeBag.add_answer (b : List Edge) {n : UInt32} (h : (s.add b).2 = .ok n) :
    n.toNat = b.length := by
  unfold EdgeBag.add at h
  split at h
  · rename_i hb
    cases h
    rw [hb]
    rfl
  · split at h
    · cases h
    · split at h
      · cases h
      · rename_i hfull _
        have hcap := edgeCap.toNat_lt
        cases h
        rw [UInt32.toNat_ofNat', Nat.mod_eq_of_lt (by omega)]

theorem acceptedEdges_cons (b : List Edge) (bs : List (List Edge)) (r : Result UInt32)
    (rs : List (Result UInt32)) :
    acceptedEdges (b :: bs) (r :: rs) = acceptedEdges [b] [r] ++ acceptedEdges bs rs := by
  cases r <;> simp [acceptedEdges]

theorem acceptedRounds_cons (b : List Edge) (bs : List (List Edge)) (r : Result UInt32)
    (rs : List (Result UInt32)) :
    acceptedRounds (b :: bs) (r :: rs) = acceptedRounds [b] [r] + acceptedRounds bs rs := by
  cases r <;> simp [acceptedRounds]

theorem EdgeBag.addAll_edges (bs : List (List Edge)) :
    (s.addAll bs).edges = s.edges + acceptedEdges bs (s.answers bs) := by
  induction bs generalizing s with
  | nil => simp [EdgeBag.addAll, acceptedEdges]
  | cons b bs ih =>
      rw [EdgeBag.addAll, ih, EdgeBag.answers, acceptedEdges_cons, s.add_edges b, add_assoc,
        ← Multiset.coe_add]

theorem EdgeBag.answers_length (bs : List (List Edge)) :
    List.Forall₂ (fun b r => ∀ n, r = .ok n → n.toNat = b.length) bs (s.answers bs) := by
  induction bs generalizing s with
  | nil => exact List.Forall₂.nil
  | cons b bs ih => exact List.Forall₂.cons (fun _ hn => s.add_answer b hn) (ih _)

theorem EdgeBag.answers_take (bs : List (List Edge)) (k : ℕ) :
    s.answers (bs.take k) = (s.answers bs).take k := by
  induction bs generalizing s k with
  | nil => simp [EdgeBag.answers]
  | cons b bs ih =>
      cases k with
      | zero => simp [EdgeBag.answers]
      | succ k => simp only [List.take_succ_cons, EdgeBag.answers, ih]

/-! ### The memory refines the bag -/

/-- The memory `m`, reached from `m₀` with `rounds` batches taken in, holds the bag. -/
structure Holds (g : CsrGraph) (m₀ m : Mem) (s : EdgeBag nodeCap edgeCap) (rounds : ℕ) : Prop where
  represents : ∃ L, Represents g nodeCap edgeCap m L ∧ (L : Multiset Edge) = s.edges
  generation_eq : (generation m).toNat = rounds
  rounds_le : rounds ≤ s.edges.card
  frame : Frame (touched nodeCap s.edges.card) m₀ m

/-- A fresh graph holds the empty bag. -/
theorem holds_of_init {memLen : ℕ} (hlay : Layout nodeCap edgeCap)
    (hinit : init p m₀ memLen nodeCap edgeCap = .ok (m, .ok g)) :
    Holds g m m (EdgeBag.empty : EdgeBag nodeCap edgeCap) 0 := by
  obtain ⟨hrep, hgen⟩ := init_spec hlay hinit
  exact ⟨⟨[], hrep, rfl⟩, by rw [hgen]; rfl, Nat.zero_le _, Frame.refl _ _⟩

variable {s} {rounds : ℕ}

/-- The generation has room for one more batch. -/
theorem Holds.generation_lt (h : Holds g m₀ m s rounds) : (generation m).toNat + 1 < 2 ^ 64 := by
  have hcap := edgeCap.toNat_lt
  have hle := h.rounds_le
  have hcard := s.card_le
  rw [h.generation_eq]
  omega

/-- **One batch refines one `add`**, whichever exact addition extends the prefix sums. -/
theorem addEdgeBatchWith_refines {add : UInt32 → UInt32 → Checked UInt32} (hadd : ExactAdd add)
    (h : Holds g m₀ m s rounds) (b : List Edge) :
    ∃ m', addEdgeBatchWith add p g m b = .ok (m', (s.add b).2) ∧
      Holds g m₀ m' (s.add b).1 (rounds + acceptedRounds [b] [(s.add b).2]) := by
  obtain ⟨L, hrep, hL⟩ := h.represents
  have hcard : s.edges.card = L.length := by rw [← hL, Multiset.coe_card]
  obtain ⟨m', r, hrun, hcases⟩ := addEdgeBatchWith_spec (p := p) hadd hrep h.generation_lt b
  refine ⟨m', ?_⟩
  rw [hrun]
  unfold EdgeBag.add
  rcases hcases with ⟨hb, rfl, rfl⟩ | ⟨hb, hfull, rfl, rfl⟩ | ⟨hb, hfits, hbad, rfl, rfl⟩ |
    ⟨hb, hfits, hok, rfl, hrep', hgen', hframe'⟩
  · rw [if_pos hb]
    exact ⟨rfl, by simpa [acceptedRounds, hb] using h⟩
  · rw [if_neg hb, dif_pos (by omega)]
    exact ⟨rfl, by simpa [acceptedRounds] using h⟩
  · rw [if_neg hb, dif_neg (by omega), dif_pos hbad]
    exact ⟨rfl, by simpa [acceptedRounds] using h⟩
  · have hnone : ¬ ∃ e ∈ b, nodeCap ≤ e.1 ∨ nodeCap ≤ e.2 := by
      rintro ⟨e, he, hc⟩
      have hlt := hok e he
      rcases hc with hc | hc
      · exact UInt32.not_le.mpr hlt.1 hc
      · exact UInt32.not_le.mpr hlt.2 hc
    rw [if_neg hb, dif_neg (by omega), dif_neg hnone]
    have hpos : 0 < b.length := List.length_pos_iff.mpr hb
    have hone : acceptedRounds [b] [.ok (UInt32.ofNat b.length)] = 1 := by
      simp [acceptedRounds, hb]
    have hroom : (generation m).toNat + (1 : UInt64).toNat < 2 ^ 64 := h.generation_lt
    refine ⟨rfl, ⟨⟨_, hrep', ?_⟩, ?_, ?_, ?_⟩⟩
    · show ((sortEdges (L ++ b) : List Edge) : Multiset Edge) = s.edges + b
      rw [Multiset.coe_eq_coe.mpr (sortEdges_perm _), ← Multiset.coe_add, hL]
    · rw [hgen', toNat_add64_of_lt hroom, h.generation_eq, hone]
      rfl
    · have hle := h.rounds_le
      rw [hone, Multiset.card_add, Multiset.coe_card]
      omega
    · rw [Multiset.card_add, Multiset.coe_card, hcard]
      have hold := h.frame
      rw [hcard] at hold
      exact (hold.mono (touched_mono (Nat.le_add_right _ _))).trans hframe'

theorem addEdgeBatch_refines (h : Holds g m₀ m s rounds) (b : List Edge) :
    ∃ m', addEdgeBatch p g m b = .ok (m', (s.add b).2) ∧
      Holds g m₀ m' (s.add b).1 (rounds + acceptedRounds [b] [(s.add b).2]) :=
  addEdgeBatchWith_refines exactAdd_saturating h b

/-- **Every run refines the bag.** -/
theorem runBatches_refines (h : Holds g m₀ m s rounds) (bs : List (List Edge)) :
    ∃ m', runBatches p g m bs = .ok (m', s.answers bs) ∧
      Holds g m₀ m' (s.addAll bs) (rounds + acceptedRounds bs (s.answers bs)) := by
  induction bs generalizing m s rounds with
  | nil => exact ⟨m, rfl, h⟩
  | cons b bs ih =>
      obtain ⟨m₁, hstep, h₁⟩ := addEdgeBatch_refines (p := p) h b
      obtain ⟨m', hrun, h'⟩ := ih h₁
      refine ⟨m', ?_, ?_⟩
      · rw [runBatches, hstep, ok_bind]
        simp only [hrun, ok_bind, EdgeBag.answers]
      · rw [EdgeBag.answers, acceptedRounds_cons, ← Nat.add_assoc]
        exact h'

/-! ### Reading the bag through the memory -/

/-- A row lists, in ascending order, the targets of its source with their multiplicity. -/
def IsRow (edges : List Edge) (u : UInt32) (row : List UInt32) : Prop :=
  row.Pairwise (· ≤ ·) ∧ ∀ v, row.count v = edges.count (u, v)

theorem IsRow.of_perm {L₁ L₂ : List Edge} {u : UInt32} {row : List UInt32} (h : IsRow L₁ u row)
    (hp : L₁.Perm L₂) : IsRow L₂ u row :=
  ⟨h.1, fun v => (h.2 v).trans (hp.count_eq _)⟩

/-- The targets of `u` in a sorted edge list are its row. -/
theorem isRow_filter {L : List Edge} (hs : L.Pairwise edgeLe) (u : UInt32) :
    IsRow L u ((L.filter fun e => decide (srcKey e = u.toNat)).map Prod.snd) := by
  constructor
  · rw [List.pairwise_map]
    apply (hs.filter fun e => decide (srcKey e = u.toNat)).imp_of_mem
    intro a b ha hb hab
    have hau : srcKey a = u.toNat := of_decide_eq_true (List.mem_filter.mp ha).2
    have hbu : srcKey b = u.toNat := of_decide_eq_true (List.mem_filter.mp hb).2
    rw [edgeLe_iff, ← srcKey, ← srcKey, hau, hbu] at hab
    rw [UInt32.le_iff_toNat_le]
    omega
  · intro v
    rw [List.count_eq_countP, List.countP_map, List.countP_filter, List.count_eq_countP]
    apply List.countP_congr
    intro e _
    simp only [Function.comp_apply, Bool.and_eq_true, beq_iff_eq, decide_eq_true_eq, srcKey,
      UInt32.toNat_inj]
    exact ⟨fun h => Prod.ext h.2 h.1, fun h => by rw [h]; exact ⟨rfl, rfl⟩⟩

theorem Holds.getFollowing {E : List Edge} (h : Holds g m₀ m s rounds)
    (hE : s.edges = (E : Multiset Edge)) {u : UInt32} (hu : u < nodeCap) :
    ∃ row, getFollowing g m u = .ok (.ok row) ∧ IsRow E u row := by
  obtain ⟨L, hrep, hL⟩ := h.represents
  refine ⟨_, getFollowing_spec hrep hu, ?_⟩
  exact (isRow_filter hrep.sorted u).of_perm (Multiset.coe_eq_coe.mp (hL.trans hE))

/-- Two memories reached from one memory that hold one bag agree outside the generation. -/
theorem Holds.unique {m₁ m₂ : Mem} {r₁ r₂ : ℕ} (h₁ : Holds g m₀ m₁ s r₁)
    (h₂ : Holds g m₀ m₂ s r₂) : ∀ x, x ∉ Set.Ico 36 44 → m₁ x = m₂ x := by
  obtain ⟨L₁, hrep₁, hL₁⟩ := h₁.represents
  obtain ⟨L₂, hrep₂, hL₂⟩ := h₂.represents
  have hperm : L₁.Perm L₂ := Multiset.coe_eq_coe.mp (hL₁.trans hL₂.symm)
  obtain rfl := eq_of_perm_of_sorted hperm hrep₁.sorted hrep₂.sorted
  have hcard : s.edges.card = L₁.length := by rw [← hL₁, Multiset.coe_card]
  exact hrep₁.unique hrep₂ hcard h₁.frame h₂.frame

/-- ... and with the same number of rounds they are the same memory. -/
theorem Holds.eq {m₁ m₂ : Mem} (h₁ : Holds g m₀ m₁ s rounds) (h₂ : Holds g m₀ m₂ s rounds) :
    m₁ = m₂ := by
  funext x
  by_cases hx : x ∈ Set.Ico 36 44
  · have hgen : generation m₁ = generation m₂ :=
      UInt64.toNat_inj.mp (h₁.generation_eq.trans h₂.generation_eq.symm)
    exact eq_of_readU64_eq hgen x hx
  · exact h₁.unique h₂ x hx

theorem Holds.edgeCount_eq (h : Holds g m₀ m s rounds) :
    (edgeCount m).toNat = s.edges.card := by
  obtain ⟨L, hrep, hL⟩ := h.represents
  rw [hrep.edge_count, ← hL, Multiset.coe_card]

end NexusCore.Csr
