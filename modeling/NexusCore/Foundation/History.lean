import Mathlib
import NexusCore.Foundation.Machine

/-!
# Histories of a machine

A machine answers an input and moves to a next state, or faults.  A history lists the steps it
took from a fixed state on, each with the state before, the input, the output and the state
after, so that a property may speak about the whole past.

* `Recorded.invariant`: a relation between past and state that each step extends;
* `exists_recorded`: a machine that always answers under such a relation has a history for
  every sequence of inputs;
* `Recorded.split`: the past of any step is a history of its own.
-/

namespace Foundation.History

open Foundation.Machine

/-- One step of a machine. -/
structure Step (σ ι ο : Type) where
  before : σ
  input : ι
  output : ο
  after : σ

/-- The steps of a machine from the state `s₀` on, in order, ending in a state. -/
inductive Recorded {σ ι ο : Type} (step : σ → ι → Checked (ο × σ)) (s₀ : σ) :
    List (Step σ ι ο) → σ → Prop
  | nil : Recorded step s₀ [] s₀
  | snoc {past : List (Step σ ι ο)} {s s' : σ} {i : ι} {o : ο} :
      Recorded step s₀ past s → step s i = .ok (o, s') →
      Recorded step s₀ (past ++ [⟨s, i, o, s'⟩]) s'

variable {σ ι ο : Type} {step : σ → ι → Checked (ο × σ)} {s₀ : σ}
  {I : List (Step σ ι ο) → σ → Prop} {A : ι → Prop}

/-- **Invariants over the past.**  What holds of an empty past and is extended by every step on
an admitted input holds of every history of admitted inputs. -/
theorem Recorded.invariant (h₀ : I [] s₀)
    (hstep : ∀ past s i o s', A i → I past s → step s i = .ok (o, s') →
      I (past ++ [⟨s, i, o, s'⟩]) s')
    {xs : List (Step σ ι ο)} {s : σ} (h : Recorded step s₀ xs s) (hA : ∀ x ∈ xs, A x.input) :
    I xs s := by
  induction h with
  | nil => exact h₀
  | snoc _ hnext ih =>
      apply hstep _ _ _ _ _ (hA _ (List.mem_append_right _ (List.mem_singleton_self _))) _ hnext
      exact ih fun x hx => hA x (List.mem_append_left _ hx)

/-- **Progress.**  A machine that answers every admitted input under an invariant has a history
for every sequence of admitted inputs. -/
theorem exists_recorded (h₀ : I [] s₀)
    (hstep : ∀ past s i o s', A i → I past s → step s i = .ok (o, s') →
      I (past ++ [⟨s, i, o, s'⟩]) s')
    (hreturns : ∀ past s i, A i → I past s → Returns (step s i))
    (inputs : List ι) (hA : ∀ i ∈ inputs, A i) :
    ∃ xs s, Recorded step s₀ xs s ∧ xs.map Step.input = inputs := by
  induction inputs using List.reverseRecOn with
  | nil => exact ⟨[], s₀, Recorded.nil, rfl⟩
  | append_singleton inputs i ih =>
      obtain ⟨xs, s, hxs, hmap⟩ := ih fun j hj => hA j (List.mem_append_left _ hj)
      have hI : I xs s := hxs.invariant h₀ hstep (by
        intro x hx
        apply hA
        rw [← hmap]
        exact List.mem_append_left _ (List.mem_map_of_mem hx))
      obtain ⟨⟨o, s'⟩, hnext⟩ := hreturns xs s i (hA i (by simp)) hI
      refine ⟨xs ++ [⟨s, i, o, s'⟩], s', hxs.snoc hnext, ?_⟩
      rw [List.map_append, hmap, List.map_singleton]

/-- The last step of a history. -/
theorem Recorded.last {xs : List (Step σ ι ο)} {x : Step σ ι ο} {s : σ}
    (h : Recorded step s₀ (xs ++ [x]) s) :
    Recorded step s₀ xs x.before ∧ step x.before x.input = .ok (x.output, x.after) ∧
      s = x.after := by
  generalize hys : xs ++ [x] = ys at h
  cases h with
  | nil => simp at hys
  | snoc hpast hnext =>
      obtain ⟨rfl, hx⟩ := List.append_inj' hys rfl
      obtain rfl := List.singleton_injective hx
      exact ⟨hpast, hnext, rfl⟩

/-- The first part of a history is a history. -/
theorem Recorded.first_part {xs ys : List (Step σ ι ο)} {s : σ}
    (h : Recorded step s₀ (xs ++ ys) s) : ∃ s', Recorded step s₀ xs s' := by
  induction ys using List.reverseRecOn generalizing s with
  | nil => exact ⟨s, by rwa [List.append_nil] at h⟩
  | append_singleton ys y ih =>
      rw [← List.append_assoc] at h
      exact ih h.last.1

/-- **The past of a step** is a history that ends in the state before it. -/
theorem Recorded.split {past future : List (Step σ ι ο)} {x : Step σ ι ο} {s : σ}
    (h : Recorded step s₀ (past ++ x :: future) s) :
    Recorded step s₀ past x.before ∧ Recorded step s₀ (past ++ [x]) x.after ∧
      step x.before x.input = .ok (x.output, x.after) := by
  rw [← List.singleton_append, ← List.append_assoc] at h
  obtain ⟨s', h'⟩ := h.first_part
  obtain ⟨hpast, hnext, rfl⟩ := h'.last
  exact ⟨hpast, h', hnext⟩

end Foundation.History
