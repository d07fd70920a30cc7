import Mathlib

/-!
# Loops that go on, leave with a value, or fault

A loop is its body, a function from the state to the next state or to the value the loop
leaves with.  `run` iterates the body under a bound on the number of iterations, and
`trace` lists the states that the iterations started from.

The rules that carry every use:

* `isSome_run`: a measure that falls with every iteration bounds the iterations;
* `trace_rule`: what every turn preserves, of the state and of the states before it, holds
  when the loop is left, and the loop does not fault;
* `trace_invariant` and `error_of_run` for loops that may fault: what every turn preserves
  holds wherever the loop comes, and a fault is the fault of one turn;
* `ok_of_run`: what the turns give for a value that the loop leaves with, if it does.
-/

namespace Foundation.Loop

variable {ε σ β : Type*}

/-- A loop body: it faults, goes on with a new state, or leaves the loop with a value. -/
abbrev Body (ε σ β : Type*) := σ → Except ε (σ ⊕ β)

/-- At most `fuel` iterations; `none` when the loop is still going then. -/
def run (step : Body ε σ β) : ℕ → σ → Option (Except ε β)
  | 0, _ => none
  | fuel + 1, s =>
      match step s with
      | .error e => some (.error e)
      | .ok (.inl s') => run step fuel s'
      | .ok (.inr b) => some (.ok b)

/-- The states from which the first `fuel` iterations start. -/
def trace (step : Body ε σ β) : ℕ → σ → List σ
  | 0, _ => []
  | fuel + 1, s =>
      match step s with
      | .ok (.inl s') => s :: trace step fuel s'
      | _ => [s]

variable {step : Body ε σ β}

/-- More fuel does not change an answer. -/
theorem run_mono {fuel fuel' : ℕ} {s : σ} {r : Except ε β} (h : run step fuel s = some r)
    (hle : fuel ≤ fuel') : run step fuel' s = some r := by
  induction fuel generalizing fuel' s with
  | zero => cases h
  | succ fuel ih =>
      obtain ⟨fuel', rfl⟩ : ∃ k, fuel' = k + 1 := ⟨fuel' - 1, by omega⟩
      rw [run] at h ⊢
      cases hs : step s with
      | error e =>
          rw [hs] at h
          exact h
      | ok next =>
          rw [hs] at h
          cases next with
          | inl s' => exact ih h (Nat.le_of_succ_le_succ hle)
          | inr b => exact h

/-- **Termination by a measure**, under an invariant that the body preserves. -/
theorem isSome_run {I : σ → Prop} {μ : σ → ℕ}
    (hstep : ∀ s s', I s → step s = .ok (.inl s') → I s' ∧ μ s' < μ s) {fuel : ℕ} {s : σ}
    (hs : I s) (hfuel : μ s < fuel) : (run step fuel s).isSome := by
  induction fuel generalizing s with
  | zero => omega
  | succ fuel ih =>
      rw [run]
      cases hnext : step s with
      | error e => rfl
      | ok next =>
          cases next with
          | inl s' =>
              obtain ⟨hs', hlt⟩ := hstep s s' hs hnext
              exact ih hs' (by omega)
          | inr b => rfl

/-- **The invariant rule.**  Every turn from a state that satisfies the invariant goes on to
such a state or leaves with a value as wanted; then the loop does not fault, and what it
leaves with is as wanted.  The invariant may speak about the states of the earlier turns. -/
theorem trace_rule {I : List σ → σ → Prop} {Q : List σ → β → Prop}
    (turn : ∀ hist s, I hist s → (∃ s', step s = .ok (.inl s') ∧ I (hist ++ [s]) s') ∨
      ∃ b, step s = .ok (.inr b) ∧ Q (hist ++ [s]) b)
    {fuel : ℕ} (hist : List σ) {s : σ} {r : Except ε β} (hs : I hist s)
    (h : run step fuel s = some r) : ∃ b, r = .ok b ∧ Q (hist ++ trace step fuel s) b := by
  induction fuel generalizing hist s with
  | zero => cases h
  | succ fuel ih =>
      rw [run] at h
      rw [trace]
      rcases turn hist s hs with ⟨s', hgo, hs'⟩ | ⟨b, hleave, hb⟩
      · rw [hgo] at h ⊢
        obtain ⟨b, hr, hb⟩ := ih (hist ++ [s]) hs' h
        rw [List.append_assoc] at hb
        exact ⟨b, hr, hb⟩
      · rw [hleave] at h ⊢
        cases h
        exact ⟨b, rfl, hb⟩

/-- The states of a loop: the first one, and those after a turn that goes on. -/
theorem trace_succ (step : Body ε σ β) (fuel : ℕ) (s : σ) :
    (∃ s', step s = .ok (.inl s') ∧ trace step (fuel + 1) s = s :: trace step fuel s') ∨
      trace step (fuel + 1) s = [s] := by
  cases hs : step s with
  | error e =>
      right
      rw [trace, hs]
  | ok next =>
      cases next with
      | inl s' =>
          left
          refine ⟨s', rfl, ?_⟩
          rw [trace, hs]
      | inr b =>
          right
          rw [trace, hs]

/-- **What a loop comes through**, faulting or not: an invariant of the state and of the states
before it holds at every turn. -/
theorem trace_invariant {I : List σ → σ → Prop}
    (turn : ∀ hist s s', I hist s → step s = .ok (.inl s') → I (hist ++ [s]) s')
    {fuel : ℕ} {hist : List σ} {s : σ} (hs : I hist s) {past rest : List σ} {s' : σ}
    (h : trace step fuel s = past ++ s' :: rest) : I (hist ++ past) s' := by
  induction fuel generalizing hist s past with
  | zero => exact absurd h.symm (List.append_ne_nil_of_right_ne_nil _ (List.cons_ne_nil _ _))
  | succ fuel ih =>
      cases past with
      | nil =>
          have hfirst : s = s' := by
            rcases trace_succ step fuel s with ⟨_, -, htrace⟩ | htrace
            · exact (List.cons.inj (htrace.symm.trans h)).1
            · exact (List.cons.inj (htrace.symm.trans h)).1
          rw [← hfirst, List.append_nil]
          exact hs
      | cons first past =>
          rcases trace_succ step fuel s with ⟨next, hgo, htrace⟩ | htrace
          · obtain ⟨rfl, hrest⟩ := List.cons.inj (htrace.symm.trans h)
            have hnext := ih (turn hist s next hs hgo) hrest
            rwa [List.append_assoc] at hnext
          · have hrest := (List.cons.inj (htrace.symm.trans h)).2
            exact absurd hrest.symm
              (List.append_ne_nil_of_right_ne_nil _ (List.cons_ne_nil _ _))

/-- **Partial correctness.**  A value that the loop leaves with is as wanted, if the invariant is
kept by the turns that go on, and gives what is wanted of those that leave. -/
theorem ok_of_run {I : σ → Prop} {Q : β → Prop}
    (turn : ∀ s s', I s → step s = .ok (.inl s') → I s')
    (leave : ∀ s b, I s → step s = .ok (.inr b) → Q b) {fuel : ℕ} {s : σ} {b : β} (hs : I s)
    (h : run step fuel s = some (.ok b)) : Q b := by
  induction fuel generalizing s with
  | zero => cases h
  | succ fuel ih =>
      rw [run] at h
      cases hnext : step s with
      | error e =>
          rw [hnext] at h
          cases h
      | ok next =>
          rw [hnext] at h
          cases next with
          | inl s' => exact ih (turn s s' hs hnext) h
          | inr b' =>
              cases h
              exact leave s b hs hnext

/-- **A fault is the fault of one turn.** -/
theorem error_of_run {fuel : ℕ} {s : σ} {e : ε} (h : run step fuel s = some (.error e)) :
    ∃ s' ∈ trace step fuel s, step s' = .error e := by
  induction fuel generalizing s with
  | zero => cases h
  | succ fuel ih =>
      rw [run] at h
      rw [trace]
      cases hs : step s with
      | error e' =>
          rw [hs] at h
          cases h
          exact ⟨s, List.mem_singleton_self s, hs⟩
      | ok next =>
          rw [hs] at h
          cases next with
          | inl next =>
              obtain ⟨s', hmem, hfault⟩ := ih h
              exact ⟨s', List.mem_cons_of_mem s hmem, hfault⟩
          | inr b => cases h

end Foundation.Loop
