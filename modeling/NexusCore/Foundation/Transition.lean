import Mathlib

/-!
# Runs of a partial transition function

A system takes one event at a time; an event that is not possible in a state has no
successor.  `run step s es` is the state after the events, and `EachStep step P s es` says that
every step on the way meets `P`.

* `run_invariant`: an invariant that each step keeps holds after the run;
* `eachStep_iff`: a step of a run is known by the events before it;
* `EachStep.imp`: what an invariant gives for one step, it gives for each step of the run;
* `eachStep_backward`: what the last state has and each step hands back, every state had;
* `EachStep.eq_of_le`: a quantity that no step lowers and that is no greater at the end
  than at the start is the same all along.
-/

namespace Foundation.Transition

variable {σ ε : Type*} (step : σ → ε → Option σ)

/-- The state after a sequence of events, if each of them is possible. -/
def run : σ → List ε → Option σ
  | s, [] => some s
  | s, e :: es => (step s e).bind fun s' => run s' es

/-- Every step of a run meets `P`, a property of the state before, the event and the state
after. -/
def EachStep (P : σ → ε → σ → Prop) : σ → List ε → Prop
  | _, [] => True
  | s, e :: es => ∀ s', step s e = some s' → P s e s' ∧ EachStep P s' es

instance EachStep.decidable {P : σ → ε → σ → Prop} [∀ s e s', Decidable (P s e s')] :
    ∀ s es, Decidable (EachStep step P s es)
  | _, [] => isTrue trivial
  | s, e :: es =>
      match h : step s e with
      | none => isTrue fun s' hs' => by cases h.symm.trans hs'
      | some s₁ =>
          have : Decidable (EachStep step P s₁ es) := EachStep.decidable s₁ es
          decidable_of_iff (P s e s₁ ∧ EachStep step P s₁ es)
            ⟨fun hP s' hs' => by cases h.symm.trans hs'; exact hP, fun hP => hP s₁ h⟩

variable {step} {P Q : σ → ε → σ → Prop} {I : σ → Prop} {s s' : σ} {es : List ε}

theorem run_cons {e : ε} : run step s (e :: es) = some s' ↔
    ∃ s₁, step s e = some s₁ ∧ run step s₁ es = some s' := Option.bind_eq_some_iff

theorem run_append (s : σ) (es₁ es₂ : List ε) :
    run step s (es₁ ++ es₂) = (run step s es₁).bind fun s' => run step s' es₂ := by
  induction es₁ generalizing s with
  | nil => rfl
  | cons e es₁ ih =>
      rw [List.cons_append, run, run, Option.bind_assoc]
      congr 1
      funext s'
      exact ih s'

theorem eachStep_of_forall (h : ∀ e ∈ es, ∀ s s', P s e s') : EachStep step P s es := by
  induction es generalizing s with
  | nil => trivial
  | cons e es ih =>
      intro s' _
      refine ⟨h e List.mem_cons_self s s', ih fun e' he' => ?_⟩
      exact h e' (List.mem_cons_of_mem e he')

/-- **Invariants.** What each step keeps holds after the run. -/
theorem run_invariant (hI : ∀ s e s', I s → P s e s' → step s e = some s' → I s') (h : I s)
    (hP : EachStep step P s es) (hrun : run step s es = some s') : I s' := by
  induction es generalizing s with
  | nil =>
      cases hrun
      exact h
  | cons e es ih =>
      obtain ⟨s₁, hstep, hrest⟩ := run_cons.mp hrun
      obtain ⟨hfirst, hP⟩ := hP s₁ hstep
      exact ih (hI s e s₁ h hfirst hstep) hP hrest

/-- **Steps under an invariant.** -/
theorem EachStep.imp (hI : ∀ s e s', I s → P s e s' → step s e = some s' → I s' ∧ Q s e s')
    (h : I s) (hP : EachStep step P s es) : EachStep step Q s es := by
  induction es generalizing s with
  | nil => trivial
  | cons e es ih =>
      intro s₁ hstep
      obtain ⟨hfirst, hP⟩ := hP s₁ hstep
      obtain ⟨h₁, hQ⟩ := hI s e s₁ h hfirst hstep
      exact ⟨hQ, ih h₁ hP⟩

/-- **Each step by its past**: the step after any part of the events meets `P`. -/
theorem eachStep_iff : EachStep step P s es ↔
    ∀ past e future s₁ s₂, es = past ++ e :: future → run step s past = some s₁ →
      step s₁ e = some s₂ → P s₁ e s₂ := by
  induction es generalizing s with
  | nil =>
      exact iff_of_true trivial fun past e future _ _ hsplit =>
        absurd hsplit.symm (List.append_ne_nil_of_right_ne_nil past (List.cons_ne_nil e future))
  | cons e es ih =>
      constructor
      · intro hP past e' future s₁ s₂ hsplit hrun hstep
        cases past with
        | nil =>
            cases hsplit
            cases hrun
            exact (hP s₂ hstep).1
        | cons e₁ past =>
            cases hsplit
            obtain ⟨s₀, hfirst, hrest⟩ := run_cons.mp hrun
            exact ih.mp (hP s₀ hfirst).2 past e' future s₁ s₂ rfl hrest hstep
      · intro hall s₀ hfirst
        refine ⟨hall [] e es s s₀ rfl rfl hfirst, ih.mpr ?_⟩
        intro past e' future s₁ s₂ hsplit hrun hstep
        exact hall (e :: past) e' future s₁ s₂ (congrArg (e :: ·) hsplit)
          (run_cons.mpr ⟨s₀, hfirst, hrun⟩) hstep

theorem EachStep.and (hP : EachStep step P s es) (hQ : EachStep step Q s es) :
    EachStep step (fun s e s' => P s e s' ∧ Q s e s') s es := by
  induction es generalizing s with
  | nil => trivial
  | cons e es ih =>
      intro s₁ hstep
      have hfirstP := hP s₁ hstep
      have hfirstQ := hQ s₁ hstep
      exact ⟨⟨hfirstP.1, hfirstQ.1⟩, ih hfirstP.2 hfirstQ.2⟩

/-- **Backward along a run.** If the state after a step has `J` only when the state before it had
it, and the step met `P`, then a run that ends in `J` had `J` at first, and `P` all along. -/
theorem eachStep_backward {J : σ → Prop} (hI : ∀ s e s', I s → step s e = some s' → I s')
    (hJ : ∀ s e s', I s → step s e = some s' → J s' → J s ∧ P s e s') (h : I s)
    (hrun : run step s es = some s') (hend : J s') : J s ∧ EachStep step P s es := by
  induction es generalizing s with
  | nil =>
      cases hrun
      exact ⟨hend, trivial⟩
  | cons e es ih =>
      obtain ⟨s₁, hstep, hrest⟩ := run_cons.mp hrun
      have hrec := ih (hI s e s₁ h hstep) hrest
      have hfirst := hJ s e s₁ h hstep hrec.1
      refine ⟨hfirst.1, ?_⟩
      intro s₂ hs₂
      cases hstep.symm.trans hs₂
      exact ⟨hfirst.2, hrec.2⟩

section Potential

variable {ι : Type*} [PartialOrder ι] {φ : σ → ι}

theorem EachStep.le (h : EachStep step (fun s _ s' => φ s ≤ φ s') s es)
    (hrun : run step s es = some s') : φ s ≤ φ s' := by
  induction es generalizing s with
  | nil =>
      cases hrun
      exact le_refl _
  | cons e es ih =>
      obtain ⟨s₁, hstep, hrest⟩ := run_cons.mp hrun
      obtain ⟨hfirst, h⟩ := h s₁ hstep
      exact le_trans hfirst (ih h hrest)

/-- **A potential that ends where it began never moved.** -/
theorem EachStep.eq_of_le (h : EachStep step (fun s _ s' => φ s ≤ φ s') s es)
    (hrun : run step s es = some s') (hend : φ s' ≤ φ s) :
    EachStep step (fun _ _ s₁ => φ s₁ = φ s) s es := by
  induction es generalizing s with
  | nil => trivial
  | cons e es ih =>
      intro s₁ hs₁
      obtain ⟨s₂, hstep, hrest⟩ := run_cons.mp hrun
      cases hstep.symm.trans hs₁
      obtain ⟨hfirst, h⟩ := h s₁ hs₁
      have heq : φ s₁ = φ s := le_antisymm (le_trans (h.le hrest) hend) hfirst
      have hrec := ih h hrest (le_trans hend hfirst)
      rw [heq] at hrec
      exact ⟨heq, hrec⟩

end Potential

end Foundation.Transition
