import NexusCore.Foundation.Transition

/-!
# One part of a system, seen on its own

A system is made of parts, and an event concerns some of them.  `Shows view see` says that the
part which `view` picks out of the state takes a step of its own for each event that `see`
shows to it, and does not change at any other event.

* `Shows.run`: a run of the system is a run of the part, on the events that it is shown;
* `Shows.run_congr`: what becomes of the part does not depend on the other events, nor on the
  rest of the state;
* `Hosts.run`: a part whose steps can all be taken inside the system has its runs there.
-/

namespace Foundation.Simulation

open Foundation.Transition

variable {σ τ ε ε' : Type*} {step : σ → ε → Option σ} {step' : τ → ε' → Option τ}

/-- A system shows one of its parts. -/
structure Shows (step : σ → ε → Option σ) (step' : τ → ε' → Option τ) (view : σ → τ)
    (see : ε → Option ε') : Prop where
  seen : ∀ {s e s' e'}, step s e = some s' → see e = some e' →
    step' (view s) e' = some (view s')
  unseen : ∀ {s e s'}, step s e = some s' → see e = none → view s' = view s

/-- The steps of a part can be taken in the system. -/
def Hosts (step : σ → ε → Option σ) (step' : τ → ε' → Option τ) (view : σ → τ)
    (embed : ε' → ε) : Prop :=
  ∀ {s e' t'}, step' (view s) e' = some t' → ∃ s', step s (embed e') = some s' ∧ view s' = t'

variable {view : σ → τ} {see : ε → Option ε'} {s s' s₁ s₁' s₂ s₂' : σ} {es es₁ es₂ : List ε}

/-- **A run of the system is a run of the part.** -/
theorem Shows.run (h : Shows step step' view see) (hrun : run step s es = some s') :
    Transition.run step' (view s) (es.filterMap see) = some (view s') := by
  induction es generalizing s with
  | nil =>
      cases hrun
      rfl
  | cons e es ih =>
      obtain ⟨s₁, hstep, hrest⟩ := run_cons.mp hrun
      cases hsee : see e with
      | none =>
          rw [List.filterMap_cons_none hsee, ← h.unseen hstep hsee]
          exact ih hrest
      | some e' =>
          rw [List.filterMap_cons_some hsee]
          exact run_cons.mpr ⟨view s₁, h.seen hstep hsee, ih hrest⟩

/-- **Non-interference.**  Two runs that show the part the same events, from states that show
it alike, end in states that show it alike. -/
theorem Shows.run_congr (h : Shows step step' view see)
    (hrun₁ : Transition.run step s₁ es₁ = some s₁')
    (hrun₂ : Transition.run step s₂ es₂ = some s₂') (hview : view s₁ = view s₂)
    (hsee : es₁.filterMap see = es₂.filterMap see) : view s₁' = view s₂' := by
  have hpart₁ := h.run hrun₁
  rw [hview, hsee] at hpart₁
  exact Option.some.inj (hpart₁.symm.trans (h.run hrun₂))

/-- **A run of the part can be taken in the system.** -/
theorem Hosts.run {embed : ε' → ε} (h : Hosts step step' view embed) {es' : List ε'} {t' : τ}
    (hrun : Transition.run step' (view s) es' = some t') :
    ∃ s', Transition.run step s (es'.map embed) = some s' ∧ view s' = t' := by
  induction es' generalizing s with
  | nil =>
      cases hrun
      exact ⟨s, rfl, rfl⟩
  | cons e' es' ih =>
      obtain ⟨t₁, hstep, hrest⟩ := run_cons.mp hrun
      obtain ⟨s₁, hs₁, rfl⟩ := h hstep
      obtain ⟨s', hs', hview⟩ := ih hrest
      exact ⟨s', run_cons.mpr ⟨s₁, hs₁, hs'⟩, hview⟩

end Foundation.Simulation
