import Mathlib.Tactic.TypeStar

/-!
# Runs of a transition system

A transition system is a relation `Step s a s'` over states and labels.  A
`Run Step G s₀ s` reaches `s` from `s₀` by steps that each satisfy the guard
`G` at the state before the step.  The guard states what is assumed of a
schedule.  `Reachable` is a run with no guard.
-/

namespace Machine

variable {σ α τ β : Type*}

/-- `s` is reached from `s₀` by steps that satisfy the guard. -/
inductive Run (Step : σ → α → σ → Prop) (G : σ → α → Prop) (s₀ : σ) : σ → Prop where
  | init : Run Step G s₀ s₀
  | step {s s' : σ} {a : α} : Run Step G s₀ s → G s a → Step s a s' → Run Step G s₀ s'

/-- `s` is reached from `s₀`. -/
abbrev Reachable (Step : σ → α → σ → Prop) (s₀ s : σ) : Prop := Run Step (fun _ _ => True) s₀ s

section Run

variable {Step : σ → α → σ → Prop} {G : σ → α → Prop} {s₀ s : σ}

/-- A property that holds at the start and that every guarded step keeps holds
at the end of every guarded run. -/
theorem Run.invariant {I : σ → Prop} (h : Run Step G s₀ s) (h0 : I s₀)
    (hstep : ∀ s a s', G s a → I s → Step s a s' → I s') : I s := by
  induction h with
  | init => exact h0
  | step _ hG hs ih => exact hstep _ _ _ hG ih hs

/-- An invariant of a guarded run holds at each of its steps. -/
theorem Run.strengthen {I : σ → Prop} (h : Run Step G s₀ s) (h0 : I s₀)
    (hstep : ∀ s a s', G s a → I s → Step s a s' → I s') :
    Run Step (fun s a => G s a ∧ I s) s₀ s := by
  induction h with
  | init => exact .init
  | step h hG hs ih => exact .step ih ⟨hG, h.invariant h0 hstep⟩ hs

theorem Run.mono {G' : σ → α → Prop} (h : Run Step G s₀ s) (hG : ∀ s a, G s a → G' s a) :
    Run Step G' s₀ s := by
  induction h with
  | init => exact .init
  | step _ hg hs ih => exact .step ih (hG _ _ hg) hs

theorem Run.reachable (h : Run Step G s₀ s) : Reachable Step s₀ s :=
  h.mono fun _ _ _ => trivial

theorem Run.trans {s' : σ} (h : Run Step G s₀ s) (h' : Run Step G s s') : Run Step G s₀ s' := by
  induction h' with
  | init => exact h
  | step _ hG hs ih => exact .step ih hG hs

theorem Run.single {s' : σ} {a : α} (hG : G s a) (hs : Step s a s') : Run Step G s s' :=
  .step .init hG hs

/-- Forward simulation: if related states answer each guarded step by a guarded
run that ends related, a guarded run is answered by a guarded run. -/
theorem Run.simulate {Step' : τ → β → τ → Prop} {G' : τ → β → Prop} {t₀ : τ} {R : σ → τ → Prop}
    (h : Run Step G s₀ s) (h0 : R s₀ t₀)
    (hstep : ∀ s a s' t, G s a → R s t → Step s a s' → ∃ t', Run Step' G' t t' ∧ R s' t') :
    ∃ t, Run Step' G' t₀ t ∧ R s t := by
  induction h with
  | init => exact ⟨t₀, .init, h0⟩
  | step _ hG hs ih =>
      obtain ⟨t, ht, hR⟩ := ih
      obtain ⟨t', ht', hR'⟩ := hstep _ _ _ _ hG hR hs
      exact ⟨t', ht.trans ht', hR'⟩

end Run

/-! ## Replaying a schedule -/

/-- Follow a list of labels by a step function. -/
def replay (step : σ → α → Option σ) : List α → σ → Option σ
  | [], s => some s
  | a :: as, s => (step s a).bind (replay step as)

/-- What a step function reaches is the end of a run. -/
theorem replay_run {Step : σ → α → σ → Prop} {G : σ → α → Prop} {step : σ → α → Option σ}
    {as : List α} {s s' : σ}
    (hstep : ∀ a ∈ as, ∀ s s', step s a = some s' → G s a ∧ Step s a s')
    (h : replay step as s = some s') : Run Step G s s' := by
  induction as generalizing s with
  | nil =>
      cases h
      exact .init
  | cons a as ih =>
      obtain ⟨t, ht, hrest⟩ := Option.bind_eq_some_iff.mp h
      obtain ⟨hG, hs⟩ := hstep a List.mem_cons_self s t ht
      have hrun := ih (fun b hb => hstep b (List.mem_cons_of_mem a hb)) hrest
      exact (Run.single hG hs).trans hrun

/-- What is seen of the state that a step function reaches is seen at the end of a
run. -/
theorem replay_view {Step : σ → α → σ → Prop} {G : σ → α → Prop} {step : σ → α → Option σ}
    {as : List α} {s : σ} {view : σ → β} {v : β}
    (hstep : ∀ a ∈ as, ∀ s s', step s a = some s' → G s a ∧ Step s a s')
    (h : (replay step as s).map view = some v) : ∃ s', Run Step G s s' ∧ view s' = v := by
  obtain ⟨s', hreplay, hview⟩ := Option.map_eq_some_iff.mp h
  exact ⟨s', replay_run hstep hreplay, hview⟩

end Machine
