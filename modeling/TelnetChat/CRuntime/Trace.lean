import Mathlib.Control.Monad.Writer
import TelnetChat.CRuntime.Exec

/-!
# Computations that record their accesses

A `Traced` computation is a C computation that also records events.  Its erasure
drops them.  It commutes with `>>=`, so a function and its traced copy are
compared one statement at a time.

`Emits P m Q` is the triple of events: when `m` returns, all that it recorded
satisfies `P`, and its result satisfies `Q`.
-/

namespace CRuntime

/-- A C computation that records events. -/
abbrev Traced (τ α : Type) : Type := WriterT (List τ) Exec α

namespace Traced

variable {τ α β : Type}

/-- The computation without its events. -/
def erase (m : Traced τ α) : Exec α := Prod.fst <$> m.run

theorem run_bind (m : Traced τ α) (f : α → Traced τ β) :
    (m >>= f).run = m.run >>= fun p => (fun q => (q.1, p.2 ++ q.2)) <$> (f p.1).run := rfl

/-- An erasure that returns is the result of a traced run. -/
theorem erase_eq_ok {m : Traced τ α} {a : α} : erase m = .ok a ↔ ∃ log, m.run = .ok (a, log) := by
  unfold erase
  cases m.run with
  | error e => simp
  | ok p =>
      obtain ⟨b, log⟩ := p
      simp

/-! ## Erasure -/

@[simp] theorem erase_pure (a : α) : erase (pure a : Traced τ α) = pure a := rfl

@[simp] theorem erase_tell (log : List τ) : erase (tell log : Traced τ PUnit) = pure ⟨⟩ := rfl

@[simp] theorem erase_lift (m : Exec α) : erase (monadLift m : Traced τ α) = m := by
  cases m with
  | error e => rfl
  | ok a => rfl

@[simp] theorem erase_bind (m : Traced τ α) (f : α → Traced τ β) :
    erase (m >>= f) = erase m >>= fun a => erase (f a) := by
  unfold erase
  rw [run_bind]
  cases m.run with
  | error e => rfl
  | ok p =>
      show Prod.fst <$> ((fun q => (q.1, p.2 ++ q.2)) <$> (f p.1).run) = Prod.fst <$> (f p.1).run
      cases (f p.1).run with
      | error e => rfl
      | ok q => rfl

/-! ## Events -/

def Emits (P : τ → Prop) (m : Traced τ α) (Q : α → Prop) : Prop :=
  ∀ a log, m.run = .ok (a, log) → Q a ∧ ∀ e ∈ log, P e

section Emits

variable {P : τ → Prop} {m : Traced τ α} {f : α → Traced τ β} {Q : α → Prop} {R : β → Prop}

theorem emits_pure {a : α} (h : Q a) : Emits P (pure a : Traced τ α) Q := by
  intro b log hrun
  cases hrun
  exact ⟨h, fun e he => absurd he List.not_mem_nil⟩

theorem emits_tell {e : τ} (h : P e) : Emits P (tell [e] : Traced τ PUnit) fun _ => True := by
  intro b log hrun
  cases hrun
  exact ⟨trivial, fun e' he' => List.mem_singleton.mp he' ▸ h⟩

theorem emits_lift {m : Exec α} (h : ∀ a, m = .ok a → Q a) :
    Emits P (monadLift m : Traced τ α) Q := by
  intro b log hrun
  cases m with
  | error e => cases hrun
  | ok a =>
      cases hrun
      exact ⟨h _ rfl, fun e he => absurd he List.not_mem_nil⟩

/-- The sequencing rule. -/
theorem Emits.bind (hm : Emits P m Q) (hf : ∀ a, Q a → Emits P (f a) R) :
    Emits P (m >>= f) R := by
  intro b log hrun
  rw [run_bind] at hrun
  obtain ⟨⟨a, log₁⟩, hrun₁, hrest⟩ := bind_eq_ok.mp hrun
  cases hrun₂ : (f a).run with
  | error e =>
      rw [hrun₂] at hrest
      cases hrest
  | ok q =>
      rw [hrun₂] at hrest
      obtain ⟨b', log₂⟩ := q
      cases hrest
      obtain ⟨ha, hlog₁⟩ := hm a log₁ hrun₁
      obtain ⟨hb, hlog₂⟩ := hf a ha _ log₂ hrun₂
      refine ⟨hb, fun e he => ?_⟩
      rcases List.mem_append.mp he with he | he
      · exact hlog₁ e he
      · exact hlog₂ e he

/-- The result is the one of the erasure. -/
theorem Emits.returns {Q' : α → Prop} (h : Emits P m Q) (hm : Returns (erase m) Q') :
    Emits P m Q' := by
  intro a log hrun
  exact ⟨hm.result (erase_eq_ok.mpr ⟨log, hrun⟩), (h a log hrun).2⟩

end Emits

end Traced

end CRuntime
