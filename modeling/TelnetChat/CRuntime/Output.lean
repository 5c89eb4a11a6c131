import TelnetChat.CRuntime.Exec

/-!
# Loops that print

A loop over the elements of an array is a fold of the list of them
(`forUp_eq_foldlM`).  A fold that appends to an output prints the elements one after
the other, if each is printed (`foldlM_prints`), and faults if one of them does
(`foldlM_faults`).  The elements are described by a list they are related to.
-/

namespace CRuntime

section Output

variable {ε σ β α γ : Type}

/-- A counting loop that runs over an array. -/
theorem forUp_eq_foldlM {body : Nat → σ → Except ε σ} {run : σ → β → Except ε σ} {ys : List β}
    {i : Nat} (h : ∀ (k : Nat) y, ys[k]? = some y → ∀ s, body (i + k) s = run s y) (s : σ) :
    forUp body ys.length i s = ys.foldlM run s := by
  induction ys generalizing i s with
  | nil => rfl
  | cons y ys ih =>
      rw [List.length_cons, forUp, List.foldlM_cons, ← h 0 y rfl, Nat.add_zero]
      congr 1
      funext t
      refine ih (fun k z hz u => ?_) t
      rw [Nat.add_assoc, Nat.add_comm 1 k]
      exact h (k + 1) z hz u

variable {R : β → α → Prop} {run : List γ → β → Except ε (List γ)} {ys : List β} {zs : List α}

/-- Each element is printed after the others. -/
theorem foldlM_prints (text : α → List γ) (h : List.Forall₂ R ys zs)
    (hrun : ∀ out y z, R y z → z ∈ zs → run out y = .ok (out ++ text z)) (out : List γ) :
    ys.foldlM run out = .ok (out ++ zs.flatMap text) := by
  induction h generalizing out with
  | nil => simp
  | @cons y z ys zs hyz _ ih =>
      rw [List.foldlM_cons, hrun out y z hyz List.mem_cons_self, ok_bind,
        ih (fun out y z hyz hz => hrun out y z hyz (List.mem_cons_of_mem _ hz))]
      simp

/-- The first element that cannot be printed ends the loop. -/
theorem foldlM_faults {e : ε} (text : α → List γ) (bad : α → Prop) (h : List.Forall₂ R ys zs)
    (hgood : ∀ out y z, R y z → ¬ bad z → run out y = .ok (out ++ text z))
    (hbad : ∀ out y z, R y z → bad z → run out y = .error e) (hsome : ∃ z ∈ zs, bad z)
    (out : List γ) : ys.foldlM run out = .error e := by
  induction h generalizing out with
  | nil =>
      obtain ⟨z, hz, _⟩ := hsome
      cases hz
  | @cons y z ys zs hyz _ ih =>
      rw [List.foldlM_cons]
      by_cases hz : bad z
      · rw [hbad out y z hyz hz]
        rfl
      · rw [hgood out y z hyz hz, ok_bind]
        apply ih
        obtain ⟨z', hz', hbad'⟩ := hsome
        rcases List.mem_cons.mp hz' with rfl | hz'
        · exact absurd hbad' hz
        · exact ⟨z', hz', hbad'⟩

end Output

end CRuntime
