import Mathlib.Data.List.Basic
import TelnetChat.Machine.Run

/-!
# Progress of one party

A `Path` is a run that keeps its labels, oldest first.  The turns of a party are the
labels that are its own.

*Ranks.*  If each turn of a party lowers a rank and no other step raises it, then as
many turns as the rank was bring it to zero, whatever is scheduled between them
(`Path.rank_eq_zero`).

*Views.*  If a part of the state changes at the turns of a party only, and then as
the part and the label say, it is what the turns alone make of it
(`Path.view_eq`).
-/

namespace Machine

variable {σ α β γ : Type*}

/-- The steps with the labels `as` lead from `s` to `s'`, and satisfy the guard. -/
inductive Path (Step : σ → α → σ → Prop) (G : σ → α → Prop) : List α → σ → σ → Prop where
  | nil {s : σ} : Path Step G [] s s
  | cons {a : α} {as : List α} {s t s' : σ} : G s a → Step s a t → Path Step G as t s' →
      Path Step G (a :: as) s s'

section Path

variable {Step : σ → α → σ → Prop} {G : σ → α → Prop} {as bs : List α} {s t s' : σ}

theorem Path.run (h : Path Step G as s s') : Run Step G s s' := by
  induction h with
  | nil => exact .init
  | cons hG hs _ ih => exact (Run.single hG hs).trans ih

/-- What a step function reaches is the end of a path. -/
theorem replay_path {step : σ → α → Option σ}
    (hstep : ∀ a ∈ as, ∀ s s', step s a = some s' → G s a ∧ Step s a s')
    (h : replay step as s = some s') : Path Step G as s s' := by
  induction as generalizing s with
  | nil =>
      cases h
      exact .nil
  | cons a as ih =>
      obtain ⟨t, ht, hrest⟩ := Option.bind_eq_some_iff.mp h
      obtain ⟨hG, hs⟩ := hstep a List.mem_cons_self s t ht
      exact .cons hG hs (ih (fun b hb => hstep b (List.mem_cons_of_mem a hb)) hrest)

theorem replay_append {step : σ → α → Option σ} :
    replay step (as ++ bs) s = (replay step as s).bind (replay step bs) := by
  induction as generalizing s with
  | nil => rfl
  | cons a as ih =>
      rw [List.cons_append, replay, replay, Option.bind_assoc]
      congr 1
      funext t
      exact ih

/-- What is seen of the states that a step function reaches, in two parts. -/
theorem replay_path_views {step : σ → α → Option σ} {view : σ → β} {view' : σ → γ} {v : β} {v' : γ}
    (hstep : ∀ a ∈ as ++ bs, ∀ s s', step s a = some s' → G s a ∧ Step s a s')
    (h : (replay step as s).map view = some v) (h' : (replay step (as ++ bs) s).map view' = some v') :
    ∃ t s', Path Step G as s t ∧ view t = v ∧ Path Step G bs t s' ∧ view' s' = v' := by
  obtain ⟨t, ht, hview⟩ := Option.map_eq_some_iff.mp h
  obtain ⟨s', hs', hview'⟩ := Option.map_eq_some_iff.mp h'
  rw [replay_append, ht, Option.bind_some] at hs'
  refine ⟨t, s', replay_path (fun a ha => hstep a (List.mem_append_left bs ha)) ht, hview,
    replay_path (fun a ha => hstep a (List.mem_append_right as ha)) hs', hview'⟩

/-! ## Ranks -/

/-- The steps keep the invariant, the turns lower the rank, and no step raises it. -/
structure Lowers (Step : σ → α → σ → Prop) (G : σ → α → Prop) (I : σ → Prop) (rank : σ → Nat)
    (mine : α → Bool) : Prop where
  keeps : ∀ {s a s'}, G s a → I s → Step s a s' → I s'
  turn : ∀ {s a s'}, G s a → I s → Step s a s' → mine a = true → rank s' ≤ rank s - 1
  other : ∀ {s a s'}, G s a → I s → Step s a s' → mine a = false → rank s' ≤ rank s

variable {I : σ → Prop} {rank : σ → Nat} {mine : α → Bool}

theorem Path.rank_le (h : Path Step G as s s') (hL : Lowers Step G I rank mine) (hI : I s) :
    I s' ∧ rank s' ≤ rank s - as.countP mine := by
  induction h with
  | nil => exact ⟨hI, Nat.le_refl _⟩
  | @cons a as s t s' hG hs _ ih =>
      obtain ⟨hI', hle⟩ := ih (hL.keeps hG hI hs)
      refine ⟨hI', Nat.le_trans hle ?_⟩
      cases hmine : mine a with
      | true =>
          have hturn := hL.turn hG hI hs hmine
          rw [List.countP_cons_of_pos hmine]
          omega
      | false =>
          have hother := hL.other hG hI hs hmine
          rw [List.countP_cons_of_neg (by simp [hmine])]
          omega

/-- As many turns as the rank was bring it to zero. -/
theorem Path.rank_eq_zero (h : Path Step G as s s') (hL : Lowers Step G I rank mine) (hI : I s)
    (hturns : rank s ≤ as.countP mine) : I s' ∧ rank s' = 0 := by
  obtain ⟨hI', hle⟩ := h.rank_le hL hI
  exact ⟨hI', by omega⟩

/-! ## Views -/

/-- The steps keep the invariant, and change the view at the turns only, as `next`
says. -/
structure Follows (Step : σ → α → σ → Prop) (G : σ → α → Prop) (I : σ → Prop) (view : σ → β)
    (own : α → Option γ) (next : β → γ → β) : Prop where
  keeps : ∀ {s a s'}, G s a → I s → Step s a s' → I s'
  turn : ∀ {s a s' x}, G s a → I s → Step s a s' → own a = some x → view s' = next (view s) x
  other : ∀ {s a s'}, G s a → I s → Step s a s' → own a = none → view s' = view s

variable {view : σ → β} {own : α → Option γ} {next : β → γ → β}

theorem Path.view_eq (h : Path Step G as s s') (hF : Follows Step G I view own next) (hI : I s) :
    I s' ∧ view s' = (as.filterMap own).foldl next (view s) := by
  induction h with
  | nil => exact ⟨hI, rfl⟩
  | @cons a as s t s' hG hs _ ih =>
      obtain ⟨hI', hview⟩ := ih (hF.keeps hG hI hs)
      refine ⟨hI', ?_⟩
      cases hown : own a with
      | none => rw [List.filterMap_cons_none hown, hview, hF.other hG hI hs hown]
      | some x =>
          rw [List.filterMap_cons_some hown, List.foldl_cons, hview, hF.turn hG hI hs hown]

end Path

end Machine
