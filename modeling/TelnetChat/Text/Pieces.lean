import Mathlib.Data.List.TakeWhile

/-!
# Pieces of a list between separators

`List.splitOn c w` is the list of the maximal `c`-free pieces of `w`, and the
only list of `c`-free pieces that gives back `w` when joined with `c`
(`isSplit_iff`).  This file reads its first piece, bounds the length of every
piece, and places the pieces in the list (`placed_splitOn`).
-/

namespace Text

/-! ## Places of lists in a list -/

section Placed

variable {α : Type} {w t : List α}

/-- The lists `ws` stand in `w` one after the other, each of them whole.  At least
one element of `w` stands between two of them. -/
def Placed (w : List α) (ws : List (List α)) : Prop :=
  ∃ places : List (Nat × List α), places.map Prod.snd = ws ∧
    (∀ p ∈ places, p.1 + p.2.length ≤ w.length ∧ (w.drop p.1).take p.2.length = p.2) ∧
    places.Pairwise fun p q => p.1 + p.2.length < q.1

theorem placed_self (w : List α) : Placed w [w] := ⟨[(0, w)], rfl, by simp, by simp⟩

/-- The empty list stands at the end. -/
theorem placed_empty (w : List α) : Placed w [[]] := ⟨[(w.length, [])], rfl, by simp, by simp⟩

/-- A piece stands before the pieces of what follows its separator. -/
theorem Placed.cons {ws : List (List α)} (h : Placed t ws) (a : List α) (c : α) :
    Placed (a ++ c :: t) (a :: ws) := by
  obtain ⟨places, hws, hplaces, hpairs⟩ := h
  refine ⟨(0, a) :: places.map fun p => (p.1 + (a.length + 1), p.2), ?_, ?_, ?_⟩
  · simp [← hws]
  · intro p hp
    rcases List.mem_cons.mp hp with rfl | hp
    · simp
    · obtain ⟨q, hq, rfl⟩ := List.mem_map.mp hp
      obtain ⟨hle, htake⟩ := hplaces q hq
      have hdrop : (a ++ c :: t).drop (q.1 + (a.length + 1)) = t.drop q.1 := by
        rw [show q.1 + (a.length + 1) = a.length + (q.1 + 1) by omega, List.drop_append]
        simp
      refine ⟨?_, ?_⟩
      · simp only [List.length_append, List.length_cons]
        omega
      · rw [hdrop, htake]
  · refine List.pairwise_cons.mpr ⟨?_, ?_⟩
    · intro p hp
      obtain ⟨q, _, rfl⟩ := List.mem_map.mp hp
      simp only
      omega
    · refine List.pairwise_map.mpr (hpairs.imp ?_)
      intro p q hpq
      simp only
      omega

theorem Placed.take {ws : List (List α)} (h : Placed w ws) (n : Nat) : Placed w (ws.take n) := by
  obtain ⟨places, rfl, hplaces, hpairs⟩ := h
  refine ⟨places.take n, List.map_take, ?_, hpairs.sublist (List.take_sublist n places)⟩
  intro p hp
  exact hplaces p (List.mem_of_mem_take hp)

end Placed

/-! ## Pieces -/

variable {α : Type} [DecidableEq α] {c : α} {w a t : List α}

/-- A list is its first piece, or starts with it and a separator. -/
theorem first_piece (c : α) (w : List α) : c ∉ w ∨ ∃ a t, w = a ++ c :: t ∧ c ∉ a := by
  by_cases h : c ∈ w
  · exact Or.inr (List.eq_append_cons_of_mem h)
  · exact Or.inl h

theorem takeWhile_piece (h : c ∉ a) : (a ++ c :: t).takeWhile (· ≠ c) = a := by
  rw [List.takeWhile_append_of_pos (by
    intro x hx
    simpa using fun hxc : x = c => h (hxc ▸ hx))]
  simp

theorem takeWhile_of_notMem (h : c ∉ w) : w.takeWhile (· ≠ c) = w :=
  List.takeWhile_eq_self_iff.mpr fun x hx => by simpa using fun hxc : x = c => h (hxc ▸ hx)

theorem notMem_takeWhile (c : α) (w : List α) : c ∉ w.takeWhile (· ≠ c) := by
  intro h
  simpa using List.mem_takeWhile_imp h

theorem takeWhile_eq_self : w.takeWhile (· ≠ c) = w ↔ c ∉ w :=
  ⟨fun h => h ▸ notMem_takeWhile c w, takeWhile_of_notMem⟩

/-- The first piece. -/
theorem splitOn_getElem?_zero (c : α) (w : List α) :
    (w.splitOn c)[0]? = some (w.takeWhile (· ≠ c)) := by
  rcases first_piece c w with h | ⟨a, t, rfl, ha⟩
  · rw [List.splitOn_eq_singleton h, takeWhile_of_notMem h]
    rfl
  · rw [List.splitOn_append_cons_self_of_not_mem ha, takeWhile_piece ha]
    rfl

/-- Induction over the pieces of a list. -/
theorem piece_induction {P : List α → Prop} (hlast : ∀ w, c ∉ w → P w)
    (hpiece : ∀ a t, c ∉ a → P t → P (a ++ c :: t)) (w : List α) : P w := by
  induction hn : w.length using Nat.strongRecOn generalizing w with
  | ind n ih =>
      subst hn
      rcases first_piece c w with h | ⟨a, t, rfl, ha⟩
      · exact hlast w h
      · refine hpiece a t ha (ih t.length ?_ t rfl)
        rw [List.length_append, List.length_cons]
        omega

theorem length_le_of_mem_splitOn {seg : List α} (h : seg ∈ w.splitOn c) :
    seg.length ≤ w.length := by
  induction w using piece_induction (c := c) with
  | hlast w hw =>
      rw [List.splitOn_eq_singleton hw, List.mem_singleton] at h
      rw [h]
  | hpiece a t ha ih =>
      rw [List.splitOn_append_cons_self_of_not_mem ha] at h
      rw [List.length_append, List.length_cons]
      rcases List.mem_cons.mp h with rfl | htail
      · omega
      · have hle := ih htail
        omega

/-- A list with a separator is longer than each of its pieces. -/
theorem length_lt_of_mem_splitOn {seg : List α} (hc : c ∈ w) (hseg : seg ∈ w.splitOn c) :
    seg.length < w.length := by
  obtain ⟨a, t, rfl, ha⟩ := List.eq_append_cons_of_mem hc
  rw [List.splitOn_append_cons_self_of_not_mem ha] at hseg
  rw [List.length_append, List.length_cons]
  rcases List.mem_cons.mp hseg with rfl | htail
  · omega
  · have hle := length_le_of_mem_splitOn htail
    omega

/-- `ws` are the pieces of `w` between the separators `c`: one more than there
are separators, none with a separator, and `w` when they are joined. -/
structure IsSplit (c : α) (w : List α) (ws : List (List α)) : Prop where
  length_eq : ws.length = w.count c + 1
  separator_free : ∀ seg ∈ ws, c ∉ seg
  join_eq : [c].intercalate ws = w

theorem isSplit_splitOn (c : α) (w : List α) : IsSplit c w (w.splitOn c) := by
  refine ⟨?_, ?_, List.intercalate_splitOn c⟩
  · induction w using piece_induction (c := c) with
    | hlast w hw => rw [List.splitOn_eq_singleton hw, List.count_eq_zero.mpr hw, List.length_singleton]
    | hpiece a t ha ih =>
        rw [List.splitOn_append_cons_self_of_not_mem ha, List.length_cons, ih, List.count_append,
          List.count_eq_zero.mpr ha, List.count_cons_self, Nat.zero_add]
  · induction w using piece_induction (c := c) with
    | hlast w hw =>
        intro seg hseg
        rw [List.splitOn_eq_singleton hw, List.mem_singleton] at hseg
        rwa [hseg]
    | hpiece a t ha ih =>
        intro seg hseg
        rw [List.splitOn_append_cons_self_of_not_mem ha] at hseg
        rcases List.mem_cons.mp hseg with rfl | htail
        · exact ha
        · exact ih seg htail

theorem isSplit_iff {ws : List (List α)} : IsSplit c w ws ↔ ws = w.splitOn c := by
  constructor
  · intro h
    have hne : ws ≠ [] := List.ne_nil_of_length_eq_add_one h.length_eq
    rw [← h.join_eq, List.splitOn_intercalate c h.separator_free hne]
  · rintro rfl
    exact isSplit_splitOn c w

/-- The pieces of a list stand in it in their order. -/
theorem placed_splitOn (c : α) (w : List α) : Placed w (w.splitOn c) := by
  induction w using piece_induction (c := c) with
  | hlast w hw =>
      rw [List.splitOn_eq_singleton hw]
      exact placed_self w
  | hpiece a t ha ih =>
      rw [List.splitOn_append_cons_self_of_not_mem ha]
      exact ih.cons a c

end Text
