import Mathlib.Data.List.Infix
import TelnetChat.Machine.Log

/-!
# Reading a table while it grows

A table is a list of rows.  Rows are added after the others, and entries at the end of
a row; nothing is changed or removed (`Grows`).  A reader walks over the rows and
their entries.  Each of its steps sees the table as it is then, so what it reads
need not be what the table held at any one time.

A reader that comes to the end has read at least the table it started on, and at
most the table it ended on (`Between.snapshot`).
-/

namespace Snapshot

open Machine

variable {α : Type*}

/-- `t'` has the rows of `t`, with their entries. -/
def Grows (t t' : List (List α)) : Prop :=
  ∀ (i : Nat) (row : List α), t[i]? = some row → ∃ row', t'[i]? = some row' ∧ row <+: row'

/-- The rows that were left, and what was read of the row after them. -/
structure Reader (α : Type*) where
  rows : List (List α)
  row : Option (List α)

def Reader.fresh : Reader α := ⟨[], none⟩

inductive Step (t : List (List α)) : Reader α → Reader α → Prop where
  | enter {rows : List (List α)} : rows.length < t.length → Step t ⟨rows, none⟩ ⟨rows, some []⟩
  | next {rows : List (List α)} {xs row : List α} {x : α} : t[rows.length]? = some row →
      row[xs.length]? = some x → Step t ⟨rows, some xs⟩ ⟨rows, some (xs ++ [x])⟩
  | leave {rows : List (List α)} {xs row : List α} : t[rows.length]? = some row →
      row.length ≤ xs.length → Step t ⟨rows, some xs⟩ ⟨rows ++ [xs], none⟩

/-- What a reader that started on `t₀` has read when the table is `t`. -/
structure Between (t₀ t : List (List α)) (r : Reader α) : Prop where
  grows : Grows t₀ t
  below : ∀ (i : Nat) (xs : List α), r.rows[i]? = some xs → ∃ row, t[i]? = some row ∧ xs <+: row
  above : ∀ (i : Nat) (xs row : List α), r.rows[i]? = some xs → t₀[i]? = some row → row <+: xs
  reading : ∀ xs, r.row = some xs → ∃ row, t[r.rows.length]? = some row ∧ xs <+: row

section Grows

variable {t t' t'' : List (List α)}

theorem Grows.refl (t : List (List α)) : Grows t t :=
  fun _ row hrow => ⟨row, hrow, List.prefix_refl row⟩

theorem Grows.trans (h : Grows t t') (h' : Grows t' t'') : Grows t t'' := by
  intro i row hrow
  obtain ⟨row', hrow', hle⟩ := h i row hrow
  obtain ⟨row'', hrow'', hle'⟩ := h' i row' hrow'
  exact ⟨row'', hrow'', hle.trans hle'⟩

theorem Grows.length_le (h : Grows t t') : t.length ≤ t'.length := by
  by_contra hlt
  have hi : t'.length < t.length := Nat.lt_of_not_le hlt
  obtain ⟨row', hrow', _⟩ := h t'.length _ (List.getElem?_eq_getElem hi)
  rw [List.getElem?_eq_none (Nat.le_refl _)] at hrow'
  cases hrow'

theorem Grows.antisymm (h : Grows t t') (h' : Grows t' t) : t = t' := by
  have hlen : t.length = t'.length := Nat.le_antisymm h.length_le h'.length_le
  apply List.ext_getElem hlen
  intro i hi hi'
  obtain ⟨row', hrow', hle⟩ := h i _ (List.getElem?_eq_getElem hi)
  obtain ⟨row, hrow, hle'⟩ := h' i _ (List.getElem?_eq_getElem hi')
  rw [List.getElem?_eq_getElem hi', Option.some.injEq] at hrow'
  rw [List.getElem?_eq_getElem hi, Option.some.injEq] at hrow
  rw [← hrow'] at hle
  rw [← hrow] at hle'
  exact hle.eq_of_length (Nat.le_antisymm hle.length_le hle'.length_le)

/-- Rows are added. -/
theorem Grows.append (t rows : List (List α)) : Grows t (t ++ rows) :=
  fun _ row hrow => ⟨row, getElem?_append_of_some hrow, List.prefix_refl row⟩

end Grows

section Between

variable {t₀ t t' : List (List α)} {r r' : Reader α}

theorem Between.start (t : List (List α)) : Between t t .fresh where
  grows := .refl t
  below i xs h := by cases h
  above i xs row h := by cases h
  reading xs h := by cases h

/-- The table grows while the reader waits. -/
theorem Between.grow (h : Between t₀ t r) (hgrows : Grows t t') : Between t₀ t' r where
  grows := h.grows.trans hgrows
  below i xs hxs := by
    obtain ⟨row, hrow, hle⟩ := h.below i xs hxs
    obtain ⟨row', hrow', hle'⟩ := hgrows i row hrow
    exact ⟨row', hrow', hle.trans hle'⟩
  above := h.above
  reading xs hxs := by
    obtain ⟨row, hrow, hle⟩ := h.reading xs hxs
    obtain ⟨row', hrow', hle'⟩ := hgrows _ row hrow
    exact ⟨row', hrow', hle.trans hle'⟩

theorem Between.step (h : Between t₀ t r) (hs : Step t r r') : Between t₀ t r' := by
  cases hs with
  | @enter rows hlt =>
      refine ⟨h.grows, h.below, h.above, fun xs hxs => ?_⟩
      cases hxs
      exact ⟨_, List.getElem?_eq_getElem hlt, List.nil_prefix⟩
  | @next rows xs row x hrow hx =>
      refine ⟨h.grows, h.below, h.above, fun ys hys => ?_⟩
      cases hys
      obtain ⟨row', hrow', hle⟩ := h.reading xs rfl
      obtain rfl : row = row' := Option.some.inj (hrow.symm.trans hrow')
      obtain ⟨rest, rfl⟩ := hle
      refine ⟨_, hrow, ?_⟩
      cases rest with
      | nil =>
          rw [List.append_nil, List.getElem?_eq_none (Nat.le_refl _)] at hx
          cases hx
      | cons y rest =>
          rw [List.getElem?_append_right (Nat.le_refl _), Nat.sub_self] at hx
          cases hx
          exact ⟨rest, by simp⟩
  | @leave rows xs row hrow hlen =>
      obtain ⟨row', hrow', hle⟩ := h.reading xs rfl
      obtain rfl : row = row' := Option.some.inj (hrow.symm.trans hrow')
      -- the row was read to its end
      obtain rfl : xs = row := hle.eq_of_length (Nat.le_antisymm hle.length_le hlen)
      refine ⟨h.grows, fun i ys hys => ?_, fun i ys row₀ hys hrow₀ => ?_, nofun⟩
      · rcases getElem?_append_singleton hys with hys | ⟨rfl, rfl⟩
        · exact h.below i ys hys
        · exact ⟨_, hrow, List.prefix_refl _⟩
      · rcases getElem?_append_singleton hys with hys | ⟨rfl, rfl⟩
        · exact h.above i ys row₀ hys hrow₀
        · obtain ⟨row₁, hrow₁, hle₁⟩ := h.grows _ row₀ hrow₀
          rw [hrow, Option.some.injEq] at hrow₁
          exact hrow₁ ▸ hle₁

/-- At the end of the table the reader has read at least the table it started on, and
at most the table as it is. -/
theorem Between.snapshot (h : Between t₀ t r) (hend : t.length ≤ r.rows.length) :
    Grows t₀ r.rows ∧ Grows r.rows t := by
  refine ⟨fun i row hrow => ?_, h.below⟩
  obtain ⟨hlt, _⟩ := List.getElem?_eq_some_iff.mp hrow
  have hlt' : i < r.rows.length :=
    Nat.lt_of_lt_of_le hlt (Nat.le_trans h.grows.length_le hend)
  have hxs := List.getElem?_eq_getElem hlt'
  exact ⟨_, hxs, h.above i _ row hxs hrow⟩

end Between

end Snapshot
