import Mathlib.Data.List.Basic

/-!
# Entries of a log that grows

Lists read by index, before and after an append or an update.
-/

namespace Machine

variable {α : Type*} {xs ys : List α} {x y : α} {i j : Nat}

theorem getElem?_append_of_some (h : xs[i]? = some x) : (xs ++ ys)[i]? = some x := by
  obtain ⟨hi, _⟩ := List.getElem?_eq_some_iff.mp h
  rwa [List.getElem?_append_left hi]

/-- An entry of a log with one more at its end. -/
theorem getElem?_append_singleton (h : (xs ++ [x])[i]? = some y) :
    xs[i]? = some y ∨ i = xs.length ∧ y = x := by
  rcases Nat.lt_trichotomy i xs.length with hi | hi | hi
  · exact Or.inl (by rwa [List.getElem?_append_left hi] at h)
  · subst hi
    rw [List.getElem?_concat_length, Option.some.injEq] at h
    exact Or.inr ⟨rfl, h.symm⟩
  · rw [List.getElem?_eq_none (by rw [List.length_append, List.length_singleton]; omega)] at h
    cases h

/-- An entry of a log after an update: the one that was written, or another. -/
theorem getElem?_set_of_some (h : (xs.set i x)[j]? = some y) :
    j = i ∧ y = x ∨ j ≠ i ∧ xs[j]? = some y := by
  rcases eq_or_ne j i with rfl | hj
  · obtain ⟨hlt, _⟩ := List.getElem?_eq_some_iff.mp h
    rw [List.length_set] at hlt
    rw [List.getElem?_set_self hlt, Option.some.injEq] at h
    exact Or.inl ⟨rfl, h.symm⟩
  · rw [List.getElem?_set_ne hj.symm] at h
    exact Or.inr ⟨hj, h⟩

/-- The entries that were read at increasing indices are a part of the log. -/
theorem sublist_of_reads {reads : List (Nat × α)}
    (hsorted : (reads.map Prod.fst).Pairwise (· < ·)) (hget : ∀ r ∈ reads, xs[r.1]? = some r.2) :
    (reads.map Prod.snd).Sublist xs := by
  have hlt : ∀ r ∈ reads, r.1 < xs.length :=
    fun r hr => (List.getElem?_eq_some_iff.mp (hget r hr)).1
  have hindices : (reads.pmap (fun r h => (⟨r.1, h⟩ : Fin xs.length)) hlt).Pairwise (· < ·) := by
    rw [List.pairwise_pmap]
    rw [List.pairwise_map] at hsorted
    exact hsorted.imp fun h _ _ => h
  have hsub := List.map_getElem_sublist hindices
  have hmap : (reads.pmap (fun r h => (⟨r.1, h⟩ : Fin xs.length)) hlt).map (fun i => xs[i]) =
      reads.map Prod.snd := by
    rw [List.map_pmap, ← List.pmap_eq_map hlt]
    exact List.pmap_congr_left reads fun r hr h _ => (List.getElem?_eq_some_iff.mp (hget r hr)).2
  rwa [hmap] at hsub

/-- Those that were read at every index up to some one start it. -/
theorem prefix_of_reads {reads : List (Nat × α)} {n : Nat}
    (hall : reads.map Prod.fst = List.range n) (hget : ∀ r ∈ reads, xs[r.1]? = some r.2) :
    reads.map Prod.snd <+: xs := by
  rw [List.prefix_iff_getElem?]
  intro k hk
  rw [List.length_map] at hk
  have hindex : reads[k].1 = k := by
    have hkey : (reads.map Prod.fst)[k]? = some reads[k].1 := by
      rw [List.getElem?_map, List.getElem?_eq_getElem hk]
      rfl
    rw [hall] at hkey
    exact (List.getElem?_eq_some_iff.mp hkey).2.symm.trans (List.getElem_range _)
  have hread := hget reads[k] (List.getElem_mem hk)
  rw [hindex] at hread
  rw [hread, List.getElem_map]

/-- An update that a function does not see. -/
theorem map_set_of_eq {β : Type*} {f : α → β} (hx : xs[i]? = some x) (h : f y = f x) :
    (xs.set i y).map f = xs.map f := by
  obtain ⟨hlt, rfl⟩ := List.getElem?_eq_some_iff.mp hx
  have hi : i < (xs.map f).length := by
    rw [List.length_map]
    exact hlt
  have hget : (xs.map f)[i] = f xs[i] := List.getElem_map f
  rw [List.map_set, h, ← hget, List.set_getElem_self]

end Machine
