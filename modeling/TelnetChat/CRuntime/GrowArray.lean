import TelnetChat.CRuntime.Block

/-!
# Growable arrays

The struct of a pointer, a number of elements and a capacity, with the two
operations such structs come with.  `push slack grow` appends an element, and
first calls `grow` when fewer than `slack` slots are left.  `grow alloc incr`
moves the elements to a new block of `alloc` slots and counts `incr` more.

`v.Holds xs` says that `v` stores the list `xs`, and that the capacity it
counts is really allocated.  Under it a `push` never faults and appends.
-/

namespace CRuntime

/-- A growable array. -/
structure GrowArray (α : Type) where
  /-- The allocated slots. -/
  cells : Block α
  /-- The number of elements. -/
  size : Nat
  /-- The number of slots the code counts with. -/
  capacity : Nat
deriving DecidableEq

namespace GrowArray

variable {α : Type}

/-- An empty array with `n` allocated slots. -/
def create (n : Nat) : GrowArray α := ⟨Block.malloc n, 0, n⟩

/-- Move the elements to a block of `alloc` slots and count `incr` more. -/
def grow (alloc incr : Nat) (v : GrowArray α) : Exec (GrowArray α) := do
  let cells ← (Block.malloc alloc).copyInto v.cells 0 v.size
  pure ⟨cells, v.size, v.capacity + incr⟩

/-- Grow when fewer than `slack` slots are left. -/
def reserve (slack : Nat) (grow : GrowArray α → Exec (GrowArray α)) (v : GrowArray α) :
    Exec (GrowArray α) :=
  if v.size + slack > v.capacity then grow v else pure v

/-- Append `x`, after growing when fewer than `slack` slots are left. -/
def push (slack : Nat) (grow : GrowArray α → Exec (GrowArray α)) (v : GrowArray α) (x : α) :
    Exec (GrowArray α) := do
  let v ← v.reserve slack grow
  let cells ← v.cells.store v.size x
  pure ⟨cells, v.size + 1, v.capacity⟩

/-- The array stores `xs`.  The slots after them were never written, and at
least one of them is counted. -/
structure Holds (v : GrowArray α) (xs : List α) : Prop where
  /-- The number of elements. -/
  size_eq : v.size = xs.length
  /-- The elements, and slots never written. -/
  cells_eq : v.cells = xs.map some ++ Block.malloc (v.cells.length - xs.length)
  /-- The capacity is not used up. -/
  size_lt : v.size < v.capacity
  /-- The capacity is allocated. -/
  allocated : v.capacity ≤ v.cells.length

theorem create_holds {n : Nat} (h : 0 < n) : (create n : GrowArray α).Holds [] :=
  ⟨rfl, by simp [create], h, by simp [create]⟩

section Holds

variable {v : GrowArray α} {xs : List α}

/-- An array stores one list. -/
theorem Holds.unique {ys : List α} (h : v.Holds xs) (h' : v.Holds ys) : xs = ys := by
  have hlen : xs.length = ys.length := h.size_eq.symm.trans h'.size_eq
  have hmap := List.append_inj_left (h.cells_eq.symm.trans h'.cells_eq) (by simpa using hlen)
  exact List.map_injective_iff.mpr (Option.some_injective _) hmap

/-- The slots read as the elements and, up to the capacity, as never written. -/
theorem Holds.getElem?_cells (h : v.Holds xs) {i : Nat} (hi : i < v.capacity) :
    v.cells[i]? = some xs[i]? := by
  have halloc := h.allocated
  rw [h.cells_eq]
  by_cases hx : i < xs.length
  · rw [List.getElem?_append_left (by simpa using hx)]
    simp [hx]
  · rw [List.getElem?_append_right (by simpa using hx)]
    simp only [List.length_map, Block.malloc, List.getElem?_replicate]
    rw [if_pos (by omega), List.getElem?_eq_none (by omega)]

theorem Holds.load_eq (h : v.Holds xs) {i : Nat} (hi : i < xs.length) :
    v.cells.load i = .ok xs[i] := by
  have hlt := h.size_lt
  rw [h.size_eq] at hlt
  simp [Block.load, h.getElem?_cells (Nat.lt_trans hi hlt), hi]

theorem Holds.peek_eq (h : v.Holds xs) {i : Nat} (hi : i < v.capacity) :
    v.cells.peek i = .ok xs[i]? := by
  simp [Block.peek, h.getElem?_cells hi]

/-- An array with more elements reads the old ones where they were. -/
theorem Holds.load_of_append {v' : GrowArray α} {ys : List α} (h : v.Holds xs)
    (h' : v'.Holds (xs ++ ys)) {i : Nat} (hi : i < v.size) :
    v'.cells.load i = v.cells.load i := by
  rw [h.size_eq] at hi
  rw [h.load_eq hi, h'.load_eq (by rw [List.length_append]; omega), List.getElem_append_left hi]

/-- An element can be overwritten in place. -/
theorem Holds.store_eq (h : v.Holds xs) {i : Nat} (hi : i < xs.length) (x : α) :
    ∃ cells, v.cells.store i x = .ok cells ∧
      ({ v with cells := cells } : GrowArray α).Holds (xs.set i x) := by
  have halloc := h.allocated
  have hlt := h.size_lt
  have hsize := h.size_eq
  refine ⟨v.cells.set i (some x), if_pos (by omega), ?_, ?_, hlt, ?_⟩
  · rw [List.length_set]
    exact hsize
  · show v.cells.set i (some x) = _
    rw [List.length_set, List.length_set, List.map_set]
    conv_lhs => rw [h.cells_eq]
    exact List.set_append_left i (some x) (by simpa using hi)
  · show v.capacity ≤ (v.cells.set i (some x)).length
    rw [List.length_set]
    exact halloc

/-- What growth leaves: the elements, with room for two more, and no less
capacity. -/
def Grown (v : GrowArray α) (xs : List α) (v' : GrowArray α) : Prop :=
  v'.Holds xs ∧ v'.size + 1 < v'.capacity ∧ v.capacity ≤ v'.capacity

theorem grow_returns {alloc incr : Nat} (h : v.Holds xs) (hincr : 0 < incr)
    (halloc : v.capacity + incr ≤ alloc) : Returns (grow alloc incr v) (Grown v xs) := by
  have hsize := h.size_eq
  have hlt := h.size_lt
  have hcopy := Block.copyInto_eq xs (Block.malloc (v.cells.length - xs.length)) []
    (Block.malloc xs.length) (Block.malloc (alloc - xs.length)) (by simp)
  have hsplit : (Block.malloc xs.length ++ Block.malloc (alloc - xs.length) : Block α) =
      Block.malloc alloc := by
    simp only [Block.malloc, List.replicate_append_replicate]
    congr 1
    omega
  rw [List.nil_append, List.nil_append, hsplit, ← h.cells_eq, ← hsize, List.length_nil] at hcopy
  refine ⟨⟨xs.map some ++ Block.malloc (alloc - v.size), v.size, v.capacity + incr⟩,
    ?_, ?_, ?_, Nat.le_add_right _ _⟩
  · rw [grow, hcopy, ok_bind, pure_eq_ok]
  · refine ⟨hsize, ?_, ?_, ?_⟩
    · simp [hsize]
    · simp only
      omega
    · simp only [List.length_append, List.length_map, Block.length_malloc]
      omega
  · simp only
    omega

/-- The growth test leaves the elements, with room for two more. -/
theorem reserve_returns {slack : Nat} {grow : GrowArray α → Exec (GrowArray α)} (h : v.Holds xs)
    (hslack : 2 ≤ slack) (hgrow : Returns (grow v) (Grown v xs)) :
    Returns (v.reserve slack grow) (Grown v xs) := by
  unfold reserve
  split
  · exact hgrow
  · simp only [pure_eq_ok, returns_ok]
    exact ⟨h, by omega, Nat.le_refl _⟩

/-- A push that returns wrote one cell, in bounds. -/
theorem push_writes {slack : Nat} {grow : GrowArray α → Exec (GrowArray α)} {x : α}
    {v' : GrowArray α} (h : push slack grow v x = .ok v') :
    ∃ r, v.reserve slack grow = .ok r ∧ r.size < r.cells.length ∧
      v' = ⟨r.cells.set r.size (some x), r.size + 1, r.capacity⟩ := by
  obtain ⟨r, hr, hrest⟩ := bind_eq_ok.mp h
  obtain ⟨cells, hstore, hpure⟩ := bind_eq_ok.mp hrest
  obtain ⟨hlt, _⟩ := Block.store_inBounds hstore
  rw [Block.store, if_pos hlt] at hstore
  cases hstore
  cases hpure
  exact ⟨r, hr, hlt, rfl⟩

/-- A push appends, and loses none of the elements. -/
theorem push_returns {slack : Nat} {grow : GrowArray α → Exec (GrowArray α)} (h : v.Holds xs)
    (hslack : 2 ≤ slack) (hgrow : Returns (grow v) (Grown v xs)) (x : α) :
    Returns (push slack grow v x) fun v' => v'.Holds (xs ++ [x]) ∧ v.capacity ≤ v'.capacity := by
  rw [push]
  apply (reserve_returns h hslack hgrow).bind
  intro v' hv'
  obtain ⟨hholds, hlt, hle⟩ := hv'
  have hsize := hholds.size_eq
  have halloc := hholds.allocated
  obtain ⟨n, hn⟩ : ∃ n, v'.cells.length - xs.length = n + 1 :=
    Nat.exists_eq_add_one.mpr (by omega)
  have hcells := hholds.cells_eq
  rw [hn] at hcells
  have hstore : v'.cells.store v'.size x =
      .ok (xs.map some ++ some x :: Block.malloc n) := by
    rw [hcells, hsize, Block.malloc, List.replicate_succ, Block.store_append _ _ _ _ (by simp)]
    rfl
  rw [hstore, ok_bind, pure_eq_ok, returns_ok]
  refine ⟨⟨?_, ?_, hlt, ?_⟩, hle⟩
  · simp [hsize]
  · simp only [List.length_append, List.length_map, List.length_cons, Block.length_malloc,
      List.length_nil, show xs.length + (n + 1) - (xs.length + (0 + 1)) = n by omega]
    simp
  · simp only [List.length_append, List.length_map, List.length_cons, Block.length_malloc]
    omega

end Holds

end GrowArray

end CRuntime
