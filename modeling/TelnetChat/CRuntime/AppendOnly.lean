import TelnetChat.CRuntime.GrowArray

/-!
# Growable arrays as append-only lists

An append-only list has one operation, which puts an element after the others.
An element that is in the list keeps its index.  `AppendOnly` says that the
insertions of a growable array are this operation.  From the array `v₀` on, any
sequence of calls returns if each of them finds its element, and the array then
stores these elements in the order of the calls.  Each call writes one cell,
the one after the elements, and this cell is allocated when it is written.

An array whose insertion is a `push` is append-only when its growth moves the
elements to a block that has the slots it counts (`push_appendOnly`).
-/

namespace CRuntime.GrowArray

variable {α β : Type}

/-- The calls with the arguments `ys`, one after the other. -/
def insertAll (insert : GrowArray α → β → Exec (GrowArray α)) (v : GrowArray α) (ys : List β) :
    Exec (GrowArray α) :=
  ys.foldlM insert v

section InsertAll

variable {insert : GrowArray α → β → Exec (GrowArray α)} {v : GrowArray α}

theorem insertAll_cons (y : β) (ys : List β) :
    insertAll insert v (y :: ys) = insert v y >>= fun v => insertAll insert v ys :=
  List.foldlM_cons

theorem insertAll_concat (ys : List β) (y : β) :
    insertAll insert v (ys ++ [y]) = insertAll insert v ys >>= fun v => insert v y := by
  simp only [insertAll, List.foldlM_append, List.foldlM_cons, List.foldlM_nil, bind_pure]

end InsertAll

/-- What the calls with the arguments `ys` insert. -/
def Elements (elem : β → Exec α) (ys : List β) (xs : List α) : Prop :=
  List.Forall₂ (fun y x => elem y = .ok x) ys xs

/-- From the array `v₀` on, `insert` is the operation of an append-only list.  A
call with `y` inserts `elem y`, and writes it into the array that `reserve`
leaves. -/
structure AppendOnly (elem : β → Exec α) (reserve : GrowArray α → Exec (GrowArray α))
    (insert : GrowArray α → β → Exec (GrowArray α)) (v₀ : GrowArray α) : Prop where
  /-- Calls that find their elements return. -/
  total : ∀ ys xs, Elements elem ys xs → ∃ v, insertAll insert v₀ ys = .ok v
  /-- The array stores the elements, in the order of the calls. -/
  holds : ∀ ys v, insertAll insert v₀ ys = .ok v → ∃ xs, Elements elem ys xs ∧ v.Holds xs
  /-- The next call writes at the index `size`, which is allocated.  The growth
  before it moved the elements as they are. -/
  writes : ∀ ys v y v', insertAll insert v₀ ys = .ok v → insert v y = .ok v' →
    ∃ r x, reserve v = .ok r ∧ elem y = .ok x ∧ (∀ xs, v.Holds xs → r.Holds xs) ∧
      r.size = v.size ∧ r.size < r.cells.length ∧ r.size + 1 < r.capacity ∧
      v' = ⟨r.cells.set r.size (some x), r.size + 1, r.capacity⟩
  /-- An element keeps its index and its value under later calls. -/
  keeps : ∀ ys zs v w, insertAll insert v₀ ys = .ok v → insertAll insert v zs = .ok w →
    ∀ i < v.size, w.cells.load i = v.cells.load i

theorem elements_pure_iff {ys xs : List α} : Elements pure ys xs ↔ ys = xs := by
  have heq : (fun y x : α => (pure y : Exec α) = .ok x) = Eq := by
    funext y x
    simp
  rw [Elements, heq, List.forall₂_eq_eq_eq]

section Push

variable {slack : Nat} {grow : GrowArray α → Exec (GrowArray α)} {v v' v₀ : GrowArray α}
  {xs : List α} {elem : β → Exec α} {insert : GrowArray α → β → Exec (GrowArray α)} {y : β}
  {ys : List β}
  (hslack : 2 ≤ slack) (hgrow : ∀ v xs, v.Holds xs → Returns (grow v) (Grown v xs))
  (hinsert : ∀ v y, insert v y = elem y >>= v.push slack grow)

include hslack hgrow hinsert

/-- A call that finds its element appends it. -/
theorem insert_returns (h : v.Holds xs) {x : α} (hx : elem y = .ok x) :
    Returns (insert v y) fun v' => v'.Holds (xs ++ [x]) := by
  rw [hinsert, hx, ok_bind]
  exact (push_returns h hslack (hgrow v xs h) x).mono fun _ h => h.1

/-- A call that returns found its element. -/
theorem insert_result (h : v.Holds xs) (hv' : insert v y = .ok v') :
    ∃ x, elem y = .ok x ∧ v'.Holds (xs ++ [x]) := by
  have hpush := hv'
  rw [hinsert] at hpush
  obtain ⟨x, hx, _⟩ := bind_eq_ok.mp hpush
  exact ⟨x, hx, (insert_returns hslack hgrow hinsert h hx).result hv'⟩

theorem insertAll_returns {zs : List α} (h : v.Holds xs) (hys : Elements elem ys zs) :
    Returns (insertAll insert v ys) fun v' => v'.Holds (xs ++ zs) := by
  apply foldlM_returns (I := fun xs (v : GrowArray α) => v.Holds xs) hys _ h
  intro v xs y x hx h
  exact insert_returns hslack hgrow hinsert h hx

theorem insertAll_result (h : v.Holds xs) (hv' : insertAll insert v ys = .ok v') :
    ∃ zs, Elements elem ys zs ∧ v'.Holds (xs ++ zs) := by
  induction ys generalizing v xs with
  | nil =>
      cases hv'
      exact ⟨[], .nil, by simpa using h⟩
  | cons y ys ih =>
      rw [insertAll_cons] at hv'
      obtain ⟨w, hw, hrest⟩ := bind_eq_ok.mp hv'
      obtain ⟨x, hx, hholds⟩ := insert_result hslack hgrow hinsert h hw
      obtain ⟨zs, hzs, hend⟩ := ih hholds hrest
      exact ⟨x :: zs, .cons hx hzs, by simpa using hend⟩

/-- Insertion by `push` is append-only. -/
theorem push_appendOnly (h₀ : v₀.Holds []) :
    AppendOnly elem (fun v => v.reserve slack grow) insert v₀ where
  total ys xs hxs := by
    obtain ⟨v, hv, _⟩ := insertAll_returns hslack hgrow hinsert h₀ hxs
    exact ⟨v, hv⟩
  holds ys v hv := insertAll_result hslack hgrow hinsert h₀ hv
  writes ys v y v' hv hv' := by
    obtain ⟨xs, _, hxs⟩ := insertAll_result hslack hgrow hinsert h₀ hv
    rw [hinsert] at hv'
    obtain ⟨x, hx, hpush⟩ := bind_eq_ok.mp hv'
    obtain ⟨r, hr, hlt, rfl⟩ := push_writes hpush
    obtain ⟨hholds, hroom, _⟩ := (reserve_returns hxs hslack (hgrow v _ hxs)).result hr
    have hsize : r.size = v.size := hholds.size_eq.trans hxs.size_eq.symm
    refine ⟨r, x, hr, hx, fun zs hzs => ?_, hsize, hlt, hroom, rfl⟩
    rwa [hzs.unique hxs]
  keeps ys zs v w hv hw := by
    obtain ⟨xs, _, hxs⟩ := insertAll_result hslack hgrow hinsert h₀ hv
    obtain ⟨zs', _, hzs⟩ := insertAll_result hslack hgrow hinsert hxs hw
    exact fun i hi => hxs.load_of_append hzs hi

end Push

end CRuntime.GrowArray
