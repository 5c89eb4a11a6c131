import TelnetChat.Machine.Log
import TelnetChat.Machine.Run

/-!
# Items handed to readers through one cell

Items arrive in a log.  A starter takes them in the order of the log.  For each
it puts the item into a cell and starts a reader, and then marks the item before
it takes the next.  A reader reads the cell once, whenever it comes to it.  The
starter does not wait for that.

*Order.*  Items are started and marked in the order of the log, each once, and a
reader is given its own item or one that was started later (`Ordered`).

*Own items.*  If no item is started while a reader has still to read, every
reader is given its own item (`Served`).  A reader that has to read when the
next item is started is given that item, and not its own
(`late_read_not_served`).
-/

namespace Handoff

open Machine

variable {α : Type*}

structure State (α : Type*) where
  items : List α
  /-- The number of items that are marked. -/
  marked : Nat
  /-- What the last start put into the cell. -/
  cell : Option α
  /-- What each reader was given, in the order they were started. -/
  readers : List (Option α)

inductive Event (α : Type*) where
  | arrive (x : α)
  | start
  | mark
  | read (i : Nat)

def State.fresh : State α := ⟨[], 0, none, []⟩

inductive Step : State α → Event α → State α → Prop where
  | arrive {s : State α} {x : α} : Step s (.arrive x) { s with items := s.items ++ [x] }
  | start {s : State α} {x : α} : s.readers.length = s.marked →
      s.items[s.readers.length]? = some x →
      Step s .start { s with cell := some x, readers := s.readers ++ [none] }
  | mark {s : State α} : s.readers.length = s.marked + 1 →
      Step s .mark { s with marked := s.marked + 1 }
  | read {s : State α} {i : Nat} {x : α} : s.readers[i]? = some none → s.cell = some x →
      Step s (.read i) { s with readers := s.readers.set i (some x) }

/-! ## Order -/

structure State.Ordered (s : State α) : Prop where
  marked_le : s.marked ≤ s.readers.length
  le_marked : s.readers.length ≤ s.marked + 1
  started_le : s.readers.length ≤ s.items.length
  /-- The cell holds the item started last. -/
  cell_eq : ∀ n, s.readers.length = n + 1 → s.cell = s.items[n]?
  /-- A reader is given its own item or a later one. -/
  later : ∀ (i : Nat) (x : α), s.readers[i]? = some (some x) →
    ∃ j, i ≤ j ∧ j < s.readers.length ∧ s.items[j]? = some x

section Order

variable {s s' : State α} {e : Event α}

theorem fresh_ordered : (State.fresh : State α).Ordered where
  marked_le := Nat.le_refl 0
  le_marked := Nat.zero_le 1
  started_le := Nat.le_refl 0
  cell_eq n hn := absurd hn (Nat.zero_ne_add_one n)
  later i x h := by cases h

theorem State.Ordered.arrive (h : s.Ordered) (x : α) :
    State.Ordered { s with items := s.items ++ [x] } where
  marked_le := h.marked_le
  le_marked := h.le_marked
  started_le := by
    rw [List.length_append]
    exact Nat.le_add_right_of_le h.started_le
  cell_eq n hn := by
    have hlt : n < s.items.length := Nat.lt_of_lt_of_le (hn ▸ Nat.lt_succ_self n) h.started_le
    rw [List.getElem?_append_left hlt]
    exact h.cell_eq n hn
  later i y hy := by
    obtain ⟨j, hij, hj, hget⟩ := h.later i y hy
    exact ⟨j, hij, hj, getElem?_append_of_some hget⟩

theorem State.Ordered.start (h : s.Ordered) {x : α} (hready : s.readers.length = s.marked)
    (hx : s.items[s.readers.length]? = some x) :
    State.Ordered { s with cell := some x, readers := s.readers ++ [none] } := by
  obtain ⟨hlt, _⟩ := List.getElem?_eq_some_iff.mp hx
  have hlen : (s.readers ++ [none]).length = s.readers.length + 1 := List.length_append
  constructor
  · exact Nat.le_trans h.marked_le (hlen ▸ Nat.le_succ _)
  · exact Nat.le_of_eq (hlen.trans (congrArg (· + 1) hready))
  · exact hlen ▸ hlt
  · intro n hn
    obtain rfl : s.readers.length = n := Nat.succ.inj (hlen.symm.trans hn)
    exact hx.symm
  · intro i y hy
    rcases getElem?_append_singleton hy with hy | ⟨_, hnone⟩
    · obtain ⟨j, hij, hj, hget⟩ := h.later i y hy
      exact ⟨j, hij, hlen ▸ Nat.lt_succ_of_lt hj, hget⟩
    · cases hnone

theorem State.Ordered.mark (h : s.Ordered) (hready : s.readers.length = s.marked + 1) :
    State.Ordered { s with marked := s.marked + 1 } where
  marked_le := Nat.le_of_eq hready.symm
  le_marked := Nat.le_succ_of_le (Nat.le_of_eq hready)
  started_le := h.started_le
  cell_eq := h.cell_eq
  later := h.later

theorem State.Ordered.read (h : s.Ordered) {i : Nat} {x : α} (hi : s.readers[i]? = some none)
    (hx : s.cell = some x) : State.Ordered { s with readers := s.readers.set i (some x) } := by
  obtain ⟨hlt, _⟩ := List.getElem?_eq_some_iff.mp hi
  have hlen : (s.readers.set i (some x)).length = s.readers.length := List.length_set
  constructor
  · exact hlen ▸ h.marked_le
  · exact hlen ▸ h.le_marked
  · exact hlen ▸ h.started_le
  · exact fun n hn => h.cell_eq n (hlen.symm.trans hn)
  · intro j y hy
    rcases getElem?_set_of_some hy with ⟨rfl, hyx⟩ | ⟨_, hy⟩
    · -- the cell holds the item of the last reader
      obtain ⟨n, hn⟩ := Nat.exists_eq_add_one_of_ne_zero (Nat.ne_zero_of_lt hlt)
      cases hyx
      rw [hn] at hlt hlen
      exact ⟨n, Nat.le_of_lt_succ hlt, hlen ▸ Nat.lt_succ_self n, (h.cell_eq n hn).symm.trans hx⟩
    · obtain ⟨k, hjk, hk, hget⟩ := h.later j y hy
      exact ⟨k, hjk, hlen ▸ hk, hget⟩

theorem Step.ordered (h : s.Ordered) (hs : Step s e s') : s'.Ordered := by
  cases hs with
  | arrive => exact h.arrive _
  | start hready hx => exact h.start hready hx
  | mark hready => exact h.mark hready
  | read hi hx => exact h.read hi hx

theorem run_ordered {G : State α → Event α → Prop} (h : Run Step G .fresh s) : s.Ordered :=
  h.invariant fresh_ordered fun _ _ _ _ ih hs => hs.ordered ih

end Order

/-! ## Own items -/

/-- No item is started while a reader has still to read. -/
def NoneWaiting (s : State α) : Event α → Prop
  | .start => none ∉ s.readers
  | _ => True

/-- Every reader that has read was given its own item. -/
def State.Served (s : State α) : Prop :=
  ∀ (i : Nat) (x : α), s.readers[i]? = some (some x) → s.items[i]? = some x

/-- Only the last reader may have to read. -/
def State.LastWaits (s : State α) : Prop :=
  ∀ i : Nat, s.readers[i]? = some none → i + 1 = s.readers.length

section Served

variable {s s' s₁ s₂ : State α} {e : Event α}

theorem Step.served (hordered : s.Ordered) (h : s.Served ∧ s.LastWaits) (hG : NoneWaiting s e)
    (hs : Step s e s') : s'.Served ∧ s'.LastWaits := by
  obtain ⟨hserved, hlast⟩ := h
  cases hs with
  | arrive => exact ⟨fun i x hx => getElem?_append_of_some (hserved i x hx), hlast⟩
  | start hready hx =>
      constructor
      · intro i y hy
        rcases getElem?_append_singleton hy with hy | ⟨_, hnone⟩
        · exact hserved i y hy
        · cases hnone
      · intro i hi
        rcases getElem?_append_singleton hi with hi | ⟨rfl, _⟩
        · exact absurd (List.mem_of_getElem? hi) hG
        · show s.readers.length + 1 = (s.readers ++ [none]).length
          rw [List.length_append, List.length_singleton]
  | mark => exact ⟨hserved, hlast⟩
  | @read i x hi hx =>
      constructor
      · intro j y hy
        rcases getElem?_set_of_some hy with ⟨rfl, hyx⟩ | ⟨_, hy⟩
        · cases hyx
          exact (hordered.cell_eq j (hlast j hi).symm).symm.trans hx
        · exact hserved j y hy
      · intro j hj
        rcases getElem?_set_of_some hj with ⟨_, hnone⟩ | ⟨_, hj⟩
        · cases hnone
        · exact (hlast j hj).trans List.length_set.symm

theorem run_served (h : Run Step NoneWaiting .fresh s) : s.Served := by
  have hrun := h.strengthen fresh_ordered fun _ _ _ _ ih hs => hs.ordered ih
  have hboth := hrun.invariant (I := fun s => s.Served ∧ s.LastWaits)
    ⟨fun i x hx => (by cases hx), fun i hi => (by cases hi)⟩
    fun _ _ _ hG ih hs => hs.served hG.2 ih hG.1
  exact hboth.1

/-- A reader that has still to read when the next item is started reads that
item. -/
theorem late_read_not_served {i : Nat} (hordered : s.Ordered) (hi : s.readers[i]? = some none)
    (h₁ : Step s .start s₁) (h₂ : Step s₁ (.read i) s₂) (hnodup : s.items.Nodup) :
    ¬ s₂.Served := by
  intro hserved
  obtain ⟨hlt, _⟩ := List.getElem?_eq_some_iff.mp hi
  cases h₁ with
  | start hready hx =>
      cases h₂ with
      | @read _ y hwaits hcell =>
          cases hcell
          have hlt' : i < (s.readers ++ [none]).length :=
            Nat.lt_of_lt_of_le hlt (by rw [List.length_append]; exact Nat.le_add_right _ _)
          have hown := hserved i _ (List.getElem?_set_self hlt')
          have hsame := (List.getElem?_inj (Nat.lt_of_lt_of_le hlt hordered.started_le) hnodup).mp
            (hown.trans hx.symm)
          exact Nat.ne_of_lt hlt hsame

end Served

end Handoff
