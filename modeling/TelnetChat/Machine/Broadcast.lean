import Mathlib.Data.List.Perm.Subperm
import Mathlib.Data.List.Range
import Mathlib.Logic.Function.Basic
import TelnetChat.Machine.Log
import TelnetChat.Machine.Run

/-!
# A log broadcast to cursor readers

Several parties share an append-only log.  Each appends entries, and reads the
log through a cursor of its own.  Three events move the system.

* `append c x`: `c` appends `x`, and from then on owes one count.
* `deliver c`: `c` is given the entry at its cursor, which moves on.
* `count c`: the cursor of `c` moves on without a delivery.  It settles what `c`
  owes, if it owes a count.

A party that owes a count is not given an entry.  The cursor is blind: nothing
ties a count to the position of the entry it stands for.

*Order.*  In every run a reader is given entries in the order of the log, none
twice, and each as the log holds it.  Deliveries and counts add up to the
cursor (`Ordered`).

*Exactness.*  If every append is made with the cursor at the end of the log, and
only an owed count is made, then a reader that owes nothing was given exactly
the entries of the others below its cursor (`Exact`).  One late append, with
its count, breaks this (`late_append_not_exact`).

*Bounds.*  If only owed counts are made, no cursor passes the end of the log.
-/

namespace Broadcast

open Machine

variable {ι α : Type*}

/-! ## States and events -/

/-- An entry given to a reader, with its index and the length of the log then. -/
structure Delivery (α : Type*) where
  index : Nat
  entry : α
  upto : Nat

/-- What the log keeps for one party. -/
structure Reader (α : Type*) where
  cursor : Nat
  seen : List (Delivery α)
  counted : Nat
  /-- The party appended an entry and did not count it yet. -/
  owing : Bool

structure State (ι α : Type*) where
  /-- The entries, each with its author. -/
  log : List (ι × α)
  reader : ι → Reader α

inductive Event (ι α : Type*) where
  | append (c : ι) (x : α)
  | deliver (c : ι)
  | count (c : ι)

def Reader.fresh : Reader α := ⟨0, [], 0, false⟩

def State.fresh : State ι α := ⟨[], fun _ => .fresh⟩

/-- The indices of the entries given to a reader, oldest first. -/
def Reader.indices (r : Reader α) : List Nat := r.seen.map Delivery.index

def Reader.deliver (r : Reader α) (x : α) (upto : Nat) : Reader α :=
  { r with cursor := r.cursor + 1, seen := r.seen ++ [⟨r.cursor, x, upto⟩] }

def Reader.count (r : Reader α) : Reader α :=
  { r with cursor := r.cursor + 1, counted := r.counted + 1, owing := false }

section Step

variable [DecidableEq ι]

/-- Put another reader in the place of that of `c`. -/
def State.set (s : State ι α) (c : ι) (r : Reader α) : State ι α :=
  { s with reader := Function.update s.reader c r }

inductive Step : State ι α → Event ι α → State ι α → Prop where
  | append {s : State ι α} {c : ι} {x : α} :
      Step s (.append c x)
        { s.set c { s.reader c with owing := true } with log := s.log ++ [(c, x)] }
  | deliver {s : State ι α} {c a : ι} {x : α} :
      s.log[(s.reader c).cursor]? = some (a, x) → (s.reader c).owing = false →
      Step s (.deliver c) (s.set c ((s.reader c).deliver x s.log.length))
  | count {s : State ι α} {c : ι} :
      Step s (.count c) (s.set c (s.reader c).count)

end Step

/-! ## Order -/

/-- The deliveries of a reader are in the order of the log and are its entries,
and they and the counts add up to the cursor. -/
structure Reader.Ordered (log : List (ι × α)) (r : Reader α) : Prop where
  sorted : r.indices.Pairwise (· < ·)
  below : ∀ k ∈ r.indices, k < r.cursor
  entries : ∀ d ∈ r.seen,
    d.index < d.upto ∧ d.upto ≤ log.length ∧ ∃ a, log[d.index]? = some (a, d.entry)
  total : r.seen.length + r.counted = r.cursor

section Ordered

variable {log : List (ι × α)} {r : Reader α}

theorem Reader.Ordered.append (h : r.Ordered log) (e : ι × α) : r.Ordered (log ++ [e]) where
  sorted := h.sorted
  below := h.below
  entries d hd := by
    obtain ⟨hlt, hle, a, ha⟩ := h.entries d hd
    refine ⟨hlt, ?_, a, getElem?_append_of_some ha⟩
    rw [List.length_append]
    omega
  total := h.total

theorem Reader.Ordered.deliver (h : r.Ordered log) {a : ι} {x : α}
    (hx : log[r.cursor]? = some (a, x)) : (r.deliver x log.length).Ordered log where
  sorted := by
    rw [Reader.indices, Reader.deliver, List.map_append, List.map_singleton, List.pairwise_append]
    refine ⟨h.sorted, List.pairwise_singleton .., fun k hk k' hk' => ?_⟩
    rw [List.mem_singleton.mp hk']
    exact h.below k hk
  below k hk := by
    rw [Reader.indices, Reader.deliver, List.map_append, List.map_singleton, List.mem_append,
      List.mem_singleton] at hk
    rcases hk with hk | hk
    · exact Nat.lt_succ_of_lt (h.below k hk)
    · exact hk ▸ Nat.lt_succ_self _
  entries d hd := by
    rcases List.mem_append.mp hd with hd | hd
    · exact h.entries d hd
    · rw [List.mem_singleton.mp hd]
      obtain ⟨hlt, _⟩ := List.getElem?_eq_some_iff.mp hx
      exact ⟨hlt, Nat.le_refl _, a, hx⟩
  total := by
    have htotal := h.total
    simp only [Reader.deliver, List.length_append, List.length_singleton]
    omega

theorem Reader.Ordered.count (h : r.Ordered log) : r.count.Ordered log where
  sorted := h.sorted
  below k hk := Nat.lt_succ_of_lt (h.below k hk)
  entries := h.entries
  total := by
    have htotal := h.total
    simp only [Reader.count]
    omega

theorem Reader.Ordered.nodup (h : r.Ordered log) : r.indices.Nodup :=
  h.sorted.imp fun hlt => Nat.ne_of_lt hlt

theorem Reader.indices_length (r : Reader α) : r.indices.length = r.seen.length :=
  List.length_map ..

/-- The indices below the cursor that were not delivered are as many as the
counts. -/
theorem Reader.Ordered.length_skipped (h : r.Ordered log) :
    ((List.range r.cursor).filter fun k => k ∉ r.indices).length = r.counted := by
  have hperm : ((List.range r.cursor).filter fun k => k ∈ r.indices).Perm r.indices := by
    refine (List.perm_ext_iff_of_nodup (List.nodup_range.filter _) h.nodup).mpr fun k => ?_
    rw [List.mem_filter, List.mem_range, decide_eq_true_eq]
    exact ⟨fun hk => hk.2, fun hk => ⟨h.below k hk, hk⟩⟩
  have hsplit := List.length_eq_length_filter_add (l := List.range r.cursor)
    (fun k => decide (k ∈ r.indices))
  have htotal := h.total
  rw [hperm.length_eq, List.length_range, r.indices_length] at hsplit
  simp only [decide_not]
  omega

/-- A reader with no count was given a prefix of the log. -/
theorem Reader.Ordered.indices_eq_range (h : r.Ordered log) (h0 : r.counted = 0) :
    r.indices = List.range r.cursor ∧ r.cursor ≤ log.length := by
  have htotal := h.total
  have hsub : r.indices.Subperm (List.range r.cursor) :=
    h.nodup.subperm fun k hk => List.mem_range.mpr (h.below k hk)
  have hperm : r.indices.Perm (List.range r.cursor) := by
    refine hsub.perm_of_length_le ?_
    rw [List.length_range, r.indices_length]
    omega
  have heq : r.indices = List.range r.cursor := by
    refine List.Perm.eq_of_pairwise (fun a b _ _ hab hba => ?_) h.sorted List.pairwise_lt_range
      hperm
    exact absurd hab (Nat.lt_asymm hba)
  refine ⟨heq, ?_⟩
  by_contra hlt
  have hmem : r.cursor - 1 ∈ r.indices := by
    rw [heq, List.mem_range]
    omega
  obtain ⟨d, hd, hidx⟩ := List.mem_map.mp hmem
  obtain ⟨hd₁, hd₂, _⟩ := h.entries d hd
  omega

/-- Two readers that were both given `i` and `j` were given them in one order. -/
theorem Reader.Ordered.same_order {r' : Reader α} (h : r.Ordered log) (h' : r'.Ordered log)
    {i j : Nat} (hij : [i, j].Sublist r.indices) (hi : i ∈ r'.indices) (hj : j ∈ r'.indices) :
    [i, j].Sublist r'.indices := by
  have hlt : i < j := by
    have hpair := h.sorted.sublist hij
    simpa using hpair
  have hsorted := h'.sorted
  revert hi hj hsorted
  generalize r'.indices = l
  intro hi hj hsorted
  induction l with
  | nil => cases hi
  | cons k l ih =>
      obtain ⟨hk, hl⟩ := List.pairwise_cons.mp hsorted
      rcases List.mem_cons.mp hi with rfl | hi'
      · rcases List.mem_cons.mp hj with rfl | hj'
        · exact absurd hlt (Nat.lt_irrefl _)
        · exact (List.singleton_sublist.mpr hj').cons_cons i
      · rcases List.mem_cons.mp hj with rfl | hj'
        · exact absurd hlt (Nat.lt_asymm (hk i hi'))
        · exact (ih hi' hj' hl).cons k

end Ordered

/-! ## Exactness -/

/-- `c` owes nothing, or its own entry is at its cursor.  Below the cursor it
was given exactly the entries of the others, and its own entries are there. -/
structure Reader.Exact (log : List (ι × α)) (c : ι) (r : Reader α) : Prop where
  below : ∀ k ∈ r.indices, k < r.cursor
  cursor_le : r.cursor ≤ log.length
  own : ∀ k x, log[k]? = some (c, x) → k < r.cursor ∨ r.owing = true ∧ k = r.cursor
  owed : r.owing = true → ∃ x, log[r.cursor]? = some (c, x)
  seen_iff : ∀ k a x, k < r.cursor → log[k]? = some (a, x) → (k ∉ r.indices ↔ a = c)

/-- An append is made at the end of the log and with nothing owed, and only an
owed count is made. -/
def AtEnd (s : State ι α) : Event ι α → Prop
  | .append c _ => (s.reader c).cursor = s.log.length ∧ (s.reader c).owing = false
  | .deliver _ => True
  | .count c => (s.reader c).owing = true

theorem Reader.Exact.append_other {log : List (ι × α)} {c a : ι} {r : Reader α}
    (h : r.Exact log c) (hne : a ≠ c) (x : α) : r.Exact (log ++ [(a, x)]) c where
  below := h.below
  cursor_le := by
    have hle := h.cursor_le
    rw [List.length_append]
    omega
  own k y hk := by
    rcases getElem?_append_singleton hk with hk | ⟨_, heq⟩
    · exact h.own k y hk
    · cases heq
      exact absurd rfl hne
  owed ho := by
    obtain ⟨y, hy⟩ := h.owed ho
    exact ⟨y, getElem?_append_of_some hy⟩
  seen_iff k b y hlt hk := by
    rcases getElem?_append_singleton hk with hk | ⟨hlen, _⟩
    · exact h.seen_iff k b y hlt hk
    · have hle := h.cursor_le
      omega

theorem Reader.Exact.append_self {log : List (ι × α)} {c : ι} {r : Reader α}
    (h : r.Exact log c) (hend : r.cursor = log.length) (x : α) :
    Reader.Exact (log ++ [(c, x)]) c { r with owing := true } where
  below := h.below
  cursor_le := by
    rw [List.length_append]
    simp only
    omega
  own k y hk := by
    rcases getElem?_append_singleton hk with hk | ⟨hlen, _⟩
    · obtain ⟨hlt, _⟩ := List.getElem?_eq_some_iff.mp hk
      exact Or.inl (hend ▸ hlt)
    · exact Or.inr ⟨rfl, hlen.trans hend.symm⟩
  owed _ := ⟨x, by simp [hend]⟩
  seen_iff k b y hlt hk := by
    rcases getElem?_append_singleton hk with hk | ⟨hlen, _⟩
    · exact h.seen_iff k b y hlt hk
    · simp only at hlt
      omega

theorem Reader.Exact.deliver {log : List (ι × α)} {c a : ι} {r : Reader α} {x : α}
    (h : r.Exact log c) (hx : log[r.cursor]? = some (a, x)) (ho : r.owing = false) (upto : Nat) :
    (r.deliver x upto).Exact log c := by
  obtain ⟨hlt, _⟩ := List.getElem?_eq_some_iff.mp hx
  -- the entry at the cursor is not its own
  have hne : a ≠ c := by
    rintro rfl
    rcases h.own _ _ hx with hcursor | ⟨howing, _⟩
    · exact Nat.lt_irrefl _ hcursor
    · exact absurd howing (by simp [ho])
  have hmem : ∀ k, k ∈ (r.deliver x upto).indices ↔ k ∈ r.indices ∨ k = r.cursor := by
    intro k
    simp [Reader.indices, Reader.deliver, eq_comm]
  refine ⟨fun k hk => ?_, hlt, fun k y hk => ?_, fun howing => ?_, fun k b y hk hb => ?_⟩
  · rcases (hmem k).mp hk with hk | rfl
    · exact Nat.lt_succ_of_lt (h.below k hk)
    · exact Nat.lt_succ_self _
  · rcases h.own k y hk with hk | ⟨howing, _⟩
    · exact Or.inl (Nat.lt_succ_of_lt hk)
    · exact absurd howing (by simp [ho])
  · exact absurd howing (by simp [Reader.deliver, ho])
  · rw [hmem]
    rcases Nat.lt_succ_iff_lt_or_eq.mp hk with hk | rfl
    · rw [← h.seen_iff k b y hk hb, or_iff_left (Nat.ne_of_lt hk)]
    · rw [hx, Option.some.injEq, Prod.mk.injEq] at hb
      simp [← hb.1, hne]

theorem Reader.Exact.count {log : List (ι × α)} {c : ι} {r : Reader α}
    (h : r.Exact log c) (ho : r.owing = true) : r.count.Exact log c := by
  obtain ⟨x, hx⟩ := h.owed ho
  obtain ⟨hlt, _⟩ := List.getElem?_eq_some_iff.mp hx
  refine ⟨fun k hk => Nat.lt_succ_of_lt (h.below k hk), hlt, fun k y hk => ?_,
    fun howing => by simp [Reader.count] at howing, fun k b y hk hb => ?_⟩
  · rcases h.own k y hk with hk | ⟨_, rfl⟩
    · exact Or.inl (Nat.lt_succ_of_lt hk)
    · exact Or.inl (Nat.lt_succ_self _)
  · rcases Nat.lt_succ_iff_lt_or_eq.mp hk with hk | rfl
    · exact h.seen_iff k b y hk hb
    · -- its own entry, which was not delivered
      rw [hx, Option.some.injEq, Prod.mk.injEq] at hb
      have hnot : r.cursor ∉ r.indices := fun hmem => Nat.lt_irrefl _ (h.below _ hmem)
      exact iff_of_true hnot hb.1.symm

/-- A late append, once it is counted, leaves an entry of another party below
the cursor that was not delivered. -/
theorem late_append_not_exact {log : List (ι × α)} {c : ι} {r : Reader α} (h : r.Exact log c)
    (ho : r.owing = false) (hlate : r.cursor ≠ log.length) :
    ∃ k a x, k < r.count.cursor ∧ log[k]? = some (a, x) ∧ k ∉ r.count.indices ∧ a ≠ c := by
  have hlt : r.cursor < log.length := Nat.lt_of_le_of_ne h.cursor_le hlate
  obtain ⟨⟨a, x⟩, hget⟩ : ∃ p, log[r.cursor]? = some p := ⟨_, List.getElem?_eq_getElem hlt⟩
  refine ⟨r.cursor, a, x, Nat.lt_succ_self _, hget,
    fun hmem => Nat.lt_irrefl _ (h.below _ hmem), ?_⟩
  rintro rfl
  rcases h.own r.cursor x hget with hcursor | ⟨howing, _⟩
  · exact Nat.lt_irrefl _ hcursor
  · exact absurd howing (by simp [ho])

/-! ## Bounds -/

/-- The cursor, and the count that is owed, are within the log. -/
def Reader.Bounded (log : List (ι × α)) (r : Reader α) : Prop :=
  r.cursor + (if r.owing then 1 else 0) ≤ log.length

/-- Only an owed count is made. -/
def OwedOnly (s : State ι α) : Event ι α → Prop
  | .append _ _ => True
  | .deliver _ => True
  | .count c => (s.reader c).owing = true

section Bounded

variable {log : List (ι × α)} {r : Reader α}

theorem Reader.Bounded.append (h : r.Bounded log) (e : ι × α) : r.Bounded (log ++ [e]) := by
  rw [Reader.Bounded, List.length_append]
  exact h.trans (Nat.le_add_right _ _)

theorem Reader.Bounded.append_self (h : r.Bounded log) (e : ι × α) :
    Reader.Bounded (log ++ [e]) { r with owing := true } := by
  have hle : r.cursor ≤ log.length := (Nat.le_add_right _ _).trans h
  rw [Reader.Bounded, List.length_append]
  exact Nat.succ_le_succ hle

theorem Reader.Bounded.deliver {a : ι} {x : α} (hx : log[r.cursor]? = some (a, x))
    (ho : r.owing = false) (upto : Nat) : (r.deliver x upto).Bounded log := by
  obtain ⟨hlt, _⟩ := List.getElem?_eq_some_iff.mp hx
  rw [Reader.Bounded, Reader.deliver, ho]
  exact hlt

/-- The count was within the log when it was owed. -/
theorem Reader.Bounded.count (h : r.Bounded log) (ho : r.owing = true) : r.count.Bounded log := by
  rw [Reader.Bounded, ho] at h
  exact h

end Bounded

/-! ## Runs -/

section Runs

variable [DecidableEq ι] {s s' : State ι α} {G : State ι α → Event ι α → Prop}

/-- A property of each reader, after one of them is replaced. -/
theorem forall_reader_set {P : ι → Reader α → Prop} {c : ι} {r : Reader α}
    (h : ∀ d, d ≠ c → P d (s.reader d)) (hr : P c r) : ∀ d, P d ((s.set c r).reader d) := by
  intro d
  rcases eq_or_ne d c with rfl | hd
  · simpa [State.set] using hr
  · simpa [State.set, hd] using h d hd

theorem Step.ordered {e : Event ι α} (h : ∀ c, (s.reader c).Ordered s.log) (hs : Step s e s') :
    ∀ c, (s'.reader c).Ordered s'.log := by
  cases hs with
  | @append c x =>
      have howing : Reader.Ordered s.log { s.reader c with owing := true } :=
        ⟨(h c).sorted, (h c).below, (h c).entries, (h c).total⟩
      exact forall_reader_set (P := fun _ r => r.Ordered (s.log ++ [(c, x)]))
        (fun d _ => (h d).append (c, x)) (howing.append (c, x))
  | deliver hx =>
      exact forall_reader_set (P := fun _ r => r.Ordered s.log) (fun d _ => h d) ((h _).deliver hx)
  | count =>
      exact forall_reader_set (P := fun _ r => r.Ordered s.log) (fun d _ => h d) (h _).count

/-- In every run every reader is ordered. -/
theorem run_ordered (h : Run Step G .fresh s) (c : ι) : (s.reader c).Ordered s.log :=
  h.invariant (I := fun s => ∀ c, (s.reader c).Ordered s.log)
    (fun _ => ⟨List.Pairwise.nil, by simp [Reader.indices, State.fresh, Reader.fresh],
      by simp [State.fresh, Reader.fresh], rfl⟩)
    (fun _ _ _ _ ih hs => hs.ordered ih) c

theorem Step.exact {e : Event ι α} (h : ∀ c, (s.reader c).Exact s.log c) (hG : AtEnd s e)
    (hs : Step s e s') : ∀ c, (s'.reader c).Exact s'.log c := by
  cases hs with
  | @append c x =>
      exact forall_reader_set (P := fun d r => r.Exact (s.log ++ [(c, x)]) d)
        (fun d hd => (h d).append_other hd.symm x) ((h c).append_self hG.1 x)
  | deliver hx ho =>
      exact forall_reader_set (P := fun d r => r.Exact s.log d) (fun d _ => h d)
        ((h _).deliver hx ho s.log.length)
  | count =>
      exact forall_reader_set (P := fun d r => r.Exact s.log d) (fun d _ => h d) ((h _).count hG)

/-- In every run whose appends are made at the end of the log, every reader is
exact. -/
theorem run_exact (h : Run Step AtEnd .fresh s) (c : ι) : (s.reader c).Exact s.log c :=
  h.invariant (I := fun s => ∀ c, (s.reader c).Exact s.log c)
    (fun _ => ⟨by simp [Reader.indices, State.fresh, Reader.fresh], Nat.le_refl _,
      by simp [State.fresh], by simp [State.fresh, Reader.fresh], by simp [State.fresh]⟩)
    (fun _ _ _ hG ih hs => hs.exact ih hG) c

theorem Step.bounded {e : Event ι α} (h : ∀ c, (s.reader c).Bounded s.log) (hG : OwedOnly s e)
    (hs : Step s e s') : ∀ c, (s'.reader c).Bounded s'.log := by
  cases hs with
  | @append c x =>
      exact forall_reader_set (P := fun _ r => r.Bounded (s.log ++ [(c, x)]))
        (fun d _ => (h d).append (c, x)) ((h c).append_self (c, x))
  | deliver hx ho =>
      exact forall_reader_set (P := fun _ r => r.Bounded s.log) (fun d _ => h d)
        (.deliver hx ho s.log.length)
  | count =>
      exact forall_reader_set (P := fun _ r => r.Bounded s.log) (fun d _ => h d) ((h _).count hG)

/-- In every run of owed counts, no cursor passes the end of the log. -/
theorem run_bounded (h : Run Step OwedOnly .fresh s) (c : ι) : (s.reader c).Bounded s.log :=
  h.invariant (I := fun s => ∀ c, (s.reader c).Bounded s.log)
    (fun _ => by simp [Reader.Bounded, State.fresh, Reader.fresh])
    (fun _ _ _ hG ih hs => hs.bounded ih hG) c

end Runs

end Broadcast
