import TelnetChat.CRuntime.Block

/-!
# Memory with pointers

A memory is the list of the blocks allocated so far.  A pointer is the index of its
block, and a block that was freed keeps its index.  So no two blocks ever have one
pointer, and every access through a pointer that was freed is undefined behaviour, as
is a second `free`.

A `Heaped` computation is a C computation over a memory, and `Yields x m Q` is its
total triple from the memory `m`.

`Grows P k m m'` says what a function did to the memory besides its result: no block
with a pointer in `P` was touched, and `k` more blocks are live.  The effects of the
statements of a function add up (`Grows.trans`).

`Alike R x y` compares a computation with one that has no memory: they return related
values, or fault alike.  What each step keeps is kept by a run (`Alike.foldlM`).
-/

namespace CRuntime

/-- A pointer to a block. -/
abbrev Ptr : Type := Nat

/-- The blocks, oldest first; `none` is one that was freed. -/
abbrev Memory (τ : Type) : Type := List (Option (Block τ))

/-- Where a `const` pointer points to. -/
inductive Source (τ : Type) where
  | heap (p : Ptr)
  /-- A string literal. -/
  | literal (b : Block τ)
deriving DecidableEq

/-- A C computation over a memory. -/
abbrev Heaped (τ α : Type) : Type := StateT (Memory τ) Exec α

/-! ## Access -/

namespace Memory

variable {τ : Type}

/-- `p` points to `b`. -/
def At (m : Memory τ) (p : Ptr) (b : Block τ) : Prop := m[p]? = some (some b)

def block (m : Memory τ) (p : Ptr) : Exec (Block τ) :=
  match m[p]? with
  | some (some b) => .ok b
  | _ => .error .undefined

def source (m : Memory τ) : Source τ → Exec (Block τ)
  | .heap p => m.block p
  | .literal b => .ok b

/-- The number of blocks that were not freed. -/
def live (m : Memory τ) : Nat := m.countP Option.isSome

/-- The size of a block, zero when there is none. -/
def size (m : Memory τ) (src : Source τ) : Nat :=
  match m.source src with
  | .ok b => b.length
  | .error _ => 0

end Memory

namespace Heaped

variable {τ : Type}

/-- The memory from `malloc` or `calloc`, with its first content. -/
def alloc (b : Block τ) : Heaped τ Ptr := fun m => .ok (m.length, m ++ [some b])

def malloc (n : Nat) : Heaped τ Ptr := alloc (Block.malloc n)

def free (p : Ptr) : Heaped τ Unit := fun m => do
  let _ ← m.block p
  pure ((), m.set p none)

/-- The whole block, for a function that only reads it. -/
def read (src : Source τ) : Heaped τ (Block τ) := fun m => do
  let b ← m.source src
  pure (b, m)

/-- `src[i]`. -/
def load (src : Source τ) (i : Nat) : Heaped τ τ := do
  let b ← read src
  b.load i

/-- `src[i]` at a signed index. -/
def loadInt (src : Source τ) (i : Int) : Heaped τ τ := do
  let b ← read src
  b.loadInt i

/-- `p[i] = x`. -/
def store (p : Ptr) (i : Nat) (x : τ) : Heaped τ Unit := fun m => do
  let b ← m.block p
  let b ← b.store i x
  pure ((), m.set p (some b))

/-- The body runs `n` times, at the indices `i`, `i + 1`, … -/
def forUp (body : Nat → Heaped τ Unit) : Nat → Nat → Heaped τ Unit
  | 0, _ => pure ()
  | n + 1, i => do
      body i
      forUp body n (i + 1)

/-- The body is tried at `i`, `i + 1`, … and the first answer is returned. -/
def findUp {β : Type} (body : Nat → Heaped τ (Option β)) : Nat → Nat → Heaped τ (Option β)
  | 0, _ => pure none
  | n + 1, i => do
      match ← body i with
      | some b => pure (some b)
      | none => findUp body n (i + 1)

/-- `for (c = 0; c < n; c++) dst[off + c] = src[c]`. -/
def copy (dst : Ptr) (src : Source τ) (off n : Nat) : Heaped τ Unit :=
  forUp (fun c => do
    let x ← load src c
    store dst (off + c) x) n 0

/-- `strcat(dst, src)`, of two objects that do not overlap. -/
def strcat (dst : Ptr) (src : Source Byte) : Heaped Byte Unit := fun m => do
  let d ← m.block dst
  let s ← m.source src
  if src = .heap dst then .error .undefined
  else do
    let d ← CRuntime.strcat d s
    pure ((), m.set dst (some d))

end Heaped

/-! ## Effects -/

namespace Memory

variable {τ : Type} {m m' m'' : Memory τ} {p q : Ptr} {b b' : Block τ} {P Q : Ptr → Prop}
  {k j : Nat} {src : Source τ}

theorem At.lt (h : m.At p b) : p < m.length := (List.getElem?_eq_some_iff.mp h).1

theorem At.block (h : m.At p b) : m.block p = .ok b := by
  rw [Memory.block, show m[p]? = some (some b) from h]

theorem At.source (h : m.At p b) : m.source (.heap p) = .ok b := h.block

theorem at_of_block (h : m.block p = .ok b) : m.At p b := by
  unfold Memory.block at h
  split at h
  · cases h
    assumption
  · cases h

theorem at_concat (m : Memory τ) (b : Block τ) : Memory.At (m ++ [some b]) m.length b :=
  List.getElem?_concat_length

theorem At.set (h : m.At p b) (b' : Block τ) : Memory.At (m.set p (some b')) p b' :=
  List.getElem?_set_self h.lt

/-- The blocks in `P` are what they were, and no pointer is used again. -/
structure Keeps (P : Ptr → Prop) (m m' : Memory τ) : Prop where
  length_le : m.length ≤ m'.length
  kept : ∀ p b, P p → m.At p b → m'.At p b

theorem Keeps.mono (h : Keeps P m m') (hQ : ∀ p < m.length, Q p → P p) : Keeps Q m m' where
  length_le := h.length_le
  kept p b hp hb := h.kept p b (hQ p hb.lt hp) hb

/-- The blocks in `P` are what they were, and `k` more blocks are live. -/
structure Grows (P : Ptr → Prop) (k : Nat) (m m' : Memory τ) : Prop extends Keeps P m m' where
  live_eq : m'.live = m.live + k

theorem Grows.refl (P : Ptr → Prop) (m : Memory τ) : Grows P 0 m m :=
  ⟨⟨Nat.le_refl _, fun _ _ _ h => h⟩, rfl⟩

/-- Only the blocks that were there at first matter. -/
theorem Grows.then (h : Grows P k m m') (h' : Grows Q j m' m'')
    (hQ : ∀ p < m.length, P p → Q p) : Grows P (k + j) m m'' where
  length_le := Nat.le_trans h.length_le h'.length_le
  kept p b hp hb := h'.kept p b (hQ p hb.lt hp) (h.kept p b hp hb)
  live_eq := by rw [h'.live_eq, h.live_eq, Nat.add_assoc]

theorem Grows.trans (h : Grows P k m m') (h' : Grows P j m' m'') : Grows P (k + j) m m'' :=
  h.then h' fun _ _ hp => hp

theorem Grows.mono (h : Grows P k m m') (hQ : ∀ p < m.length, Q p → P p) : Grows Q k m m' :=
  ⟨h.toKeeps.mono hQ, h.live_eq⟩

theorem grows_concat (P : Ptr → Prop) (m : Memory τ) (b : Block τ) :
    Grows P 1 m (m ++ [some b]) where
  length_le := by
    rw [List.length_append]
    exact Nat.le_add_right _ _
  kept p b' _ h := (List.getElem?_append_left h.lt).trans h
  live_eq := by simp [live]

theorem live_set (h : m.At p b) (x : Option (Block τ)) :
    live (m.set p x) + 1 = m.live + if x.isSome then 1 else 0 := by
  obtain ⟨hlt, hget⟩ := List.getElem?_eq_some_iff.mp h
  have hpos : 0 < m.countP Option.isSome :=
    List.countP_pos_iff.mpr ⟨some b, hget ▸ List.getElem_mem hlt, rfl⟩
  rw [live, live, List.countP_set hlt, hget]
  simp only [Option.isSome_some, if_true]
  omega

/-- A block is overwritten. -/
theorem grows_set (h : m.At p b) (b' : Block τ) : Grows (· ≠ p) 0 m (m.set p (some b')) where
  length_le := Nat.le_of_eq (List.length_set ..).symm
  kept q c hq hc := (List.getElem?_set_ne hq.symm).trans hc
  live_eq := by simpa using live_set h (some b')

/-- A block is overwritten that was not there at first. -/
theorem Grows.set (h : Grows P k m m') (hp : m'.At p b) (hnew : m.length ≤ p) (b' : Block τ) :
    Grows P k m (m'.set p (some b')) :=
  h.then (grows_set hp b') fun _ hlt _ => Nat.ne_of_lt (Nat.lt_of_lt_of_le hlt hnew)

/-- A block is freed. -/
theorem keeps_free (m : Memory τ) (p : Ptr) : Keeps (· ≠ p) m (m.set p none) where
  length_le := Nat.le_of_eq (List.length_set ..).symm
  kept _ _ hq hc := (List.getElem?_set_ne hq.symm).trans hc

theorem live_free (h : m.At p b) : live (m.set p none) + 1 = m.live := by
  simpa using live_set h none

/-- A block is freed after others were allocated. -/
theorem Grows.free (h : Grows P (k + 1) m m') (hp : m'.At p b) (hP : ∀ q < m.length, P q → q ≠ p) :
    Grows P k m (m'.set p none) where
  length_le := Nat.le_trans h.length_le (keeps_free m' p).length_le
  kept q c hq hc := (keeps_free m' p).kept q c (hP q hc.lt hq) (h.kept q c hq hc)
  live_eq := by
    have hlive := live_free hp
    have hm := h.live_eq
    omega

theorem source_literal (m : Memory τ) (b : Block τ) : m.source (.literal b) = .ok b := rfl

theorem literal_ne_heap (b : Block τ) (p : Ptr) : Source.literal b ≠ .heap p := by
  intro h
  cases h

/-- A `const` pointer that can be read is not the next one from `malloc`. -/
theorem source_ne_next (h : m.source src = .ok b) : src ≠ .heap m.length := by
  rintro rfl
  exact Nat.lt_irrefl _ (at_of_block h).lt

/-- What a `const` pointer outside the changes reads. -/
theorem Grows.source (h : Grows P k m m') (hsrc : m.source src = .ok b)
    (hp : ∀ p, src = .heap p → P p) : m'.source src = .ok b := by
  cases src with
  | heap p => exact (h.kept p b (hp p rfl) (at_of_block hsrc)).source
  | literal b => exact hsrc

end Memory

/-! ## Triples -/

namespace Heaped

variable {τ α β : Type} {x : Heaped τ α} {f : α → Heaped τ β} {m m' : Memory τ}
  {P : α → Memory τ → Prop} {Q : β → Memory τ → Prop}

/-- From `m` the computation does not fault, and `P` holds of its result and of the
memory it leaves. -/
def Yields (x : Heaped τ α) (m : Memory τ) (P : α → Memory τ → Prop) : Prop :=
  ∃ a m', x.run m = .ok (a, m') ∧ P a m'

theorem run_bind (x : Heaped τ α) (f : α → Heaped τ β) (m : Memory τ) :
    (x >>= f).run m = x.run m >>= fun r => (f r.1).run r.2 := rfl

theorem bind_run {a : α} (h : x.run m = .ok (a, m')) : (x >>= f).run m = (f a).run m' := by
  rw [run_bind, h]
  rfl

theorem bind_run_error {e : Fault} (h : x.run m = .error e) : (x >>= f).run m = .error e := by
  rw [run_bind, h]
  rfl

/-- A computation that returns has a first part that returns. -/
theorem bind_run_eq_ok {r : β × Memory τ} :
    (x >>= f).run m = .ok r ↔ ∃ a m', x.run m = .ok (a, m') ∧ (f a).run m' = .ok r := by
  rw [run_bind, bind_eq_ok]
  exact Prod.exists

theorem Yields.of_eq {a : α} (h : x.run m = .ok (a, m')) (hP : P a m') : Yields x m P :=
  ⟨a, m', h, hP⟩

theorem yields_pure {a : α} (h : P a m) : Yields (pure a) m P := Yields.of_eq rfl h

theorem lift_run {e : Exec α} {a : α} (he : e = .ok a) (m : Memory τ) :
    (monadLift e : Heaped τ α).run m = .ok (a, m) := by
  subst he
  rfl

theorem lift_run_error {e : Exec α} {fault : Fault} (he : e = .error fault) (m : Memory τ) :
    (monadLift e : Heaped τ α).run m = .error fault := by
  subst he
  rfl

theorem yields_lift {e : Exec α} {a : α} (he : e = .ok a) (h : P a m) :
    Yields (monadLift e) m P :=
  Yields.of_eq (lift_run he m) h

theorem Yields.mono {P' : α → Memory τ → Prop} (h : Yields x m P) (hP : ∀ a m, P a m → P' a m) :
    Yields x m P' := by
  obtain ⟨a, m', hx, ha⟩ := h
  exact ⟨a, m', hx, hP a m' ha⟩

/-- The sequencing rule. -/
theorem Yields.bind (h : Yields x m P) (hf : ∀ a m, P a m → Yields (f a) m Q) :
    Yields (x >>= f) m Q := by
  obtain ⟨a, m', hx, ha⟩ := h
  obtain ⟨b, m'', hrest, hb⟩ := hf a m' ha
  exact ⟨b, m'', bind_run_eq_ok.mpr ⟨a, m', hx, hrest⟩, hb⟩

/-- A computation that is known to yield goes on. -/
theorem Yields.bind_eq {a : α} (h : x.run m = .ok (a, m')) (hf : Yields (f a) m' Q) :
    Yields (x >>= f) m Q :=
  Yields.bind (P := fun a' m'' => a' = a ∧ m'' = m') (.of_eq h ⟨rfl, rfl⟩)
    fun _ _ ⟨ha, hm⟩ => ha ▸ hm ▸ hf

end Heaped

/-! ## The statements -/

namespace Heaped

variable {τ : Type} {m m' : Memory τ} {p : Ptr} {src : Source τ} {a b b' : Block τ} {i off n : Nat}
  {x : τ}

theorem alloc_run (b : Block τ) (m : Memory τ) :
    (alloc b).run m = .ok (m.length, m ++ [some b]) := rfl

theorem malloc_run (n : Nat) (m : Memory τ) :
    (malloc n).run m = .ok (m.length, m ++ [some (Block.malloc n)]) := rfl

theorem free_run (h : m.At p b) : (free p).run m = .ok ((), m.set p none) := by
  show (m.block p >>= fun _ => _) = _
  rw [h.block]
  rfl

theorem read_run (h : m.source src = .ok b) : (read src).run m = .ok (b, m) := by
  show (m.source src >>= fun b => _) = _
  rw [h]
  rfl

theorem load_run (h : m.source src = .ok b) (hx : b.load i = .ok x) :
    (load src i).run m = .ok (x, m) := by
  rw [load, bind_run (read_run h)]
  exact lift_run hx m

theorem loadInt_run {i : Int} (h : m.source src = .ok b) (hx : b.loadInt i = .ok x) :
    (loadInt src i).run m = .ok (x, m) := by
  rw [loadInt, bind_run (read_run h)]
  exact lift_run hx m

theorem read_memory (h : (read src).run m = .ok (b, m')) : m' = m ∧ m.source src = .ok b := by
  obtain ⟨c, hc, hpure⟩ := bind_eq_ok.mp h
  cases hpure
  exact ⟨rfl, hc⟩

theorem lift_memory {α : Type} {e : Exec α} {y : α}
    (h : (monadLift e : Heaped τ α).run m = .ok (y, m')) : m' = m ∧ e = .ok y := by
  cases e with
  | error e => cases h
  | ok z =>
      cases h
      exact ⟨rfl, rfl⟩

/-- A load leaves the memory alone. -/
theorem load_memory (h : (load src i).run m = .ok (x, m')) : m' = m := by
  obtain ⟨b, m₁, hread, hrest⟩ := bind_run_eq_ok.mp h
  exact (lift_memory hrest).1.trans (read_memory hread).1

theorem store_run (h : m.At p b) (hb : b.store i x = .ok b') :
    (store p i x).run m = .ok ((), m.set p (some b')) := by
  show (m.block p >>= fun b => _) = _
  rw [h.block, ok_bind, hb]
  rfl

/-- A copy loop between two blocks does what it does to the target alone. -/
theorem copy_run (hsrc : m.source src = .ok a) (hp : m.At p b) (hne : src ≠ .heap p)
    (hcopy : b.copyInto a off n = .ok b') :
    (copy p src off n).run m = .ok ((), m.set p (some b')) := by
  have loop : ∀ n i (m : Memory τ) (b : Block τ), m.source src = .ok a → m.At p b →
      CRuntime.forUp (fun c dst => do
        let x ← a.load c
        dst.store (off + c) x) n i b = .ok b' →
      (forUp (fun c => do
        let x ← load src c
        store p (off + c) x) n i).run m = .ok ((), m.set p (some b')) := by
    intro n
    induction n with
    | zero =>
        intro i m b _ hp hcopy
        cases hcopy
        obtain ⟨hlt, hget⟩ := List.getElem?_eq_some_iff.mp hp
        rw [← hget, List.set_getElem_self hlt]
        rfl
    | succ n ih =>
        intro i m b hsrc hp hcopy
        rw [CRuntime.forUp] at hcopy
        obtain ⟨b₁, hbody, hrest⟩ := bind_eq_ok.mp hcopy
        obtain ⟨x, hload, hstore⟩ := bind_eq_ok.mp hbody
        have hsrc' : Memory.source (m.set p (some b₁)) src = .ok a := by
          refine (Memory.grows_set hp b₁).source hsrc ?_
          rintro q rfl rfl
          exact hne rfl
        have hboth : (do
            let x ← load src i
            store p (off + i) x).run m = .ok ((), m.set p (some b₁)) :=
          (bind_run (load_run hsrc hload)).trans (store_run hp hstore)
        rw [forUp, bind_run hboth, ih (i + 1) _ b₁ hsrc' (hp.set b₁) hrest, List.set_set]
  exact loop n 0 m b hsrc hp hcopy

theorem strcat_run {m : Memory Byte} {src : Source Byte} {a b b' : Block Byte} (hp : m.At p b)
    (hsrc : m.source src = .ok a) (hne : src ≠ .heap p) (hcat : CRuntime.strcat b a = .ok b') :
    (strcat p src).run m = .ok ((), m.set p (some b')) := by
  show (m.block p >>= fun d => _) = _
  rw [hp.block, ok_bind, hsrc, ok_bind, if_neg hne, hcat]
  rfl

/-- A search that only reads finds the first element that answers.  The elements are
described by a list they are related to. -/
theorem findUp_yields {α σ : Type} {R : σ → α → Prop} {q : α → Bool}
    {body : Nat → Heaped τ (Option σ)} {xs : List σ} {ys : List α} (hxs : List.Forall₂ R xs ys) :
    ∀ i, (∀ j x y, xs[j]? = some x → y ∈ ys → R x y →
        (body (i + j)).run m = .ok (if q y then some x else none, m)) →
      Yields (findUp body xs.length i) m fun r m' => m' = m ∧ Option.Rel R r (ys.find? q) := by
  induction hxs with
  | nil => exact fun i _ => yields_pure ⟨rfl, .none⟩
  | @cons x y xs ys hxy _ ih =>
      intro i hbody
      have hfirst := hbody 0 x y rfl List.mem_cons_self hxy
      rw [Nat.add_zero] at hfirst
      rw [List.length_cons, findUp, List.find?_cons]
      refine .bind_eq hfirst ?_
      cases hq : q y with
      | true => exact yields_pure ⟨rfl, .some hxy⟩
      | false =>
          refine ih (i + 1) fun j x' y' hx hy hR => ?_
          rw [show i + 1 + j = i + (j + 1) by omega]
          exact hbody (j + 1) x' y' (by simpa using hx) (List.mem_cons_of_mem y hy) hR

/-! ## Sizes -/

theorem size_eq (h : m.source src = .ok b) : m.size src = b.length := by
  rw [Memory.size, h]

theorem alloc_size (h : m.source src = .ok a) (b : Block τ) :
    Memory.size (m ++ [some b]) src = m.size src := by
  have hsrc := (Memory.grows_concat (fun _ => True) m b).source h fun _ _ => trivial
  rw [size_eq h, size_eq hsrc]

theorem store_size {u : Unit} (h : (store p i x).run m = .ok (u, m')) (src : Source τ) :
    m'.size src = m.size src := by
  obtain ⟨b, hb, hrest⟩ := bind_eq_ok.mp h
  obtain ⟨b', hb', hpure⟩ := bind_eq_ok.mp hrest
  cases hpure
  have hp := Memory.at_of_block hb
  obtain ⟨_, hlen⟩ := Block.store_inBounds hb'
  cases src with
  | literal c => rfl
  | heap q =>
      rcases eq_or_ne q p with rfl | hne
      · have hold : m.source (.heap q) = .ok b := hb
        have hnew : Memory.source (m.set q (some b')) (.heap q) = .ok b' := (hp.set b').block
        rw [size_eq hold, size_eq hnew, hlen]
      · simp only [Memory.size, Memory.source, Memory.block, List.getElem?_set_ne hne.symm]

theorem copy_size {dst : Ptr} {u : Unit} (h : (copy dst src off n).run m = .ok (u, m'))
    (src' : Source τ) : m'.size src' = m.size src' := by
  have loop : ∀ n i (m : Memory τ),
      (forUp (fun c => do
        let x ← load src c
        store dst (off + c) x) n i).run m = .ok (u, m') → m'.size src' = m.size src' := by
    intro n
    induction n with
    | zero =>
        intro i m h
        cases h
        rfl
    | succ n ih =>
        intro i m h
        obtain ⟨_, m₁, hbody, hrest⟩ := bind_run_eq_ok.mp h
        obtain ⟨x, m₂, hload, hstore⟩ := bind_run_eq_ok.mp hbody
        rw [ih (i + 1) m₁ hrest, store_size hstore, load_memory hload]
  exact loop n 0 m h

theorem free_size {u : Unit} (h : (free p).run m = .ok (u, m')) (src : Source τ) :
    m'.size src ≤ m.size src := by
  obtain ⟨b, hb, hpure⟩ := bind_eq_ok.mp h
  cases hpure
  cases src with
  | literal c => exact Nat.le_refl _
  | heap q =>
      rcases eq_or_ne q p with rfl | hne
      · have hfreed : Memory.size (m.set q none) (.heap q) = 0 := by
          simp [Memory.size, Memory.source, Memory.block,
            List.getElem?_set_self (Memory.at_of_block hb).lt]
        rw [hfreed]
        exact Nat.zero_le _
      · simp only [Memory.size, Memory.source, Memory.block, List.getElem?_set_ne hne.symm]
        exact Nat.le_refl _

end Heaped

/-! ## Two levels -/

/-- The computations return related values, or fault alike. -/
inductive Alike {ε α β : Type} (R : α → β → Prop) : Except ε α → Except ε β → Prop where
  | ok {a : α} {b : β} : R a b → Alike R (.ok a) (.ok b)
  | error (e : ε) : Alike R (.error e) (.error e)

section Alike

variable {ε α β γ : Type} {R R' : α → β → Prop} {x : Except ε α} {y : Except ε β} {a : α} {b : β}

theorem Alike.of_eq (hx : x = .ok a) (hy : y = .ok b) (h : R a b) : Alike R x y := by
  subst hx hy
  exact .ok h

/-- The results may be used as such. -/
theorem Alike.mono (h : Alike R x y) (hR : ∀ a b, x = .ok a → y = .ok b → R a b → R' a b) :
    Alike R' x y := by
  cases h with
  | ok h => exact .ok (hR _ _ rfl rfl h)
  | error e => exact .error e

/-- What returns at the first level returns at the second. -/
theorem Alike.result (h : Alike R x y) (hx : x = .ok a) : ∃ b, y = .ok b ∧ R a b := by
  subst hx
  cases h with
  | ok h => exact ⟨_, rfl, h⟩

theorem Alike.origin (h : Alike R x y) (hy : y = .ok b) : ∃ a, x = .ok a ∧ R a b := by
  subst hy
  cases h with
  | ok h => exact ⟨_, rfl, h⟩

/-- The sequencing rule. -/
theorem Alike.bind {α' β' : Type} {Q : α' → β' → Prop} {f : α → Except ε α'} {g : β → Except ε β'}
    (h : Alike R x y) (hf : ∀ a b, R a b → Alike Q (f a) (g b)) :
    Alike Q (x >>= f) (y >>= g) := by
  cases h with
  | ok h => exact hf _ _ h
  | error e => exact .error e

/-- A relation that steps keep is kept by whole runs. -/
theorem Alike.foldlM {f : α → γ → Except ε α} {g : β → γ → Except ε β} {xs : List γ} (h : R a b)
    (hstep : ∀ x ∈ xs, ∀ a b, R a b → Alike R (f a x) (g b x)) :
    Alike R (xs.foldlM f a) (xs.foldlM g b) := by
  induction xs generalizing a b with
  | nil => exact .ok h
  | cons x xs ih =>
      rw [List.foldlM_cons, List.foldlM_cons]
      apply (hstep x List.mem_cons_self a b h).bind
      exact fun a b h' => ih h' fun y hy => hstep y (List.mem_cons_of_mem x hy)

end Alike

end CRuntime
