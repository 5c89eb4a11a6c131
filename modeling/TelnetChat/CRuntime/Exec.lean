import Mathlib.Data.List.Forall2

/-!
# C statements with faults

A C function is embedded as a function into `Exec`, which either returns or
ends the process with a `Fault`.  `Returns m P` is the total triple of such a
computation: it does not fault and its result satisfies `P`.  The rules below
compose triples along `>>=`, along the two loops of this file, and along a call
for each element of a list.

*Loops.*  `forUp body n i s` is `for (; n > 0; n--, i++) s = body(i, s)`.
`findUp body n i` is the search loop `for (…) if (…) return …;`, which leaves
at the first index where `body` answers.
-/

namespace CRuntime

/-- How a process ends before its function returns. -/
inductive Fault where
  /-- Undefined behaviour: an access outside a block, or the use of a value
  that was never written. -/
  | undefined
  /-- A call of `exit`. -/
  | exit (status : Nat)
deriving DecidableEq, Repr

/-- A C computation. -/
abbrev Exec (α : Type) : Type := Except Fault α

/-! ## Triples -/

section Returns

variable {ε α β : Type} {m : Except ε α} {f : α → Except ε β} {P : α → Prop} {Q : β → Prop}

/-- `m` does not fault, and its result satisfies `P`. -/
def Returns (m : Except ε α) (P : α → Prop) : Prop := ∃ a, m = .ok a ∧ P a

@[simp] theorem ok_bind (a : α) (f : α → Except ε β) : (Except.ok a >>= f) = f a := rfl

@[simp] theorem error_bind (e : ε) (f : α → Except ε β) :
    ((Except.error e : Except ε α) >>= f) = .error e := rfl

@[simp] theorem pure_eq_ok (a : α) : (pure a : Except ε α) = .ok a := rfl

/-- A computation that returns has a first part that returns. -/
theorem bind_eq_ok {b : β} : m >>= f = .ok b ↔ ∃ a, m = .ok a ∧ f a = .ok b := by
  cases m with
  | error e => simp
  | ok a => simp

theorem toOption_eq_some {a : α} (h : m.toOption = some a) : m = .ok a := by
  cases m with
  | error e => cases h
  | ok b => exact congrArg Except.ok (Option.some.inj h)

@[simp] theorem returns_ok {a : α} : Returns (.ok a : Except ε α) P ↔ P a := by
  simp [Returns]

theorem Returns.of_eq {a : α} (h : m = .ok a) (ha : P a) : Returns m P := ⟨a, h, ha⟩

theorem Returns.mono {P' : α → Prop} (h : Returns m P) (hP : ∀ a, P a → P' a) :
    Returns m P' := by
  obtain ⟨a, hm, ha⟩ := h
  exact ⟨a, hm, hP a ha⟩

/-- The sequencing rule. -/
theorem Returns.bind (h : Returns m P) (hf : ∀ a, P a → Returns (f a) Q) :
    Returns (m >>= f) Q := by
  obtain ⟨a, rfl, ha⟩ := h
  exact hf a ha

/-- A computation is deterministic: what it is known to return is in `P`. -/
theorem Returns.result {a : α} (h : Returns m P) (hm : m = .ok a) : P a := by
  obtain ⟨b, hb, hP⟩ := h
  rw [hm, Except.ok.injEq] at hb
  exact hb ▸ hP

end Returns

/-! ## Loops -/

section Loops

variable {ε σ β : Type}

/-- The body runs `n` times, at the indices `i`, `i + 1`, … -/
def forUp (body : Nat → σ → Except ε σ) : Nat → Nat → σ → Except ε σ
  | 0, _, s => pure s
  | n + 1, i, s => do
      let s ← body i s
      forUp body n (i + 1) s

/-- The body is tried at `i`, `i + 1`, … and the first answer is returned;
`none` after `n` indices without one. -/
def findUp (body : Nat → Except ε (Option β)) : Nat → Nat → Except ε (Option β)
  | 0, _ => pure none
  | n + 1, i => do
      match ← body i with
      | some b => pure (some b)
      | none => findUp body n (i + 1)

/-- The invariant rule of a counting loop. -/
theorem forUp_returns {body : Nat → σ → Except ε σ} {I : Nat → σ → Prop} (n i : Nat) (s : σ)
    (hs : I i s) (hstep : ∀ j s, i ≤ j → j < i + n → I j s → Returns (body j s) (I (j + 1))) :
    Returns (forUp body n i s) (I (i + n)) := by
  induction n generalizing i s with
  | zero => exact returns_ok.mpr hs
  | succ n ih =>
      rw [forUp]
      apply (hstep i s (Nat.le_refl i) (Nat.lt_add_of_pos_right n.succ_pos) hs).bind
      intro s' hs'
      have hrun := ih (i + 1) s' hs' fun j t hj hlt => hstep j t (by omega) (by omega)
      rwa [show i + 1 + n = i + (n + 1) by omega] at hrun

/-- The same rule for a loop that is known to return. -/
theorem forUp_result {body : Nat → σ → Except ε σ} {I : Nat → σ → Prop} {n i : Nat} {s s' : σ}
    (h : forUp body n i s = .ok s') (hs : I i s)
    (hstep : ∀ j s t, i ≤ j → j < i + n → I j s → body j s = .ok t → I (j + 1) t) :
    I (i + n) s' := by
  induction n generalizing i s with
  | zero =>
      cases h
      exact hs
  | succ n ih =>
      obtain ⟨t, hbody, hrest⟩ := bind_eq_ok.mp h
      have hlt : i < i + (n + 1) := Nat.lt_add_of_pos_right n.succ_pos
      have hrun := ih hrest (hstep i s t (Nat.le_refl i) hlt hs hbody)
        fun j u u' hj hlt => hstep j u u' (by omega) (by omega)
      rwa [show i + 1 + n = i + (n + 1) by omega] at hrun

/-- The invariant rule of a call for each element of a list.  The elements are
described by a list they are related to. -/
theorem foldlM_returns {α : Type} {R : β → α → Prop} {f : σ → β → Except ε σ}
    {I : List α → σ → Prop} {ys : List β} {zs : List α} (h : List.Forall₂ R ys zs)
    (hstep : ∀ s xs y z, R y z → I xs s → Returns (f s y) (I (xs ++ [z]))) {s : σ} {xs : List α}
    (hs : I xs s) : Returns (ys.foldlM f s) (I (xs ++ zs)) := by
  induction h generalizing s xs with
  | nil => simpa using hs
  | @cons y z ys zs hyz _ ih =>
      rw [List.foldlM_cons, List.append_cons]
      apply (hstep s xs y z hyz hs).bind
      intro s' hs'
      exact ih hs'

/-- A counting loop in two parts. -/
theorem forUp_add {body : Nat → σ → Except ε σ} (n m i : Nat) (s : σ) :
    forUp body (n + m) i s = forUp body n i s >>= forUp body m (i + n) := by
  induction n generalizing i s with
  | zero => simp [forUp]
  | succ n ih =>
      rw [Nat.succ_add, forUp, forUp]
      cases body i s with
      | error e => rfl
      | ok t =>
          show forUp body (n + m) (i + 1) t = forUp body n (i + 1) t >>= forUp body m (i + (n + 1))
          rw [ih (i + 1) t, Nat.add_assoc, Nat.add_comm 1 n]

/-- A counting loop runs the body at its own indices only. -/
theorem forUp_congr {body body' : Nat → σ → Except ε σ} {n i : Nat}
    (h : ∀ j s, i ≤ j → j < i + n → body j s = body' j s) (s : σ) :
    forUp body n i s = forUp body' n i s := by
  induction n generalizing i s with
  | zero => rfl
  | succ n ih =>
      rw [forUp, forUp, h i s (Nat.le_refl i) (Nat.lt_add_of_pos_right n.succ_pos)]
      congr 1
      funext t
      exact ih (fun j s hj hlt => h j s (by omega) (by omega)) t

/-- A search asks the body at its own indices only. -/
theorem findUp_congr {body body' : Nat → Except ε (Option β)} {n i : Nat}
    (h : ∀ j, i ≤ j → j < i + n → body j = body' j) : findUp body n i = findUp body' n i := by
  induction n generalizing i with
  | zero => rfl
  | succ n ih =>
      rw [findUp, findUp, h i (Nat.le_refl i) (Nat.lt_add_of_pos_right n.succ_pos),
        ih fun j hj hlt => h j (by omega) (by omega)]

/-- A search goes on after the indices that do not answer. -/
theorem findUp_skip {body : Nat → Except ε (Option β)} {k i : Nat} (n : Nat)
    (h : ∀ j < k, body (i + j) = .ok none) : findUp body (k + n) i = findUp body n (i + k) := by
  induction k generalizing i with
  | zero => rw [Nat.zero_add, Nat.add_zero]
  | succ k ih =>
      have hrest : ∀ j < k, body (i + 1 + j) = .ok none := by
        intro j hj
        rw [Nat.add_assoc, Nat.add_comm 1 j]
        exact h (j + 1) (Nat.succ_lt_succ hj)
      have hfirst : body i = .ok none := h 0 k.succ_pos
      rw [Nat.succ_add, findUp, hfirst, ok_bind, Nat.add_comm k 1, ← Nat.add_assoc i 1 k]
      exact ih hrest

/-- A search that found something finds it again over more indices. -/
theorem findUp_append {body : Nat → Except ε (Option β)} {n i : Nat} {b : β}
    (h : findUp body n i = .ok (some b)) (m : Nat) : findUp body (n + m) i = .ok (some b) := by
  induction n generalizing i with
  | zero => cases h
  | succ n ih =>
      rw [findUp] at h
      obtain ⟨r, hbody, hrest⟩ := bind_eq_ok.mp h
      rw [Nat.succ_add, findUp, hbody, ok_bind]
      cases r with
      | some b' => exact hrest
      | none => exact ih hrest

/-- A search loop over an array finds the first element that answers.  The
elements are described by a list they are related to. -/
theorem findUp_returns {α : Type} {R : σ → α → Prop} {q : α → Bool}
    {body : Nat → Except ε (Option σ)} {xs : List σ} {ys : List α} (hxs : List.Forall₂ R xs ys) :
    ∀ i, (∀ j x y, xs[j]? = some x → R x y → ys[j]? = some y →
        body (i + j) = .ok (if q y then some x else none)) →
      Returns (findUp body xs.length i) fun r => Option.Rel R r (ys.find? q) := by
  induction hxs with
  | nil => exact fun i _ => returns_ok.mpr .none
  | @cons x y xs ys hxy _ ih =>
      intro i hbody
      have hfirst := hbody 0 x y rfl hxy rfl
      rw [Nat.add_zero] at hfirst
      rw [List.length_cons, findUp, hfirst, ok_bind, List.find?_cons]
      cases hq : q y with
      | true => exact returns_ok.mpr (.some hxy)
      | false =>
          refine ih (i + 1) fun j x' y' hx hR hy => ?_
          rw [show i + 1 + j = i + (j + 1) by omega]
          exact hbody (j + 1) x' y' (by simpa using hx) hR (by simpa using hy)

end Loops

end CRuntime
