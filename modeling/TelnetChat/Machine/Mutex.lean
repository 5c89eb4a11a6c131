import Mathlib.Data.List.Basic
import Mathlib.Logic.Function.Basic
import TelnetChat.Machine.Run

/-!
# Calls under a mutex

Callers share a state.  A call waits for the mutex, locks it, makes one access
to the shared state after the other, and unlocks the mutex with its last one.
Between two accesses of a call the other callers may move in any way.  Any of
the callers that wait may be the next to lock.

`Outline I M` is a proof outline of the body of a call.  `I bs x` is what holds
of the shared state `x` when the mutex is free, where `bs` are the calls that
locked it so far, in this order.  `M bs k x` is what holds while the last of
these calls is at `k`.  An outline is checked on the body alone, and then holds
in every reachable state (`Outline.reachable`).
-/

namespace Mutex

open Machine

variable {ι σ κ β ε : Type*}

/-- The body of a call: where it starts, and its next access to the shared
state.  After `none` the mutex is unlocked. -/
structure Body (ε σ κ β : Type*) where
  enter : β → κ
  next : κ → σ → Except ε (σ × Option κ)

inductive Caller (κ β : Type*) where
  | idle
  | waiting (b : β)
  | inside (k : κ)

structure State (ι σ κ β : Type*) where
  shared : σ
  locked : Bool
  callers : ι → Caller κ β
  /-- The calls that locked the mutex, in this order. -/
  order : List β

def State.init (x : σ) : State ι σ κ β := ⟨x, false, fun _ => .idle, []⟩

inductive Event (ι β : Type*) where
  | call (i : ι) (b : β)
  | lock (i : ι)
  | access (i : ι)

inductive Step [DecidableEq ι] (B : Body ε σ κ β) :
    State ι σ κ β → Event ι β → State ι σ κ β → Prop where
  | call {s : State ι σ κ β} {i : ι} {b : β} : s.callers i = .idle →
      Step B s (.call i b) { s with callers := Function.update s.callers i (.waiting b) }
  | lock {s : State ι σ κ β} {i : ι} {b : β} : s.callers i = .waiting b → s.locked = false →
      Step B s (.lock i) { s with
        locked := true
        callers := Function.update s.callers i (.inside (B.enter b))
        order := s.order ++ [b] }
  | access {s : State ι σ κ β} {i : ι} {k k' : κ} {x : σ} : s.callers i = .inside k →
      B.next k s.shared = .ok (x, some k') →
      Step B s (.access i) { s with
        shared := x
        callers := Function.update s.callers i (.inside k') }
  | unlock {s : State ι σ κ β} {i : ι} {k : κ} {x : σ} : s.callers i = .inside k →
      B.next k s.shared = .ok (x, none) →
      Step B s (.access i) { s with
        shared := x
        locked := false
        callers := Function.update s.callers i .idle }

/-! ## Outlines -/

structure Outline (B : Body ε σ κ β) (I : List β → σ → Prop) (M : List β → κ → σ → Prop) :
    Prop where
  enter : ∀ bs b x, I bs x → M (bs ++ [b]) (B.enter b) x
  /-- The next access does not fault. -/
  next : ∀ bs k x, M bs k x → ∃ x' r, B.next k x = .ok (x', r) ∧
    match r with
    | some k' => M bs k' x'
    | none => I bs x'

/-- The outline holds in the state, and nobody is inside besides the caller that
locked the mutex. -/
structure State.Follows (I : List β → σ → Prop) (M : List β → κ → σ → Prop)
    (s : State ι σ κ β) : Prop where
  free : s.locked = false → (∀ i k, s.callers i ≠ .inside k) ∧ I s.order s.shared
  held : s.locked = true → ∃ i k, s.callers i = .inside k ∧
    (∀ j k', s.callers j = .inside k' → j = i) ∧ M s.order k s.shared

section Outline

variable {B : Body ε σ κ β} {I : List β → σ → Prop} {M : List β → κ → σ → Prop}
  {s s' : State ι σ κ β} {i j : ι} {k k' : κ}

theorem init_follows {x : σ} (h : I [] x) : (State.init x : State ι σ κ β).Follows I M where
  free _ := ⟨fun i k hi => (by cases hi), h⟩
  held hlocked := by cases hlocked

/-- A caller inside holds the mutex. -/
theorem State.Follows.inside (h : s.Follows I M) (hi : s.callers i = .inside k) :
    s.locked = true ∧ (∀ j k', s.callers j = .inside k' → j = i) ∧ M s.order k s.shared := by
  cases hlocked : s.locked with
  | false => exact absurd hi ((h.free hlocked).1 i k)
  | true =>
      obtain ⟨i', k', hi', honly, hM⟩ := h.held hlocked
      obtain rfl := honly i k hi
      rw [hi, Caller.inside.injEq] at hi'
      subst hi'
      exact ⟨rfl, honly, hM⟩

theorem State.Follows.exclusive (h : s.Follows I M) (hi : s.callers i = .inside k)
    (hj : s.callers j = .inside k') : j = i :=
  (h.inside hi).2.1 j k' hj

variable [DecidableEq ι]

/-- Who is inside after an update of one caller. -/
theorem inside_update {callers : ι → Caller κ β} {c : Caller κ β}
    (hj : Function.update callers i c j = .inside k) :
    j = i ∧ c = .inside k ∨ j ≠ i ∧ callers j = .inside k := by
  by_cases hji : j = i
  · subst hji
    rw [Function.update_self] at hj
    exact Or.inl ⟨rfl, hj⟩
  · rw [Function.update_of_ne hji] at hj
    exact Or.inr ⟨hji, hj⟩

theorem Outline.step (hout : Outline B I M) {e : Event ι β} (h : s.Follows I M)
    (hs : Step B s e s') : s'.Follows I M := by
  cases hs with
  | @call i b hi =>
      constructor
      · intro hlocked
        obtain ⟨hnone, hI⟩ := h.free hlocked
        refine ⟨fun j k hj => ?_, hI⟩
        rcases inside_update hj with ⟨_, hwaits⟩ | ⟨_, hj⟩
        · cases hwaits
        · exact hnone j k hj
      · intro hlocked
        obtain ⟨i', k, hi', honly, hM⟩ := h.held hlocked
        have hne : i' ≠ i := by
          rintro rfl
          rw [hi] at hi'
          cases hi'
        refine ⟨i', k, ?_, fun j k' hj => ?_, hM⟩
        · show Function.update s.callers i (.waiting b) i' = .inside k
          rwa [Function.update_of_ne hne]
        · rcases inside_update hj with ⟨_, hwaits⟩ | ⟨_, hj⟩
          · cases hwaits
          · exact honly j k' hj
  | @lock i b hi hlocked =>
      obtain ⟨hnone, hI⟩ := h.free hlocked
      constructor
      · intro hfree
        cases hfree
      · intro _
        refine ⟨i, B.enter b, Function.update_self .., fun j k hj => ?_, hout.enter _ _ _ hI⟩
        rcases inside_update hj with ⟨hji, _⟩ | ⟨_, hj⟩
        · exact hji
        · exact absurd hj (hnone j k)
  | @access i k k' x hi hnext =>
      obtain ⟨hlocked, honly, hM⟩ := h.inside hi
      obtain ⟨_, _, hnext', hM'⟩ := hout.next _ _ _ hM
      cases hnext.symm.trans hnext'
      constructor
      · intro hfree
        cases hlocked.symm.trans hfree
      · intro _
        refine ⟨i, k', Function.update_self .., fun j k'' hj => ?_, hM'⟩
        rcases inside_update hj with ⟨hji, _⟩ | ⟨_, hj⟩
        · exact hji
        · exact honly j k'' hj
  | @unlock i k x hi hnext =>
      obtain ⟨_, honly, hM⟩ := h.inside hi
      obtain ⟨_, _, hnext', hI⟩ := hout.next _ _ _ hM
      cases hnext.symm.trans hnext'
      constructor
      · intro _
        refine ⟨fun j k' hj => ?_, hI⟩
        rcases inside_update hj with ⟨_, hidle⟩ | ⟨hji, hj⟩
        · cases hidle
        · exact absurd (honly j k' hj) hji
      · intro hlocked
        cases hlocked

theorem Outline.reachable (hout : Outline B I M) {x : σ} (h0 : I [] x)
    (h : Reachable (Step B) (.init x) s) : s.Follows I M :=
  h.invariant (init_follows h0) fun _ _ _ _ ih hs => hout.step ih hs

/-- Calls are only added to the order. -/
theorem order_isPrefix (h : Reachable (Step B) s s') : s.order <+: s'.order := by
  induction h with
  | init => exact List.prefix_refl _
  | step _ _ hs ih =>
      cases hs with
      | call => exact ih
      | lock => exact ih.trans (List.prefix_append _ _)
      | access => exact ih
      | unlock => exact ih

end Outline

end Mutex
