import Mathlib.Logic.Function.Basic
import TelnetChat.CRuntime.Exec

/-!
# Memory that is freed

A heap maps the addresses in use to what is stored there.  `malloc` may return any
address that is not in use, also one that was freed before.  A load and a `free` of
any other address are undefined behaviour, so a program that does not fault neither
uses nor frees memory twice.

`Owned h f` says that each address in use has one owner.  An owner that allocates
and one that frees keep it.
-/

namespace CRuntime

/-- What is stored at the addresses in use. -/
abbrev Heap (α : Type) : Type := Nat → Option α

namespace Heap

variable {α : Type}

def empty : Heap α := fun _ => none

/-- `malloc` returned the address `a`, and `x` is stored there. -/
def malloc (h : Heap α) (a : Nat) (x : α) : Heap α := Function.update h a (some x)

def load (h : Heap α) (a : Nat) : Exec α :=
  match h a with
  | some x => .ok x
  | none => .error .undefined

def free (h : Heap α) (a : Nat) : Exec (Heap α) :=
  match h a with
  | some _ => .ok (Function.update h a none)
  | none => .error .undefined

/-- The addresses in use are those that `f` gives to an owner, with what is stored
there, and no two owners have one address. -/
structure Owned {ι : Type} (h : Heap α) (f : ι → Option (Nat × α)) : Prop where
  stored : ∀ i a x, f i = some (a, x) → h a = some x
  used : ∀ a x, h a = some x → ∃ i, f i = some (a, x)
  distinct : ∀ i j a x y, f i = some (a, x) → f j = some (a, y) → i = j

/-- What a map has after an update: the new value, or an old one elsewhere. -/
theorem update_eq_some {ι β : Type} [DecidableEq ι] {f : ι → Option β} {i j : ι} {v : Option β}
    {y : β} : Function.update f i v j = some y ↔ j = i ∧ v = some y ∨ j ≠ i ∧ f j = some y := by
  rcases eq_or_ne j i with rfl | hne
  · simp
  · simp [hne]

section Owned

variable {ι : Type} {h : Heap α} {f : ι → Option (Nat × α)} {i j : ι} {a b : Nat} {x y : α}

theorem owned_empty : Owned (empty : Heap α) fun _ : ι => none :=
  ⟨nofun, nofun, nofun⟩

theorem Owned.load_eq (ho : Owned h f) (hi : f i = some (a, x)) : h.load a = .ok x := by
  rw [load, ho.stored i a x hi]

/-- An address that is not in use has no owner. -/
theorem Owned.ne_of_unused (ho : Owned h f) (ha : h a = none) (hj : f j = some (b, y)) : b ≠ a := by
  rintro rfl
  rw [ho.stored j b y hj] at ha
  cases ha

/-- Two owners have two addresses. -/
theorem Owned.ne_of_ne (ho : Owned h f) (hi : f i = some (a, x)) (hj : f j = some (b, y))
    (hne : j ≠ i) : b ≠ a := by
  rintro rfl
  exact hne (ho.distinct j i b y x hj hi)

variable [DecidableEq ι]

/-- An owner of nothing allocates. -/
theorem Owned.malloc (ho : Owned h f) (ha : h a = none) (hi : f i = none) (x : α) :
    Owned (h.malloc a x) (Function.update f i (some (a, x))) := by
  constructor
  · intro j b y hj
    rcases update_eq_some.mp hj with ⟨_, heq⟩ | ⟨_, hj⟩
    · cases heq
      exact Function.update_self ..
    · exact (Function.update_of_ne (ho.ne_of_unused ha hj) ..).trans (ho.stored j b y hj)
  · intro b y hb
    rcases update_eq_some.mp hb with ⟨rfl, heq⟩ | ⟨_, hb⟩
    · cases heq
      exact ⟨i, Function.update_self ..⟩
    · obtain ⟨j, hj⟩ := ho.used b y hb
      have hne : j ≠ i := by
        rintro rfl
        rw [hi] at hj
        cases hj
      exact ⟨j, (Function.update_of_ne hne ..).trans hj⟩
  · intro j k b y z hj hk
    rcases update_eq_some.mp hj with ⟨rfl, heq⟩ | ⟨_, hj⟩
    · cases heq
      rcases update_eq_some.mp hk with ⟨rfl, _⟩ | ⟨_, hk⟩
      · rfl
      · exact absurd rfl (ho.ne_of_unused ha hk)
    · rcases update_eq_some.mp hk with ⟨_, heq⟩ | ⟨_, hk⟩
      · cases heq
        exact absurd rfl (ho.ne_of_unused ha hj)
      · exact ho.distinct j k b y z hj hk

/-- An owner gives its address back. -/
theorem Owned.remove (ho : Owned h f) (hi : f i = some (a, x)) :
    Owned (Function.update h a none) (Function.update f i none) := by
  constructor
  · intro j b y hj
    rcases update_eq_some.mp hj with ⟨_, heq⟩ | ⟨hne, hj⟩
    · cases heq
    · exact (Function.update_of_ne (ho.ne_of_ne hi hj hne) ..).trans (ho.stored j b y hj)
  · intro b y hb
    rcases update_eq_some.mp hb with ⟨_, heq⟩ | ⟨hba, hb⟩
    · cases heq
    · obtain ⟨j, hj⟩ := ho.used b y hb
      have hne : j ≠ i := by
        rintro rfl
        rw [hi] at hj
        cases hj
        exact hba rfl
      exact ⟨j, (Function.update_of_ne hne ..).trans hj⟩
  · intro j k b y z hj hk
    rcases update_eq_some.mp hj with ⟨_, heq⟩ | ⟨_, hj⟩
    · cases heq
    · rcases update_eq_some.mp hk with ⟨_, heq⟩ | ⟨_, hk⟩
      · cases heq
      · exact ho.distinct j k b y z hj hk

theorem Owned.free (ho : Owned h f) (hi : f i = some (a, x)) :
    Returns (h.free a) fun h' => Owned h' (Function.update f i none) := by
  rw [Heap.free, ho.stored i a x hi]
  exact returns_ok.mpr (ho.remove hi)

end Owned

/-! ## Owners in a list -/

/-- What the owner at the index `i` has. -/
def owners {τ β : Type} (F : Nat → τ → Option β) (ts : List τ) (i : Nat) : Option β :=
  (ts[i]?).bind (F i)

section Owners

variable {τ β : Type} {F : Nat → τ → Option β} {ts : List τ} {t t' : τ} {i : Nat}

theorem owners_eq (hi : ts[i]? = some t) : owners F ts i = F i t := by
  rw [owners, hi]
  rfl

theorem owners_length : owners F ts ts.length = none := by
  rw [owners, List.getElem?_eq_none (Nat.le_refl _)]
  rfl

theorem owners_concat :
    owners F (ts ++ [t]) = Function.update (owners F ts) ts.length (F ts.length t) := by
  funext j
  rcases Nat.lt_trichotomy j ts.length with hlt | rfl | hlt
  · rw [Function.update_of_ne (Nat.ne_of_lt hlt), owners, owners, List.getElem?_append_left hlt]
  · rw [Function.update_self, owners, List.getElem?_concat_length]
    rfl
  · have hlen : (ts ++ [t]).length ≤ j := by
      rw [List.length_append]
      exact hlt
    rw [Function.update_of_ne (Nat.ne_of_gt hlt), owners, owners, List.getElem?_eq_none hlen,
      List.getElem?_eq_none (Nat.le_of_lt hlt)]

theorem owners_set (hi : ts[i]? = some t) :
    owners F (ts.set i t') = Function.update (owners F ts) i (F i t') := by
  obtain ⟨hlt, _⟩ := List.getElem?_eq_some_iff.mp hi
  funext j
  rcases eq_or_ne j i with rfl | hne
  · rw [Function.update_self, owners, List.getElem?_set_self hlt]
    rfl
  · rw [Function.update_of_ne hne, owners, owners, List.getElem?_set_ne hne.symm]

/-- An update that leaves what the owner has. -/
theorem owners_set_of_eq (hi : ts[i]? = some t) (h : F i t' = F i t) :
    owners F (ts.set i t') = owners F ts := by
  have hsame : F i t = owners F ts i := (owners_eq hi).symm
  rw [owners_set hi, h, hsame]
  exact Function.update_eq_self i (owners F ts)

end Owners

end Heap

end CRuntime
