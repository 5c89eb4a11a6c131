import Mathlib.Data.List.Infix
import TelnetChat.Machine.Mutex
import TelnetChat.Registry

/-!
# The growable arrays as append-only lists

The insertions of `SArray`, `Json` and `Registry` are the operation of an
append-only list, each with its own slack (`addString_appendOnly`,
`addJson_appendOnly`, `addReg_appendOnly`).  This file adds the callers of
`addReg` that share one registry.  A call locks its mutex, and then makes one
access to the registry after the other.  The copy loop of `incrRegCapacity` is
one access for each element.

`Serialized` says what holds between any two accesses.  The registry stores the
records of the calls in the order in which they locked the mutex.  Only the
record of the caller that holds the mutex may be missing, and the next write is
of this record.
-/

namespace TelnetChat

open CRuntime GrowArray Machine

/-! ## Callers of `addReg` -/

/-- Where a call of `addReg` that holds the mutex is. -/
inductive AddRegPc where
  /-- At the test of the size. -/
  | test (json : Json)
  /-- At the test of the copy loop of `incrRegCapacity`. -/
  | copy (json : Json) (new : Block Json) (i : Nat)
  /-- At the write of the record. -/
  | store (json : Json)
  | unlock

/-- The next access of a call.  Nobody else writes the registry, so `old[i]` is read
from it. -/
def AddRegPc.next : AddRegPc → Registry → Exec (Registry × Option AddRegPc)
  | .test json, reg =>
      if reg.size + 2 > reg.capacity then
        let new := Block.malloc ((reg.capacity + 16) * sizeofRegistry / sizeofJson)
        pure (reg, some (.copy json new 0))
      else pure (reg, some (.store json))
  | .copy json new i, reg =>
      if i < reg.size then do
        let x ← reg.cells.load i
        let new ← new.store i x
        pure (reg, some (.copy json new (i + 1)))
      else pure (⟨new, reg.size, reg.capacity + 16⟩, some (.store json))
  | .store json, reg => do
      let cells ← reg.cells.store reg.size json
      pure (⟨cells, reg.size + 1, reg.capacity⟩, some .unlock)
  | .unlock, reg => pure (reg, none)

/-- The body of `addReg` between `pthread_mutex_lock` and
`pthread_mutex_unlock`. -/
def addRegBody : Mutex.Body Fault Registry AddRegPc Json := ⟨.test, AddRegPc.next⟩

/-- The callers of `addReg` with one registry and its mutex. -/
abbrev Callers (ι : Type) : Type := Mutex.State ι Registry AddRegPc Json

def Callers.init (ι : Type) : Callers ι := Mutex.State.init createRegister

/-! ### The outline of a call -/

/-- What a call with `json` that found the registry `reg₀` has made of it. -/
def AddRegPc.At (reg₀ : Registry) (json : Json) : AddRegPc → Registry → Prop
  | .test json', reg => json' = json ∧ reg = reg₀
  | .copy json' new i, reg => json' = json ∧ reg = reg₀ ∧ reg₀.size + 2 > reg₀.capacity ∧
      i ≤ reg₀.size ∧
      (Block.malloc ((reg₀.capacity + 16) * sizeofRegistry / sizeofJson)).copyInto
        reg₀.cells 0 i = .ok new
  | .store json', reg => json' = json ∧
      reg₀.reserve 2 (fun reg => incrRegCapacity reg 16) = .ok reg
  | .unlock, reg => addReg reg₀ json = .ok reg

/-- With the mutex free, the registry is what the calls leave that locked it, each
made alone. -/
def AtRest (js : List Json) (reg : Registry) : Prop := insertAll addReg createRegister js = .ok reg

/-- The last call is at `pc`, and found the registry as the others left it. -/
def InCall (js : List Json) (pc : AddRegPc) (reg : Registry) : Prop :=
  ∃ js' json reg₀, js = js' ++ [json] ∧ AtRest js' reg₀ ∧ pc.At reg₀ json reg

theorem AtRest.holds {js : List Json} {reg : Registry} (h : AtRest js reg) : reg.Holds js := by
  obtain ⟨xs, hxs, hholds⟩ := addReg_appendOnly.holds js reg h
  rwa [elements_pure_iff.mp hxs]

section Outline

variable {reg₀ reg : Registry} {js : List Json} {json : Json} {pc : AddRegPc}

/-- An access returns, and leaves the call at the next point. -/
theorem AddRegPc.At.next (hreg₀ : reg₀.Holds js) (h : pc.At reg₀ json reg) :
    ∃ reg' r, pc.next reg = .ok (reg', r) ∧
      match r with
      | some pc' => pc'.At reg₀ json reg'
      | none => addReg reg₀ json = .ok reg' := by
  cases pc with
  | test json' =>
      obtain ⟨rfl, rfl⟩ := h
      by_cases hfull : reg.size + 2 > reg.capacity
      · exact ⟨_, _, if_pos hfull, rfl, rfl, hfull, Nat.zero_le _, rfl⟩
      · exact ⟨_, _, if_neg hfull, rfl, if_neg hfull⟩
  | copy json' new i =>
      obtain ⟨rfl, rfl, hfull, hi, hnew⟩ := h
      obtain ⟨reg', hgrow, _⟩ := incrRegCapacity_returns hreg₀
      obtain ⟨cells, hcells, hpure⟩ := bind_eq_ok.mp hgrow
      rcases Nat.lt_or_eq_of_le hi with hlt | rfl
      · -- the whole loop returns, so its next iteration does
        obtain ⟨new', hnew'⟩ := Block.copyInto_of_le hcells (Nat.succ_le_of_lt hlt)
        have hstep := hnew'
        rw [Block.copyInto_succ, hnew, ok_bind, Nat.zero_add] at hstep
        obtain ⟨x, hload, hstore⟩ := bind_eq_ok.mp hstep
        refine ⟨reg, some (.copy json' new' (i + 1)), ?_, rfl, rfl, hfull, hlt, hnew'⟩
        simp only [AddRegPc.next, if_pos hlt, hload, ok_bind, hstore, pure_eq_ok]
      · refine ⟨_, _, if_neg (Nat.lt_irrefl _), rfl, ?_⟩
        rw [GrowArray.reserve, if_pos hfull, incrRegCapacity, GrowArray.grow, hnew]
        rfl
  | store json' =>
      obtain ⟨rfl, hreserve⟩ := h
      obtain ⟨reg', hadd, _⟩ := addReg_returns hreg₀ json'
      have hpush := hadd
      rw [addReg, GrowArray.push, hreserve, ok_bind] at hpush
      obtain ⟨cells, hstore, hpure⟩ := bind_eq_ok.mp hpush
      cases hpure
      refine ⟨_, some .unlock, ?_, hadd⟩
      simp only [AddRegPc.next, hstore, ok_bind, pure_eq_ok]
  | unlock => exact ⟨reg, none, rfl, h⟩

theorem addReg_outline : Mutex.Outline addRegBody AtRest InCall where
  enter js json reg h := ⟨js, json, reg, rfl, h, rfl, rfl⟩
  next := by
    rintro _ pc reg ⟨js, json, reg₀, rfl, hrest, hat⟩
    obtain ⟨reg', r, hnext, hr⟩ := hat.next hrest.holds
    refine ⟨reg', r, hnext, ?_⟩
    cases r with
    | some pc' => exact ⟨js, json, reg₀, rfl, hrest, hr⟩
    | none =>
        show insertAll addReg createRegister (js ++ [json]) = .ok reg'
        rw [insertAll_concat, show insertAll addReg createRegister js = .ok reg₀ from hrest]
        exact hr

/-- The registry stores the records of the calls before, or these and its own. -/
theorem AddRegPc.At.holds (hreg₀ : reg₀.Holds js) (h : pc.At reg₀ json reg) :
    reg.Holds js ∨ reg.Holds (js ++ [json]) := by
  cases pc with
  | test json' =>
      obtain ⟨_, rfl⟩ := h
      exact Or.inl hreg₀
  | copy json' new i =>
      obtain ⟨_, rfl, _⟩ := h
      exact Or.inl hreg₀
  | store json' =>
      obtain ⟨_, hreserve⟩ := h
      have hgrown := reserve_returns hreg₀ (by decide : 2 ≤ 2) (incrRegCapacity_returns hreg₀)
      exact Or.inl (hgrown.result hreserve).1
  | unlock => exact Or.inr ((addReg_returns hreg₀ json).result h)

/-- At the write there is room for two records. -/
theorem AddRegPc.At.room {json' : Json} (hreg₀ : reg₀.Holds js)
    (h : (AddRegPc.store json').At reg₀ json reg) :
    json' = json ∧ reg.Holds js ∧ reg.size + 1 < reg.capacity := by
  obtain ⟨rfl, hreserve⟩ := h
  have hgrown := reserve_returns hreg₀ (by decide : 2 ≤ 2) (incrRegCapacity_returns hreg₀)
  obtain ⟨hholds, hroom, _⟩ := hgrown.result hreserve
  exact ⟨rfl, hholds, hroom⟩

end Outline

/-! ### Every order of the callers -/

/-- What holds between two accesses. -/
structure Callers.Serialized {ι : Type} (s : Callers ι) : Prop where
  /-- One caller holds the mutex. -/
  exclusive : ∀ i j pc pc', s.callers i = .inside pc → s.callers j = .inside pc' → j = i
  /-- Its next access is defined. -/
  safe : ∀ i pc, s.callers i = .inside pc → ∃ p, pc.next s.shared = .ok p
  /-- The registry stores records in the order of the locks. -/
  holds : s.shared.Holds (s.order.take s.shared.size)
  /-- Only the record of the last of them may be missing. -/
  behind : s.order.length ≤ s.shared.size + 1
  /-- With the mutex free none is missing. -/
  free : s.locked = false → s.shared.Holds s.order ∧ AtRest s.order s.shared
  /-- The record that was missing is written below the allocated elements. -/
  writes : ∀ i json, s.callers i = .inside (.store json) →
    s.order[s.shared.size]? = some json ∧ s.shared.size < s.shared.cells.length ∧
      s.shared.size + 1 < s.shared.capacity

section Callers

variable {ι : Type} {s s' : Callers ι}

/-- The registry stores the records of the calls, or of all but the last. -/
theorem Callers.stores (h : Mutex.State.Follows AtRest InCall s) :
    ∃ js, s.shared.Holds js ∧ (s.order = js ∨ ∃ json, s.order = js ++ [json]) := by
  cases hlocked : s.locked with
  | false =>
      obtain ⟨_, hrest⟩ := h.free hlocked
      exact ⟨s.order, hrest.holds, Or.inl rfl⟩
  | true =>
      obtain ⟨_, _, _, _, js, json, reg₀, horder, hrest, hat⟩ := h.held hlocked
      rcases hat.holds hrest.holds with hjs | hjs
      · exact ⟨js, hjs, Or.inr ⟨json, horder⟩⟩
      · exact ⟨js ++ [json], hjs, Or.inl horder⟩

theorem Callers.serialized (h : Mutex.State.Follows AtRest InCall s) : s.Serialized := by
  obtain ⟨js, hjs, horder⟩ := Callers.stores h
  have hsize := hjs.size_eq
  constructor
  · intro i j pc pc' hi hj
    exact h.exclusive hi hj
  · intro i pc hi
    obtain ⟨_, _, hcall⟩ := h.inside hi
    obtain ⟨reg', r, hnext, _⟩ := addReg_outline.next _ _ _ hcall
    exact ⟨(reg', r), hnext⟩
  · rcases horder with horder | ⟨json, horder⟩
    · simpa [horder, hsize] using hjs
    · simpa [horder, hsize] using hjs
  · rcases horder with horder | ⟨json, horder⟩
    · simp [horder, hsize]
    · simp [horder, hsize]
  · intro hfree
    obtain ⟨_, hrest⟩ := h.free hfree
    exact ⟨hrest.holds, hrest⟩
  · intro i json hi
    obtain ⟨_, _, js', json', reg₀, horder', hrest, hat⟩ := h.inside hi
    obtain ⟨rfl, hholds, hroom⟩ := hat.room hrest.holds
    have halloc := hholds.allocated
    refine ⟨?_, by omega, hroom⟩
    rw [horder', hholds.size_eq, List.getElem?_concat_length]

variable [DecidableEq ι]

theorem Callers.reachable_follows (h : Reachable (Mutex.Step addRegBody) (Callers.init ι) s) :
    Mutex.State.Follows AtRest InCall s :=
  addReg_outline.reachable (rfl : AtRest [] createRegister) h

/-- No access takes a record away. -/
theorem AddRegPc.next_size_le {pc : AddRegPc} {reg reg' : Registry} {r : Option AddRegPc}
    (h : pc.next reg = .ok (reg', r)) : reg.size ≤ reg'.size := by
  cases pc with
  | test json =>
      rw [AddRegPc.next] at h
      split at h <;> cases h <;> exact Nat.le_refl _
  | copy json new i =>
      rw [AddRegPc.next] at h
      split at h
      · obtain ⟨x, _, hrest⟩ := bind_eq_ok.mp h
        obtain ⟨new', _, hpure⟩ := bind_eq_ok.mp hrest
        cases hpure
        exact Nat.le_refl _
      · cases h
        exact Nat.le_refl _
  | store json =>
      obtain ⟨cells, _, hpure⟩ := bind_eq_ok.mp h
      cases hpure
      exact Nat.le_succ _
  | unlock =>
      cases h
      exact Nat.le_refl _

theorem Callers.size_le (h : Reachable (Mutex.Step addRegBody) s s') :
    s.shared.size ≤ s'.shared.size := by
  induction h with
  | init => exact Nat.le_refl _
  | step _ _ hs ih =>
      cases hs with
      | call => exact ih
      | lock => exact ih
      | access _ hnext => exact ih.trans (AddRegPc.next_size_le hnext)
      | unlock _ hnext => exact ih.trans (AddRegPc.next_size_le hnext)

/-- A record keeps its index and its value. -/
theorem Callers.keeps (h : Reachable (Mutex.Step addRegBody) (Callers.init ι) s)
    (h' : Reachable (Mutex.Step addRegBody) s s') {i : Nat} (hi : i < s.shared.size) :
    s'.shared.cells.load i = s.shared.cells.load i := by
  have hholds := (Callers.serialized (Callers.reachable_follows h)).holds
  have hholds' := (Callers.serialized (Callers.reachable_follows (h.trans h'))).holds
  obtain ⟨later, hlater⟩ : s.order.take s.shared.size <+: s'.order.take s'.shared.size :=
    ((Mutex.order_isPrefix h').take _).trans (List.take_prefix_take_left (Callers.size_le h'))
  rw [← hlater] at hholds'
  exact hholds.load_of_append hholds' hi

end Callers

/-- The three growable arrays are append-only lists.  Callers of `addReg` that share
a registry append their records in the order in which they lock its mutex. -/
theorem growArrays_appendOnly {ι : Type} [DecidableEq ι] :
    AppendOnly pure (fun sarr => sarr.reserve 5 incrSArrayCapacity) addString createSArray ∧
    (AppendOnly createEntry (fun json => json.reserve 5 incrJsonCapacity) addJson createJson ∧
      ∀ strs ws, List.Forall₂ Str.Holds strs ws →
        ∃ es, Elements createEntry strs es ∧ List.Forall₂ Entry.Holds es (ws.map fields)) ∧
    AppendOnly pure (fun reg => reg.reserve 2 fun reg => incrRegCapacity reg 16) addReg
      createRegister ∧
    ∀ s : Callers ι, Reachable (Mutex.Step addRegBody) (Callers.init ι) s →
      s.Serialized ∧ ∀ s', Reachable (Mutex.Step addRegBody) s s' →
        ∀ i < s.shared.size, s'.shared.cells.load i = s.shared.cells.load i := by
  refine ⟨addString_appendOnly, ⟨addJson_appendOnly, ?_⟩, addReg_appendOnly, ?_⟩
  · intro strs ws h
    exact createEntry_elements h
  · intro s h
    refine ⟨Callers.serialized (Callers.reachable_follows h), ?_⟩
    intro s' h' i hi
    exact Callers.keeps h h' hi

/-- Two callers, of which the second to call is the first to lock. -/
theorem growArrays_appendOnly_two_callers :
    ∃ s, Reachable (Mutex.Step addRegBody) (Callers.init Bool) s ∧
      s.shared.Holds [.create 20, createJson] := by
  have h₀ : Reachable (Mutex.Step addRegBody) (Callers.init Bool) (Callers.init Bool) := .init
  have h₁ := h₀.step trivial (.call (i := true) (b := createJson) rfl)
  have h₂ := h₁.step trivial (.call (i := false) (b := .create 20) rfl)
  have h₃ := h₂.step trivial (.lock (i := false) rfl rfl)
  have h₄ := h₃.step trivial (.access (i := false) rfl rfl)
  have h₅ := h₄.step trivial (.access (i := false) rfl rfl)
  have h₆ := h₅.step trivial (.unlock (i := false) rfl rfl)
  have h₇ := h₆.step trivial (.lock (i := true) rfl rfl)
  have h₈ := h₇.step trivial (.access (i := true) rfl rfl)
  have h₉ := h₈.step trivial (.access (i := true) rfl rfl)
  exact ⟨_, h₉, (growArrays_appendOnly.2.2.2 _ h₉).1.holds⟩

end TelnetChat
