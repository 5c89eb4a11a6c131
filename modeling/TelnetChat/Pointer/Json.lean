import TelnetChat.Pointer.Split
import TelnetChat.Registry

/-!
# Pairs and the registry with pointers (`json.c`, `registry.c`)

An entry has the two strings that `split` stored first, and the others are lost with
their buffers.  The lookups only read.

A key slot that `split` did not write is an uninitialised `String`.  What `compareStr`
gives for one is a parameter, `unset`, which may be a fault; the functions without
pointers are those with `unset := differs`.
-/

namespace TelnetChat.Pointer

open CRuntime TelnetChat

/-! ## The source -/

/-- `struct Entry`. -/
structure Entry where
  key : Option Str
  value : Option Str
deriving DecidableEq

/-- `struct Json`. -/
abbrev Json : Type := GrowArray Entry

/-- `struct Registry`. -/
abbrev Registry : Type := GrowArray Json

def createEntry (str : Str) : Heaped Byte Entry := do
  let sarr ← split str colon
  let key ← sarr.cells.peek 0
  let value ← sarr.cells.peek 1
  pure ⟨key, value⟩

def createJson : Json := .create 10

def incrJsonCapacity (json : Json) : Exec Json := json.grow (json.capacity + 10) 10

def addJson (json : Json) (str : Str) : Heaped Byte Json := do
  let e ← createEntry str
  json.push 5 incrJsonCapacity e

/-- A key slot that was never written is taken to differ from every key. -/
def differs : Exec Int := .ok 1

/-- `compareStr` against the key of an entry. -/
def compareKey (unset : Exec Int) (key : Str) : Option Str → Heaped Byte Int
  | none => monadLift unset
  | some str => compareStr key str

/-- The search loop of `getVal` and `jsonContainsKey`. -/
def findKey (unset : Exec Int) (json : Json) (key : Str) : Heaped Byte (Option Entry) :=
  Heaped.findUp (fun i => do
    let e ← json.cells.load i
    let r ← compareKey unset key e.key
    pure (if r = 0 then some e else none)) json.size 0

def getVal (unset : Exec Int) (json : Json) (key : Str) : Heaped Byte (Option Str) := do
  match ← findKey unset json key with
  | some e => pure e.value
  | none => throw (.exit 0)

def jsonContainsKey (unset : Exec Int) (json : Json) (key : Str) : Heaped Byte Int := do
  match ← findKey unset json key with
  | some _ => pure 1
  | none => pure 0

def createRegister : Registry := .create 16

def incrRegCapacity (reg : Registry) (incr : Nat) : Exec Registry :=
  reg.grow ((reg.capacity + incr) * sizeofRegistry / sizeofJson) incr

def addReg (reg : Registry) (json : Json) : Exec Registry :=
  reg.push 2 (fun reg => incrRegCapacity reg 16) json

/-! ## Entries -/

/-- The slots of the entry are written where `p` has a text, and hold it. -/
def Entry.Holds (m : Memory Byte) (e : Entry) (p : Pair) : Prop :=
  Option.Rel (Str.Holds m) e.key p.1 ∧ Option.Rel (Str.Holds m) e.value p.2

/-- The keys of the pairs are written, or those that are not are taken to differ. -/
def Compared (unset : Exec Int) (ps : List Pair) : Prop :=
  ∀ p ∈ ps, p.1 = none → unset = differs

/-- The entries of `j` hold the pairs `ps`. -/
def Pairs (m : Memory Byte) (j : Json) (ps : List Pair) : Prop :=
  ∃ es, j.Holds es ∧ List.Forall₂ (Entry.Holds m) es ps

section Json

variable {m : Memory Byte} {j : Json} {ps : List Pair} {key str : Str} {k w : List Byte}
  {unset : Exec Int}

theorem createRegister_holds : createRegister.Holds [] := GrowArray.create_holds (Nat.succ_pos _)

theorem addReg_returns {reg : Registry} {js : List Json} (h : reg.Holds js) (j : Json) :
    Returns (addReg reg j) fun reg' => reg'.Holds (js ++ [j]) := by
  have halloc : reg.capacity + 16 ≤ (reg.capacity + 16) * sizeofRegistry / sizeofJson := by
    rw [sizeofRegistry, sizeofJson, Nat.mul_div_cancel _ (by decide)]
  exact (GrowArray.push_returns h (by decide) (GrowArray.grow_returns h (by decide) halloc) j).mono
    fun _ h => h.1

/-- The entry of a text has the first two strings of its segments. -/
theorem createEntry_yields (hstr : str.Holds m w) :
    Heaped.Yields (createEntry str) m fun e m' =>
      ∃ xs, e = ⟨xs[0]?, xs[1]?⟩ ∧ Strings m' m.length xs (segments colon w) ∧
        Memory.Grows (· < m.length) (splitBlocks colon w) m m' := by
  obtain ⟨sarr, m', hsplit, xs, ⟨hcap, hxs⟩, htexts, hm⟩ := split_yields hstr colon
  have hpeek : ∀ i, i < INIT_CAPACITY → sarr.cells.peek i = .ok xs[i]? := fun i hi =>
    hxs.peek_eq (Nat.lt_of_lt_of_le hi hcap)
  exact .bind_eq hsplit (.bind_eq (Heaped.lift_run (hpeek 0 (by decide)) m')
    (.bind_eq (Heaped.lift_run (hpeek 1 (by decide)) m')
      (Heaped.yields_pure ⟨xs, rfl, htexts, hm⟩)))

/-- `addJson` to an empty `Json` stores the entry of the text. -/
theorem addJson_yields (hstr : str.Holds m w) :
    Heaped.Yields (addJson createJson str) m fun j m' =>
      ∃ xs, j.Holds [⟨xs[0]?, xs[1]?⟩] ∧ Strings m' m.length xs (segments colon w) ∧
        Memory.Grows (· < m.length) (splitBlocks colon w) m m' := by
  have hempty : createJson.Holds [] := GrowArray.create_holds (Nat.succ_pos _)
  obtain ⟨e, m', hcreate, xs, rfl, htexts, hm⟩ := createEntry_yields hstr
  obtain ⟨j, hpush, hj, _⟩ := GrowArray.push_returns hempty (by decide : 2 ≤ 5)
    (GrowArray.grow_returns hempty (by decide : 0 < 10) (Nat.le_refl _))
    (⟨xs[0]?, xs[1]?⟩ : Entry)
  exact .bind_eq hcreate (.of_eq (Heaped.lift_run hpush m') ⟨xs, hj, htexts, hm⟩)

/-- A slot of the strings is its segment, or was never written. -/
theorem Strings.slot {n : Nat} {xs : List Str} {ws : List (List Byte)} (h : Strings m n xs ws)
    (i : Nat) : Option.Rel (Str.Holds m) xs[i]? ws[i]? := by
  have hlen := h.holds.length_eq
  by_cases hlt : i < xs.length
  · rw [List.getElem?_eq_getElem hlt, List.getElem?_eq_getElem (hlen ▸ hlt)]
    exact .some (h.holds.get hlt (hlen ▸ hlt))
  · rw [List.getElem?_eq_none (by omega), List.getElem?_eq_none (by omega)]
    exact .none

theorem compareKey_yields {slot : Option Str} {t : Option (List Byte)} (hk : key.Holds m k)
    (h : Option.Rel (Str.Holds m) slot t) (hunset : t = none → unset = differs) :
    Heaped.Yields (compareKey unset key slot) m fun r m' => m' = m ∧ (r = 0 ↔ t = some k) := by
  cases h with
  | none =>
      have hne : (1 : Int) ≠ 0 := by decide
      exact Heaped.yields_lift (hunset rfl) ⟨rfl, iff_of_false hne (by simp)⟩
  | some hs =>
      apply (compareStr_yields hk hs).mono
      rintro r m' ⟨hm, hr⟩
      refine ⟨hm, ?_⟩
      rw [hr, Option.some.injEq, eq_comm]

theorem findKey_yields (hj : Pairs m j ps) (hk : key.Holds m k) (hunset : Compared unset ps) :
    Heaped.Yields (findKey unset j key) m fun r m' =>
      m' = m ∧ Option.Rel (Entry.Holds m) r (lookup k ps) := by
  obtain ⟨es, hes, hps⟩ := hj
  rw [findKey, hes.size_eq]
  refine Heaped.findUp_yields hps 0 fun i e p hi hp he => ?_
  obtain ⟨hlt, rfl⟩ := List.getElem?_eq_some_iff.mp hi
  obtain ⟨r, _, hcompare, rfl, hr⟩ := compareKey_yields hk he.1 (hunset p hp)
  rw [Nat.zero_add, Heaped.bind_run (Heaped.lift_run (hes.load_eq hlt) _),
    Heaped.bind_run hcompare]
  simp only [hr, decide_eq_true_eq]
  rfl

theorem jsonContainsKey_run (hj : Pairs m j ps) (hk : key.Holds m k)
    (hunset : Compared unset ps) :
    (jsonContainsKey unset j key).run m = .ok (if (lookup k ps).isSome then 1 else 0, m) := by
  obtain ⟨r, _, hfind, rfl, hr⟩ := findKey_yields hj hk hunset
  rw [jsonContainsKey, Heaped.bind_run hfind]
  generalize lookup k ps = p at hr ⊢
  cases hr <;> rfl

/-- A lookup that succeeds returns the value slot of the first match. -/
theorem getVal_yields (hj : Pairs m j ps) (hk : key.Holds m k) (hunset : Compared unset ps)
    {p : Pair} (hp : lookup k ps = some p) :
    Heaped.Yields (getVal unset j key) m fun slot m' =>
      m' = m ∧ Option.Rel (Str.Holds m) slot p.2 := by
  obtain ⟨r, _, hfind, rfl, hr⟩ := findKey_yields hj hk hunset
  rw [hp] at hr
  cases hr with
  | some he => exact .bind_eq hfind (Heaped.yields_pure ⟨rfl, he.2⟩)

end Json

end TelnetChat.Pointer
