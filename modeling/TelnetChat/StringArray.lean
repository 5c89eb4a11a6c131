import TelnetChat.CRuntime.AppendOnly

/-!
# Growable strings (`string_array.c`)

The functions of `string_array.c`, under their names there.  A `String` of the
source is a `Str` here.  Its `length` counts the terminating NUL, and so does
`strLen`.

`s.Holds w` is the representation invariant: the buffer of `s` is a C string
with the text `w`, `length` counts it and its NUL, and the buffer has
`capacity` cells.  Every string the code builds holds a text, since `appendStr`
keeps the invariant.
-/

namespace TelnetChat

open CRuntime

/-! ## The source -/

def INIT_CAPACITY : Nat := 10

def INCREMENT_CAPACITY : Nat := 10

/-- `struct String`. -/
structure Str where
  string : Block Byte
  length : Nat
  capacity : Nat
deriving DecidableEq

/-- `struct SArray`; its `length` is `size` here. -/
abbrev SArray : Type := GrowArray Str

def createSArray : SArray := .create INIT_CAPACITY

def incrSArrayCapacity (sarr : SArray) : Exec SArray := sarr.grow (sarr.capacity + 10) 10

def addString (sarray : SArray) (str : Str) : Exec SArray := sarray.push 5 incrSArrayCapacity str

def getString : Exec Str := do
  let string ← (Block.malloc INIT_CAPACITY).store 0 0
  pure ⟨string, 1, INIT_CAPACITY⟩

/-- The loop of `strLen`, at `str + c`. -/
def strLenFrom : Block Byte → Nat → Exec Nat
  | [], _ => .error .undefined
  | none :: _, _ => .error .undefined
  | some x :: str, c => if x ≠ 0 then strLenFrom str (c + 1) else pure (c + 1)

def strLen (str : Block Byte) : Exec Nat := strLenFrom str 0

def duplicateStr (source target : Block Byte) : Exec (Block Byte) := do
  let srclen ← strLen source
  target.copyInto source 0 srclen

def incrCapacity (str : Str) (incr : Nat) : Exec Str := do
  let incr := if incr = 0 then INCREMENT_CAPACITY else incr
  let newstr ← duplicateStr str.string (Block.malloc (str.capacity + incr))
  pure ⟨newstr, str.length, str.capacity + incr⟩

/-- The `else` branch of `appendStr`: the loop over `i` and `c`, and the copy
after it. -/
def appendBytes (string : Str) (append : Block Byte) (appendLen : Nat) : Exec Str := do
  let first := string.length - 1
  let last := string.length + appendLen - 2
  let buf ← string.string.copyInto append first (last - first)
  let nul ← append.load (last - first)
  let buf ← buf.store last nul
  pure ⟨buf, string.length + appendLen - 1, string.capacity⟩

theorem incrCapacity_grows {str str' : Str} {incr : Nat} (h : incrCapacity str incr = .ok str') :
    str'.length = str.length ∧ str.capacity < str'.capacity := by
  obtain ⟨newstr, _, hpure⟩ := bind_eq_ok.mp h
  cases hpure
  refine ⟨rfl, ?_⟩
  by_cases hincr : incr = 0
  · simp [hincr, INCREMENT_CAPACITY]
  · simp only [hincr, if_false]
    omega

theorem strLenFrom_le {str : Block Byte} {c n : Nat} (h : strLenFrom str c = .ok n) :
    n ≤ c + str.length := by
  induction str generalizing c with
  | nil => cases h
  | cons x str ih =>
      cases x with
      | none => cases h
      | some x =>
          rw [List.length_cons]
          rw [strLenFrom] at h
          split at h
          · have hle := ih h
            omega
          · cases h
            omega

def appendStr (string : Str) (append : Block Byte) : Exec Str :=
  match _hlen : strLen append with
  | .error e => .error e
  | .ok appendLen =>
      if string.length + appendLen > string.capacity then
        match _hgrow : incrCapacity string appendLen with
        | .error e => .error e
        | .ok string' => appendStr string' append
      else appendBytes string append appendLen
termination_by string.length + append.length - string.capacity
decreasing_by
  have hle := strLenFrom_le _hlen
  obtain ⟨hlength, hcapacity⟩ := incrCapacity_grows _hgrow
  omega

def getStringFrom (arr : Block Byte) : Exec Str := do
  let string ← getString
  appendStr string arr

def compareStr (str1 str2 : Str) : Exec Int :=
  if str1.length ≠ str2.length then pure 1
  else memcmp str1.string str2.string (str1.length - 1)

/-- The bytes that `printS` reads. -/
def printS (string : Str) : Exec (List Byte) := string.string.loadMany (string.length - 1) 0

/-- The bytes that `printC` puts out. -/
def printC : Block Byte → Exec (List Byte)
  | [] => .error .undefined
  | none :: _ => .error .undefined
  | some c :: array => if c ≠ 0 then do
      let rest ← printC array
      pure (c :: rest)
    else pure []

/-! ## The representation of a text -/

/-- The string is well formed and its text is `w`. -/
structure Str.Holds (s : Str) (w : List Byte) : Prop where
  /-- The buffer starts with the text and its NUL. -/
  text : CStr s.string w
  /-- The length counts the NUL. -/
  length_eq : s.length = w.length + 1
  /-- The buffer has as many cells as the capacity says. -/
  capacity_eq : s.capacity = s.string.length

section Holds

variable {s s' : Str} {a : Block Byte} {v w w' : List Byte}

theorem Str.Holds.length_le (h : s.Holds w) : s.length ≤ s.capacity := by
  have hlt := h.text.length_lt
  rw [h.length_eq, h.capacity_eq]
  omega

/-- The string ends with a NUL at `length - 1`, and `length` is within the
capacity. -/
def Str.WellFormed (s : Str) : Prop :=
  s.string.load (s.length - 1) = .ok 0 ∧ s.length ≤ s.capacity ∧ s.capacity = s.string.length

theorem Str.Holds.wellFormed (h : s.Holds w) : s.WellFormed := by
  obtain ⟨rest, hrest⟩ := h.text.exists_rest
  refine ⟨?_, h.length_le, h.capacity_eq⟩
  rw [h.length_eq, hrest]
  exact Block.load_append _ _ _ (by simp)

theorem Str.Holds.unique (h : s.Holds w) (h' : s.Holds w') : w = w' := h.text.unique h'.text

theorem getString_returns : Returns getString fun s => s.Holds [] := by
  have hstore : (Block.malloc INIT_CAPACITY).store 0 (0 : Byte) =
      .ok (some 0 :: Block.malloc 9) := rfl
  rw [getString, hstore, ok_bind, pure_eq_ok, returns_ok]
  exact ⟨.of_eq _ (by simp) rfl, rfl, rfl⟩

theorem strLen_eq (h : CStr a v) : strLen a = .ok (v.length + 1) := by
  have loop : ∀ (v : List Byte) (rest : Block Byte) (c : Nat), 0 ∉ v →
      strLenFrom (v.map some ++ some 0 :: rest) c = .ok (c + v.length + 1) := by
    intro v
    induction v with
    | nil =>
        intro rest c _
        simp [strLenFrom]
    | cons x v ih =>
        intro rest c h0
        obtain ⟨hx, hv⟩ : ¬ 0 = x ∧ 0 ∉ v := by simpa using h0
        rw [List.map_cons, List.cons_append, strLenFrom, if_pos (Ne.symm hx), ih rest (c + 1) hv,
          List.length_cons]
        congr 1
        omega
  obtain ⟨rest, rfl⟩ := h.exists_rest
  rw [strLen, loop v rest 0 h.nul_free, Nat.zero_add]

theorem printC_eq (h : CStr a v) : printC a = .ok v := by
  obtain ⟨rest, rfl⟩ := h.exists_rest
  have h0 := h.nul_free
  clear h
  induction v with
  | nil => simp [printC, pure_eq_ok]
  | cons x v ih =>
      obtain ⟨hx, hv⟩ : ¬ 0 = x ∧ 0 ∉ v := by simpa using h0
      rw [List.map_cons, List.cons_append, printC, if_pos (Ne.symm hx), ih hv, ok_bind, pure_eq_ok]

/-- What `strLen` is defined on is a C string. -/
theorem exists_cstr_of_strLen {n : Nat} (h : strLen a = .ok n) : ∃ v, CStr a v := by
  have scan : ∀ (a : Block Byte) (c n : Nat), strLenFrom a c = .ok n → ∃ v, CStr a v := by
    intro a
    induction a with
    | nil =>
        intro c n h
        cases h
    | cons x a ih =>
        intro c n h
        cases x with
        | none => cases h
        | some x =>
            rw [strLenFrom] at h
            split at h
            · rename_i hx
              obtain ⟨v, hv⟩ := ih (c + 1) n h
              obtain ⟨rest, rfl⟩ := hv.exists_rest
              exact ⟨x :: v, .of_eq rest (by simpa using ⟨Ne.symm hx, hv.nul_free⟩) rfl⟩
            · rename_i hx
              obtain rfl : x = 0 := not_not.mp hx
              exact ⟨[], .of_eq a (by simp) rfl⟩
  exact scan a 0 n h

/-- Growth moves the text and its NUL. -/
theorem incrCapacity_returns (h : s.Holds w) (incr : Nat) :
    Returns (incrCapacity s incr) fun s' =>
      s'.Holds w ∧ s'.capacity = s.capacity + if incr = 0 then INCREMENT_CAPACITY else incr := by
  rw [incrCapacity]
  have hincr : 0 < if incr = 0 then INCREMENT_CAPACITY else incr := by
    split
    · exact Nat.succ_pos 9
    · exact Nat.pos_of_ne_zero ‹_›
  generalize (if incr = 0 then INCREMENT_CAPACITY else incr) = room at hincr ⊢
  obtain ⟨rest, hrest⟩ := h.text.exists_rest
  have hle := h.length_le
  rw [h.length_eq] at hle
  have hsplit : (Block.malloc (w.length + 1) ++
      Block.malloc (s.capacity + room - (w.length + 1)) : Block Byte) =
      Block.malloc (s.capacity + room) := by
    simp only [Block.malloc, List.replicate_append_replicate]
    congr 1
    omega
  have hcopy := Block.copyInto_eq (w ++ [0]) rest [] (Block.malloc (w.length + 1))
    (Block.malloc (s.capacity + room - (w.length + 1))) (by simp)
  have hsrc : (w ++ [0]).map some ++ rest = s.string := by simp [hrest]
  rw [List.nil_append, List.nil_append, hsplit, hsrc] at hcopy
  simp only [List.length_nil, List.length_append, List.length_singleton] at hcopy
  simp only [duplicateStr, strLen_eq h.text, ok_bind, hcopy, pure_eq_ok, returns_ok, and_true]
  refine ⟨.of_eq (Block.malloc (s.capacity + room - (w.length + 1))) h.text.nul_free ?_,
    h.length_eq, ?_⟩
  · simp
  · simp only [List.length_append, List.length_map, List.length_singleton, Block.length_malloc]
    omega

/-- The copy of `appendStr` writes the argument over the old NUL. -/
theorem appendBytes_returns (hs : s.Holds w) (ha : CStr a v)
    (hfits : s.length + (v.length + 1) ≤ s.capacity) :
    Returns (appendBytes s a (v.length + 1)) fun s' =>
      s'.Holds (w ++ v) ∧ s'.capacity = s.capacity := by
  obtain ⟨rest, hrest⟩ := hs.text.exists_rest
  obtain ⟨rest', hrest'⟩ := ha.exists_rest
  have hcap := hs.capacity_eq
  have hlen := hs.length_eq
  simp only [hrest, List.length_append, List.length_map, List.length_cons] at hcap
  -- the cells after the text: as many as `v` has bytes, one for the NUL, and the others
  obtain ⟨old, x, post, hcells, hold⟩ : ∃ old x post,
      some 0 :: rest = old ++ x :: post ∧ old.length = v.length := by
    have hv : v.length < (some 0 :: rest).length := by
      rw [List.length_cons]
      omega
    refine ⟨(some 0 :: rest).take v.length, (some 0 :: rest)[v.length],
      (some 0 :: rest).drop (v.length + 1), ?_, ?_⟩
    · rw [← List.drop_eq_getElem_cons hv, List.take_append_drop]
    · rw [List.length_take]
      omega
  have hcopy := Block.copyInto_eq v (some 0 :: rest') (w.map some) old (x :: post) hold
  rw [List.append_assoc, ← hcells, ← hrest, ← hrest', List.length_map] at hcopy
  have hload : a.load v.length = .ok 0 := by
    rw [hrest', Block.load_append _ _ _ (by simp)]
  have hstore : Block.store (w.map some ++ v.map some ++ x :: post) (w.length + v.length) 0 =
      .ok (w.map some ++ v.map some ++ some 0 :: post) := Block.store_append _ _ _ _ (by simp)
  have hfirst : s.length - 1 = w.length := by omega
  have hlast : s.length + (v.length + 1) - 2 = w.length + v.length := by omega
  simp only [appendBytes, hfirst, hlast, Nat.add_sub_cancel_left, hcopy, ok_bind, hload, hstore,
    pure_eq_ok, returns_ok, and_true]
  refine ⟨.of_eq post ?_ (by simp), ?_, ?_⟩
  · simpa using And.intro hs.text.nul_free ha.nul_free
  · simp only [List.length_append]
    omega
  · have hpost := congrArg List.length hcells
    simp only [List.length_append, List.length_cons] at hpost
    simp only [List.length_append, List.length_map, List.length_cons]
    omega

/-- After one growth the argument fits, so the recursive call takes the other
branch. -/
theorem appendStr_eq (hs : s.Holds w) (ha : CStr a v) :
    appendStr s a =
      if s.length + (v.length + 1) > s.capacity then
        incrCapacity s (v.length + 1) >>= fun t => appendBytes t a (v.length + 1)
      else appendBytes s a (v.length + 1) := by
  have hle := hs.length_le
  rw [appendStr, strLen_eq ha]
  simp only
  split
  · obtain ⟨t, hgrow, ht, hcap⟩ := incrCapacity_returns hs (v.length + 1)
    have hfits : ¬ t.length + (v.length + 1) > t.capacity := by
      rw [hcap, ht.length_eq, ← hs.length_eq, if_neg (Nat.succ_ne_zero _)]
      omega
    rw [hgrow, ok_bind]
    simp only
    rw [appendStr, strLen_eq ha]
    simp only
    rw [if_neg hfits]
  · rfl

/-- `appendStr` is concatenation. -/
theorem appendStr_returns (hs : s.Holds w) (ha : CStr a v) :
    Returns (appendStr s a) fun s' => s'.Holds (w ++ v) := by
  have hle := hs.length_le
  rw [appendStr_eq hs ha]
  split
  · refine (incrCapacity_returns hs (v.length + 1)).bind fun t ht => ?_
    obtain ⟨ht, hcap⟩ := ht
    rw [if_neg (Nat.succ_ne_zero _)] at hcap
    have hfits : t.length + (v.length + 1) ≤ t.capacity := by
      rw [hcap, ht.length_eq, ← hs.length_eq]
      omega
    exact (appendBytes_returns ht ha hfits).mono fun _ h => h.1
  · exact (appendBytes_returns hs ha (by omega)).mono fun _ h => h.1

theorem getStringFrom_returns (ha : CStr a v) :
    Returns (getStringFrom a) fun s => s.Holds v := by
  apply getString_returns.bind
  intro s hs
  simpa using appendStr_returns hs ha

theorem createSArray_holds : createSArray.Holds [] := GrowArray.create_holds (Nat.succ_pos _)

theorem incrSArrayCapacity_returns {sarr : SArray} {xs : List Str} (h : sarr.Holds xs) :
    Returns (incrSArrayCapacity sarr) (GrowArray.Grown sarr xs) :=
  GrowArray.grow_returns h (by decide) (Nat.le_refl _)

theorem addString_returns {sarr : SArray} {xs : List Str} (h : sarr.Holds xs) (x : Str) :
    Returns (addString sarr x) fun sarr' =>
      sarr'.Holds (xs ++ [x]) ∧ sarr.capacity ≤ sarr'.capacity :=
  GrowArray.push_returns h (by decide) (incrSArrayCapacity_returns h) x

theorem addString_appendOnly :
    GrowArray.AppendOnly pure (fun sarr => sarr.reserve 5 incrSArrayCapacity) addString
      createSArray :=
  GrowArray.push_appendOnly (by decide) (fun _ _ => incrSArrayCapacity_returns) (fun _ _ => rfl)
    createSArray_holds

/-- Two strings compare equal exactly when their texts agree, whatever their
capacities. -/
theorem compareStr_returns (hs : s.Holds w) (hs' : s'.Holds w') :
    Returns (compareStr s s') fun r => r = 0 ↔ w = w' := by
  unfold compareStr
  rw [hs.length_eq, hs'.length_eq]
  split
  · rename_i hne
    rw [pure_eq_ok, returns_ok]
    refine ⟨fun h => absurd h (by decide), fun h => absurd (congrArg List.length h) ?_⟩
    omega
  · rename_i heq
    exact memcmp_returns (by omega) ((List.prefix_append _ _).trans hs.text.starts)
      ((List.prefix_append _ _).trans hs'.text.starts)

end Holds

end TelnetChat
