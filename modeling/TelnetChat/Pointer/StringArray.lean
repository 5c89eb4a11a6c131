import TelnetChat.CRuntime.Memory
import TelnetChat.StringArray

/-!
# Growable strings with pointers (`string_array.c`)

The functions of `string_array.c` again, over a memory: a `Str` here has the pointer
to its buffer, `malloc` makes a new one, and `incrCapacity` frees the one it replaces.
The arrays of the source are never freed, and stay values.

`s.Reads m t` says that the memory shows `s` as the string `t` of `StringArray.lean`.
A function that returns there returns here, with what it returns there, if the text it
appends is not in the buffer it may free (`appendStr_reads`).  It leaves every other
block alone, and as many live blocks as before.
-/

namespace TelnetChat.Pointer

open CRuntime TelnetChat

/-! ## The source -/

/-- `struct String`. -/
structure Str where
  string : Ptr
  length : Nat
  capacity : Nat
deriving DecidableEq

/-- `struct SArray`; its `length` is `size` here. -/
abbrev SArray : Type := GrowArray Str

def createSArray : SArray := .create INIT_CAPACITY

def incrSArrayCapacity (sarr : SArray) : Exec SArray := sarr.grow (sarr.capacity + 10) 10

def addString (sarray : SArray) (str : Str) : Exec SArray := sarray.push 5 incrSArrayCapacity str

def getString : Heaped Byte Str := do
  let string ← Heaped.malloc INIT_CAPACITY
  Heaped.store string 0 0
  pure ⟨string, 1, INIT_CAPACITY⟩

def strLen (str : Source Byte) : Heaped Byte Nat := do
  let b ← Heaped.read str
  TelnetChat.strLen b

def duplicateStr (source : Source Byte) (target : Ptr) : Heaped Byte Unit := do
  let srclen ← strLen source
  Heaped.copy target source 0 srclen

def incrCapacity (str : Str) (incr : Nat) : Heaped Byte Str := do
  let incr := if incr = 0 then INCREMENT_CAPACITY else incr
  let newstr ← Heaped.malloc (str.capacity + incr)
  duplicateStr (.heap str.string) newstr
  Heaped.free str.string
  pure ⟨newstr, str.length, str.capacity + incr⟩

/-- The `else` branch of `appendStr`. -/
def appendBytes (string : Str) (append : Source Byte) (appendLen : Nat) : Heaped Byte Str := do
  let first := string.length - 1
  let last := string.length + appendLen - 2
  Heaped.copy string.string append first (last - first)
  let nul ← Heaped.load append (last - first)
  Heaped.store string.string last nul
  pure ⟨string.string, string.length + appendLen - 1, string.capacity⟩

/-- What `strLen` counts is in the block. -/
theorem strLen_size {m m' : Memory Byte} {str : Source Byte} {n : Nat}
    (h : (strLen str).run m = .ok (n, m')) : m' = m ∧ n ≤ m.size str := by
  obtain ⟨b, m₁, hread, hlen⟩ := Heaped.bind_run_eq_ok.mp h
  obtain ⟨hm₁, hb⟩ := Heaped.read_memory hread
  obtain ⟨hm', hn⟩ := Heaped.lift_memory hlen
  refine ⟨hm'.trans hm₁, ?_⟩
  have hle := strLenFrom_le hn
  rw [Heaped.size_eq hb]
  omega

theorem incrCapacity_grows {m m' : Memory Byte} {str str' : Str} {incr n : Nat}
    {append : Source Byte} (h : (incrCapacity str incr).run m = .ok (str', m'))
    (happend : (strLen append).run m = .ok (n, m)) :
    str'.length = str.length ∧ str.capacity < str'.capacity ∧ m'.size append ≤ m.size append := by
  obtain ⟨b, _, hread, _⟩ := Heaped.bind_run_eq_ok.mp happend
  obtain ⟨rfl, hb⟩ := Heaped.read_memory hread
  obtain ⟨newstr, m₁, halloc, hrest⟩ := Heaped.bind_run_eq_ok.mp h
  obtain ⟨_, m₂, hduplicate, hrest⟩ := Heaped.bind_run_eq_ok.mp hrest
  obtain ⟨_, m₃, hfree, hpure⟩ := Heaped.bind_run_eq_ok.mp hrest
  obtain ⟨srclen, m₄, hlen, hcopy⟩ := Heaped.bind_run_eq_ok.mp hduplicate
  obtain ⟨rfl, _⟩ := strLen_size hlen
  cases halloc
  cases hpure
  refine ⟨rfl, ?_, ?_⟩
  · by_cases hincr : incr = 0
    · simp [hincr, INCREMENT_CAPACITY]
    · simp only [hincr, if_false]
      omega
  · calc m'.size append ≤ m₂.size append := Heaped.free_size hfree append
      _ = _ := Heaped.copy_size hcopy append
      _ = _ := Heaped.alloc_size hb _

/-- `appendStr` from the memory `m`. -/
def appendStrFrom (m : Memory Byte) (string : Str) (append : Source Byte) :
    Exec (Str × Memory Byte) :=
  match _hlen : (strLen append).run m with
  | .error e => .error e
  | .ok (appendLen, m₁) =>
      if string.length + appendLen > string.capacity then
        match _hgrow : (incrCapacity string appendLen).run m₁ with
        | .error e => .error e
        | .ok (string', m₂) => appendStrFrom m₂ string' append
      else (appendBytes string append appendLen).run m₁
termination_by string.length + m.size append - string.capacity
decreasing_by
  obtain ⟨rfl, hle⟩ := strLen_size _hlen
  obtain ⟨hlength, hcapacity, hsize⟩ := incrCapacity_grows _hgrow _hlen
  omega

def appendStr (string : Str) (append : Source Byte) : Heaped Byte Str :=
  fun m => appendStrFrom m string append

def getStringFrom (arr : Source Byte) : Heaped Byte Str := do
  let string ← getString
  appendStr string arr

def compareStr (str1 str2 : Str) : Heaped Byte Int :=
  if str1.length ≠ str2.length then pure 1
  else do
    let a ← Heaped.read (.heap str1.string)
    let b ← Heaped.read (.heap str2.string)
    memcmp a b (str1.length - 1)

/-! ## What the memory shows -/

/-- The memory shows `s` as the string `t`. -/
structure Str.Reads (m : Memory Byte) (s : Str) (t : TelnetChat.Str) : Prop where
  string : m.At s.string t.string
  length_eq : s.length = t.length
  capacity_eq : s.capacity = t.capacity

/-- The string is well formed and its text is `w`. -/
def Str.Holds (m : Memory Byte) (s : Str) (w : List Byte) : Prop := ∃ t, s.Reads m t ∧ t.Holds w

section Reads

variable {m m' : Memory Byte} {s s' : Str} {t t' : TelnetChat.Str} {P : Ptr → Prop} {k n : Nat}
  {src : Source Byte} {a : Block Byte} {v w w' : List Byte}

theorem Str.Holds.keep (h : s.Holds m w) (hm : Memory.Keeps P m m') (hP : P s.string) :
    s.Holds m' w := by
  obtain ⟨t, ht, hw⟩ := h
  exact ⟨t, ⟨hm.kept _ _ hP ht.string, ht.length_eq, ht.capacity_eq⟩, hw⟩

theorem Str.Holds.grow (h : s.Holds m w) (hm : Memory.Grows P k m m') (hP : P s.string) :
    s.Holds m' w :=
  h.keep hm.toKeeps hP

theorem Str.Holds.lt (h : s.Holds m w) : s.string < m.length := by
  obtain ⟨t, ht, _⟩ := h
  exact ht.string.lt

theorem Str.Holds.length_eq (h : s.Holds m w) : s.length = w.length + 1 := by
  obtain ⟨t, ht, hw⟩ := h
  exact ht.length_eq.trans hw.length_eq

/-- The buffer is a C string with the text. -/
theorem Str.Holds.source (h : s.Holds m w) :
    ∃ b, m.source (.heap s.string) = .ok b ∧ CStr b w := by
  obtain ⟨t, ht, hw⟩ := h
  exact ⟨t.string, ht.string.source, hw.text⟩

theorem strLen_run (hsrc : m.source src = .ok a) (hn : TelnetChat.strLen a = .ok n) :
    (strLen src).run m = .ok (n, m) := by
  rw [strLen, Heaped.bind_run (Heaped.read_run hsrc)]
  exact Heaped.lift_run hn m

theorem strLen_run_error {e : Fault} (hsrc : m.source src = .ok a)
    (he : TelnetChat.strLen a = .error e) : (strLen src).run m = .error e := by
  rw [strLen, Heaped.bind_run (Heaped.read_run hsrc)]
  exact Heaped.lift_run_error he m

theorem getString_yields (m : Memory Byte) :
    Heaped.Yields getString m fun s m' =>
      s.string = m.length ∧ s.Holds m' [] ∧ ∀ P, Memory.Grows P 1 m m' := by
  obtain ⟨t, hget, ht⟩ := getString_returns
  obtain ⟨buf, hstore, hpure⟩ := bind_eq_ok.mp hget
  cases hpure
  have hnew := Memory.at_concat m (Block.malloc INIT_CAPACITY)
  refine .bind_eq (Heaped.alloc_run _ m) (.bind_eq (Heaped.store_run hnew hstore)
    (Heaped.yields_pure ⟨rfl, ⟨_, ⟨hnew.set buf, rfl, rfl⟩, ht⟩, fun P => ?_⟩))
  exact (Memory.grows_concat P m _).set hnew (Nat.le_refl _) buf

theorem duplicateStr_run {p : Ptr} {b b' : Block Byte} (hsrc : m.source src = .ok a)
    (hp : m.At p b) (hne : src ≠ .heap p) (h : TelnetChat.duplicateStr a b = .ok b') :
    (duplicateStr src p).run m = .ok ((), m.set p (some b')) := by
  obtain ⟨srclen, hlen, hcopy⟩ := bind_eq_ok.mp h
  rw [duplicateStr, Heaped.bind_run (strLen_run hsrc hlen)]
  exact Heaped.copy_run hsrc hp hne hcopy

/-- Growth moves the text to a new buffer and frees the old one. -/
theorem incrCapacity_yields {incr : Nat} (hs : s.Reads m t)
    (ht : TelnetChat.incrCapacity t incr = .ok t') :
    Heaped.Yields (incrCapacity s incr) m fun s' m' =>
      s'.Reads m' t' ∧ s'.string = m.length ∧ Memory.Grows (· ≠ s.string) 0 m m' := by
  obtain ⟨newstr, hduplicate, hpure⟩ := bind_eq_ok.mp ht
  cases hpure
  rw [← hs.capacity_eq] at hduplicate
  have hlt := hs.string.lt
  have hgrown := Memory.grows_concat (fun _ => True) m
    (Block.malloc (s.capacity + if incr = 0 then INCREMENT_CAPACITY else incr))
  have hnew := Memory.at_concat m
    (Block.malloc (s.capacity + if incr = 0 then INCREMENT_CAPACITY else incr) : Block Byte)
  have hold := hgrown.kept _ _ trivial hs.string
  have hne := Memory.source_ne_next hs.string.source
  have hcopied := hgrown.set hnew (Nat.le_refl _) newstr
  have hold' := hcopied.kept _ _ trivial hs.string
  refine .bind_eq (Heaped.alloc_run _ m)
    (.bind_eq (duplicateStr_run hold.source hnew hne hduplicate)
    (.bind_eq (Heaped.free_run hold') (Heaped.yields_pure ⟨⟨?_, hs.length_eq, ?_⟩, rfl, ?_⟩)))
  · exact (List.getElem?_set_ne (Nat.ne_of_lt hlt)).trans (hnew.set newstr)
  · show s.capacity + _ = _
    rw [hs.capacity_eq]
  · exact Memory.Grows.free (hcopied.mono fun _ _ _ => trivial) hold' fun _ _ hq => hq

/-- The bytes are written over the old NUL of the same buffer. -/
theorem appendBytes_yields (hs : s.Reads m t) (hsrc : m.source src = .ok a)
    (hne : src ≠ .heap s.string) (ht : TelnetChat.appendBytes t a n = .ok t') :
    Heaped.Yields (appendBytes s src n) m fun s' m' =>
      s'.Reads m' t' ∧ s'.string = s.string ∧ Memory.Grows (· ≠ s.string) 0 m m' := by
  obtain ⟨buf, hcopy, hrest⟩ := bind_eq_ok.mp ht
  obtain ⟨nul, hload, hrest⟩ := bind_eq_ok.mp hrest
  obtain ⟨buf', hstore, hpure⟩ := bind_eq_ok.mp hrest
  cases hpure
  rw [← hs.length_eq] at hcopy hload hstore
  have hcopied := Memory.grows_set hs.string buf
  have hsrc' : Memory.source (m.set s.string (some buf)) src = .ok a := by
    apply hcopied.source hsrc
    rintro p rfl rfl
    exact hne rfl
  have hbuf := hs.string.set buf
  refine .bind_eq (Heaped.copy_run hsrc hs.string hne hcopy)
    (.bind_eq (Heaped.load_run hsrc' hload) (.bind_eq (Heaped.store_run hbuf hstore)
    (Heaped.yields_pure ⟨⟨hbuf.set buf', ?_, ?_⟩, rfl, ?_⟩)))
  · show s.length + n - 1 = t.length + n - 1
    rw [hs.length_eq]
  · exact hs.capacity_eq
  · exact hcopied.trans (Memory.grows_set hbuf buf')

/-- What `appendStr` returns without pointers, it returns with them, in the buffer of the
string or in a new one. -/
theorem appendStr_reads (hs : s.Reads m t) (hsrc : m.source src = .ok a)
    (hne : src ≠ .heap s.string) (ht : TelnetChat.appendStr t a = .ok t') :
    Heaped.Yields (appendStr s src) m fun s' m' =>
      s'.Reads m' t' ∧ (s'.string = s.string ∨ m.length ≤ s'.string) ∧
        Memory.Grows (· ≠ s.string) 0 m m' := by
  induction t using TelnetChat.appendStr.induct a generalizing s m with
  | case1 t e hlen =>
      rw [TelnetChat.appendStr, hlen] at ht
      cases ht
  | case2 t appendLen hlen hfull e hgrow =>
      rw [TelnetChat.appendStr, hlen] at ht
      simp only [if_pos hfull] at ht
      rw [hgrow] at ht
      cases ht
  | case3 t appendLen hlen hfull t₁ hgrow ih =>
      rw [TelnetChat.appendStr, hlen] at ht
      simp only [if_pos hfull] at ht
      rw [hgrow] at ht
      obtain ⟨s₁, m₁, hrun, hs₁, hnew, hm₁⟩ := incrCapacity_yields hs hgrow
      rw [← hs.length_eq, ← hs.capacity_eq] at hfull
      have hsrc₁ : m₁.source src = .ok a := by
        apply hm₁.source hsrc
        rintro p rfl rfl
        exact hne rfl
      -- the new buffer is not the appended one, which was there before
      have hne₁ : src ≠ .heap s₁.string := by
        rw [hnew]
        exact Memory.source_ne_next hsrc
      obtain ⟨s', m', hrest, hs', hstring, hm'⟩ := ih hs₁ hsrc₁ hne₁ ht
      refine ⟨s', m', ?_, hs', ?_, ?_⟩
      · show appendStrFrom m s src = _
        rw [appendStrFrom, strLen_run hsrc hlen]
        simp only [if_pos hfull]
        rw [hrun]
        exact hrest
      · rcases hstring with hsame | hfresh
        · exact .inr (Nat.le_of_eq (hsame.trans hnew).symm)
        · exact .inr (Nat.le_trans hm₁.length_le hfresh)
      · refine hm₁.then hm' fun p hp _ => ?_
        rw [hnew]
        exact Nat.ne_of_lt hp
  | case4 t appendLen hlen hfits =>
      rw [TelnetChat.appendStr, hlen] at ht
      simp only [if_neg hfits] at ht
      obtain ⟨s', m', hrun, hs', hstring, hm'⟩ := appendBytes_yields hs hsrc hne ht
      rw [← hs.length_eq, ← hs.capacity_eq] at hfits
      refine ⟨s', m', ?_, hs', .inl hstring, hm'⟩
      show appendStrFrom m s src = _
      rw [appendStrFrom, strLen_run hsrc hlen]
      simp only [if_neg hfits]
      exact hrun

/-- `appendStr` is concatenation. -/
theorem appendStr_yields (hs : s.Holds m w) (hsrc : m.source src = .ok a) (ha : CStr a v)
    (hne : src ≠ .heap s.string) :
    Heaped.Yields (appendStr s src) m fun s' m' =>
      s'.Holds m' (w ++ v) ∧ (s'.string = s.string ∨ m.length ≤ s'.string) ∧
        Memory.Grows (· ≠ s.string) 0 m m' := by
  obtain ⟨t, ht, hw⟩ := hs
  obtain ⟨t', happend, hw'⟩ := appendStr_returns hw ha
  refine (appendStr_reads ht hsrc hne happend).mono fun s' m' hs' => ?_
  exact ⟨⟨t', hs'.1, hw'⟩, hs'.2⟩

/-- A string from a text has a new buffer, which is one live block more. -/
theorem getStringFrom_yields (hsrc : m.source src = .ok a) (ha : CStr a v) :
    Heaped.Yields (getStringFrom src) m fun s m' =>
      s.Holds m' v ∧ m.length ≤ s.string ∧ ∀ P, Memory.Grows P 1 m m' := by
  apply (getString_yields m).bind
  rintro s m₁ ⟨hnew, hs, hm₁⟩
  have hsrc₁ : m₁.source src = .ok a := (hm₁ fun _ => True).source hsrc fun _ _ => trivial
  have hne : src ≠ .heap s.string := by
    rw [hnew]
    exact Memory.source_ne_next hsrc
  apply (appendStr_yields hs hsrc₁ ha hne).mono
  rintro s' m' ⟨hs', hstring, hm'⟩
  refine ⟨by simpa using hs', ?_, fun P => (hm₁ P).then hm' fun p hp _ => ?_⟩
  · rcases hstring with hsame | hfresh
    · exact Nat.le_of_eq (hsame.trans hnew).symm
    · exact Nat.le_trans (hm₁ fun _ => True).length_le hfresh
  · rw [hnew]
    exact Nat.ne_of_lt hp

/-- Two strings compare equal exactly when their texts agree. -/
theorem compareStr_yields (hs : s.Holds m w) (hs' : s'.Holds m w') :
    Heaped.Yields (compareStr s s') m fun r m' => m' = m ∧ (r = 0 ↔ w = w') := by
  obtain ⟨t, ht, hw⟩ := hs
  obtain ⟨t', ht', hw'⟩ := hs'
  obtain ⟨r, hcompare, hr⟩ := compareStr_returns hw hw'
  unfold TelnetChat.compareStr at hcompare
  unfold compareStr
  rw [ht.length_eq, ht'.length_eq]
  split at hcompare
  · rename_i hlen
    cases hcompare
    rw [if_pos hlen]
    exact Heaped.yields_pure ⟨rfl, hr⟩
  · rename_i hlen
    rw [if_neg hlen]
    exact .bind_eq (Heaped.read_run ht.string.source) (.bind_eq (Heaped.read_run ht'.string.source)
      (Heaped.yields_lift hcompare ⟨rfl, hr⟩))

end Reads

end TelnetChat.Pointer
