import Mathlib.Data.Option.Basic
import TelnetChat.CRuntime.Exec

/-!
# Blocks of memory and C strings

A `Block` is what one `malloc` returns: a list of cells, where `none` is a cell
that was never written.  A load outside the block or of such a cell, and a
store outside the block, are undefined behaviour.

`CStr b w` says that the block `b` starts with the C string `w`: the bytes `w`,
none of them NUL, and a NUL.  What follows the NUL is not described, so the
length of a C string and the size of its block are independent.
-/

namespace CRuntime

/-- A `char`. -/
abbrev Byte : Type := UInt8

/-- An allocated block; `none` is a cell never written. -/
abbrev Block (α : Type) : Type := List (Option α)

/-! ## Allocation and access -/

namespace Block

variable {α : Type}

/-- `malloc(n * sizeof(α))`. -/
def malloc (n : Nat) : Block α := List.replicate n none

/-- `b[i]`, read for its value. -/
def load (b : Block α) (i : Nat) : Exec α :=
  match b[i]? with
  | some (some x) => .ok x
  | _ => .error .undefined

/-- `b[i]` at a signed index. -/
def loadInt (b : Block α) (i : Int) : Exec α :=
  if i < 0 then .error .undefined else b.load i.toNat

/-- The values of `n` cells from `b + i`. -/
def loadMany (b : Block α) : Nat → Nat → Exec (List α)
  | 0, _ => pure []
  | n + 1, i => do
      let x ← b.load i
      let xs ← loadMany b n (i + 1)
      pure (x :: xs)

/-- `b[i]`, copied as it is: the copy of a cell never written is such a cell. -/
def peek (b : Block α) (i : Nat) : Exec (Option α) :=
  match b[i]? with
  | some x => .ok x
  | none => .error .undefined

/-- `b[i] = x`. -/
def store (b : Block α) (i : Nat) (x : α) : Exec (Block α) :=
  if i < b.length then .ok (b.set i (some x)) else .error .undefined

/-- `for (c = 0; c < n; c++) dst[off + c] = src[c]`. -/
def copyInto (dst src : Block α) (off n : Nat) : Exec (Block α) :=
  forUp (fun c dst => do
    let x ← src.load c
    dst.store (off + c) x) n 0 dst

/-- The use of a copied cell. -/
def written : Option α → Exec α
  | some x => .ok x
  | none => .error .undefined

@[simp] theorem length_malloc (n : Nat) : (malloc n : Block α).length = n :=
  List.length_replicate

theorem written_eq_ok {x : Option α} {y : α} (h : written x = .ok y) : x = some y := by
  cases x with
  | none => cases h
  | some x => exact congrArg some (Except.ok.inj h)

theorem load_append (xs ys : Block α) (y : α) {i : Nat} (h : xs.length = i) :
    load (xs ++ some y :: ys) i = .ok y := by
  subst h
  simp [load]

theorem load_map_some (xs : List α) (ys : Block α) {i : Nat} (h : i < xs.length) :
    load (xs.map some ++ ys) i = .ok xs[i] := by
  have hi : (xs.map some ++ ys)[i]? = some (some xs[i]) := by
    rw [List.getElem?_append_left (by simpa using h)]
    simp [h]
  simp [load, hi]

theorem loadInt_natCast (b : Block α) (i : Nat) : loadInt b i = load b i := by
  rw [loadInt, if_neg (by omega), Int.toNat_natCast]

theorem loadMany_eq (rest : Block α) (done todo : List α) :
    loadMany ((done ++ todo).map some ++ rest) todo.length done.length = .ok todo := by
  induction todo generalizing done with
  | nil => rfl
  | cons x todo ih =>
      have hload : load ((done ++ x :: todo).map some ++ rest) done.length = .ok x := by
        rw [load_map_some _ _ (by simp)]
        simp
      have hrest := ih (done ++ [x])
      rw [List.append_assoc, List.singleton_append, List.length_append, List.length_singleton]
        at hrest
      rw [List.length_cons, loadMany, hload, ok_bind, hrest]
      rfl

/-- A store into the middle of a block changes that cell only. -/
theorem store_append (xs ys : Block α) (y : Option α) (x : α) {i : Nat} (h : xs.length = i) :
    store (xs ++ y :: ys) i x = .ok (xs ++ some x :: ys) := by
  subst h
  simp [store]

/-- A store that returns was in bounds, and keeps the size. -/
theorem store_inBounds {b b' : Block α} {i : Nat} {x : α} (h : b.store i x = .ok b') :
    i < b.length ∧ b'.length = b.length := by
  unfold store at h
  split at h
  · cases h
    exact ⟨‹_›, List.length_set⟩
  · cases h

theorem store_frame {b b' : Block α} {i j : Nat} {x : α} (h : b.store i x = .ok b') (hj : j ≠ i) :
    b'[j]? = b[j]? := by
  unfold store at h
  split at h
  · cases h
    exact List.getElem?_set_ne hj.symm
  · cases h

/-- A copy loop that returns wrote `n` cells from `off` on, all in bounds, and no
other cell. -/
theorem copyInto_frame {dst src b : Block α} {off n : Nat} (h : copyInto dst src off n = .ok b) :
    b.length = dst.length ∧ (∀ c < n, off + c < dst.length) ∧
      ∀ j, j < off ∨ off + n ≤ j → b[j]? = dst[j]? := by
  have hloop := forUp_result (I := fun c t => t.length = dst.length ∧
    (∀ c' < c, off + c' < dst.length) ∧ ∀ j, j < off ∨ off + c ≤ j → t[j]? = dst[j]?) h
    ⟨rfl, fun c hc => absurd hc (Nat.not_lt_zero c), fun _ _ => rfl⟩ ?_
  · rwa [Nat.zero_add] at hloop
  · rintro c s t _ _ ⟨hlen, hbelow, hkept⟩ hbody
    obtain ⟨x, _, hstore⟩ := bind_eq_ok.mp hbody
    obtain ⟨hlt, hlen'⟩ := store_inBounds hstore
    rw [hlen] at hlt
    refine ⟨hlen'.trans hlen, fun c' hc' => ?_, fun j hj => ?_⟩
    · rcases Nat.lt_succ_iff_lt_or_eq.mp hc' with hc' | rfl
      · exact hbelow c' hc'
      · exact hlt
    · rw [store_frame hstore (by omega)]
      exact hkept j (by omega)

/-- A copy loop that returns stored in bounds. -/
theorem copyInto_inBounds {dst src b : Block α} {off n : Nat}
    (h : copyInto dst src off (n + 1) = .ok b) : off + n < dst.length :=
  (copyInto_frame h).2.1 n (Nat.lt_succ_self n)

/-- A copy loop in two parts. -/
theorem copyInto_add (dst src : Block α) (off n m : Nat) :
    dst.copyInto src off (n + m) = dst.copyInto src off n >>= forUp (fun c dst => do
      let x ← src.load c
      dst.store (off + c) x) m n := by
  rw [copyInto, forUp_add, Nat.zero_add]
  rfl

/-- The copy of one more cell. -/
theorem copyInto_succ (dst src : Block α) (off n : Nat) :
    dst.copyInto src off (n + 1) = dst.copyInto src off n >>= fun dst =>
      src.load n >>= dst.store (off + n) := by
  rw [copyInto_add]
  simp only [forUp, bind_pure]

/-- A copy loop that returns would have returned before. -/
theorem copyInto_of_le {dst src b : Block α} {off n m : Nat} (h : dst.copyInto src off m = .ok b)
    (hle : n ≤ m) : ∃ b', dst.copyInto src off n = .ok b' := by
  rw [← Nat.add_sub_of_le hle, copyInto_add] at h
  obtain ⟨b', hb', _⟩ := bind_eq_ok.mp h
  exact ⟨b', hb'⟩

/-- A copy loop writes the values of the source over as many cells. -/
theorem copyInto_eq (xs : List α) (src pre old post : Block α) (hold : old.length = xs.length) :
    copyInto (pre ++ old ++ post) (xs.map some ++ src) pre.length xs.length =
      .ok (pre ++ xs.map some ++ post) := by
  -- the loop at index `c`: `done` is copied, `todo` is not
  have loop : ∀ (todo done : List α) (old : Block α), old.length = todo.length →
      forUp (fun c dst => do
          let x ← load ((done ++ todo).map some ++ src) c
          store dst (pre.length + c) x) todo.length done.length
          (pre ++ done.map some ++ old ++ post) =
        (.ok (pre ++ (done ++ todo).map some ++ post) : Exec (Block α)) := by
    intro todo
    induction todo with
    | nil =>
        intro done old h
        obtain rfl : old = [] := List.length_eq_zero_iff.mp h
        simp [forUp]
    | cons x todo ih =>
        intro done old h
        cases old with
        | nil => cases h
        | cons y old =>
            have hload : load ((done ++ x :: todo).map some ++ src) done.length = .ok x := by
              rw [load_map_some _ _ (by simp)]
              simp
            have hstore : store (pre ++ done.map some ++ y :: old ++ post)
                (pre.length + done.length) x =
                .ok (pre ++ (done ++ [x]).map some ++ old ++ post) := by
              rw [List.append_assoc, List.cons_append, store_append _ _ _ _ (by simp)]
              simp
            have hnext := ih (done ++ [x]) old (by simpa using h)
            simp only [List.append_assoc, List.singleton_append, List.length_append,
              List.length_singleton] at hnext
            simp only [List.length_cons, forUp, hload, ok_bind, hstore]
            simpa only [List.append_assoc, List.singleton_append] using hnext
  simpa [copyInto] using loop xs [] old hold

end Block

/-! ## C strings -/

/-- The block starts with the C string `w`. -/
structure CStr (b : Block Byte) (w : List Byte) : Prop where
  /-- The text holds no NUL. -/
  nul_free : 0 ∉ w
  /-- The block starts with the text and a NUL. -/
  starts : w.map some ++ [some 0] <+: b

/-- The block of a string literal. -/
def cstr (w : List Byte) : Block Byte := w.map some ++ [some 0]

/-- `calloc(n, sizeof(char))`. -/
def calloc (n : Nat) : Block Byte := List.replicate n (some 0)

@[simp] theorem length_calloc (n : Nat) : (calloc n).length = n := List.length_replicate

/-- The bytes of an ASCII string constant, without its NUL. -/
def bytes (s : String) : List Byte := s.toList.map fun c => c.toNat.toUInt8

/-- The number of bytes before the first NUL, as `strlen` returns it. -/
def strlen : Block Byte → Exec Nat
  | [] => .error .undefined
  | none :: _ => .error .undefined
  | some x :: b =>
      if x = 0 then .ok 0
      else do
        let n ← strlen b
        pure (n + 1)

/-- `strcat(dst, src)`: the bytes of `src` and its NUL go over the NUL of
`dst` and what follows it. -/
def strcat (dst src : Block Byte) : Exec (Block Byte) := do
  let off ← strlen dst
  let n ← strlen src
  dst.copyInto src off (n + 1)

/-- `memcmp(a, b, n)`, from index `i`: zero when the bytes agree, else the sign of the
first difference. -/
def memcmpFrom (a b : Block Byte) : Nat → Nat → Exec Int
  | 0, _ => pure 0
  | n + 1, i => do
      let x ← a.load i
      let y ← b.load i
      if x = y then memcmpFrom a b n (i + 1) else pure (if x < y then -1 else 1)

/-- `memcmp(a, b, n)`. -/
def memcmp (a b : Block Byte) (n : Nat) : Exec Int := memcmpFrom a b n 0

section CStr

variable {b b' : Block Byte} {w w' : List Byte}

theorem CStr.exists_rest (h : CStr b w) : ∃ rest, b = w.map some ++ some 0 :: rest := by
  obtain ⟨rest, hrest⟩ := h.starts
  exact ⟨rest, by rw [← hrest, List.append_assoc, List.singleton_append]⟩

theorem CStr.of_eq (rest : Block Byte) (h0 : 0 ∉ w) (h : b = w.map some ++ some 0 :: rest) :
    CStr b w := by
  refine ⟨h0, rest, ?_⟩
  rw [h, List.append_assoc, List.singleton_append]

/-- A C string fits its block with its NUL. -/
theorem CStr.length_lt (h : CStr b w) : w.length < b.length := by
  obtain ⟨rest, rfl⟩ := h.exists_rest
  simp

theorem cstr_cstr (h : 0 ∉ w) : CStr (cstr w) w := CStr.of_eq [] h rfl

theorem strlen_eq (h : CStr b w) : strlen b = .ok w.length := by
  obtain ⟨rest, rfl⟩ := h.exists_rest
  have h0 := h.nul_free
  clear h
  induction w with
  | nil => simp [strlen]
  | cons x w ih =>
      obtain ⟨hx, hw⟩ : ¬ 0 = x ∧ 0 ∉ w := by simpa using h0
      simp [strlen, Ne.symm hx, ih hw]

/-- The bytes of a C string with its NUL. -/
theorem CStr.loadMany_eq (h : CStr b w) : b.loadMany (w.length + 1) 0 = .ok (w ++ [0]) := by
  obtain ⟨rest, rfl⟩ := h.exists_rest
  have hload := Block.loadMany_eq rest [] (w ++ [0])
  rw [List.nil_append, List.map_append, List.append_assoc, List.length_append] at hload
  exact hload

/-- The text of a C string is determined by its block. -/
theorem CStr.unique (h : CStr b w) (h' : CStr b w') : w = w' := by
  obtain ⟨rest, hrest⟩ := h.exists_rest
  obtain ⟨rest', hrest'⟩ := h'.exists_rest
  have hlen : w.length = w'.length := by
    have heq := strlen_eq h
    rw [strlen_eq h'] at heq
    exact (Except.ok.inj heq).symm
  have hmap := List.append_inj_left (hrest.symm.trans hrest') (by simpa using hlen)
  exact List.map_injective_iff.mpr (Option.some_injective _) hmap

theorem strcat_returns (hb : CStr b w) (hb' : CStr b' w')
    (hfits : w.length + w'.length < b.length) :
    Returns (strcat b b') fun r => CStr r (w ++ w') ∧ r.length = b.length := by
  obtain ⟨rest, rfl⟩ := hb.exists_rest
  obtain ⟨rest', hb''⟩ := hb'.exists_rest
  have h0 : (0 : Byte) ∉ w ++ w' := by
    simpa using And.intro hb.nul_free hb'.nul_free
  simp only [List.length_append, List.length_map, List.length_cons] at hfits
  have hcopy := Block.copyInto_eq (w' ++ [0]) rest' (w.map some)
    ((some 0 :: rest).take (w'.length + 1)) ((some 0 :: rest).drop (w'.length + 1))
    (by simp; omega)
  simp only [List.append_assoc, List.take_append_drop, List.length_map, List.map_append,
    List.map_cons, List.map_nil, List.singleton_append, List.length_append,
    List.length_singleton] at hcopy
  refine ⟨w.map some ++ (w'.map some ++ some 0 :: (some 0 :: rest).drop (w'.length + 1)),
    ?_, ?_, ?_⟩
  · rw [strcat, strlen_eq hb, strlen_eq hb', ok_bind, ok_bind, hb'', hcopy]
  · exact CStr.of_eq ((some 0 :: rest).drop (w'.length + 1)) h0 (by simp)
  · simp
    omega

/-- What `strlen` is defined on is a C string. -/
theorem exists_cstr_of_strlen {n : Nat} (h : strlen b = .ok n) : ∃ w, CStr b w := by
  induction b generalizing n with
  | nil => cases h
  | cons x b ih =>
      cases x with
      | none => cases h
      | some x =>
          rw [strlen] at h
          split at h
          · rename_i hx
            subst hx
            exact ⟨[], .of_eq b List.not_mem_nil rfl⟩
          · rename_i hx
            obtain ⟨m, hm, _⟩ := bind_eq_ok.mp h
            obtain ⟨w, hw⟩ := ih hm
            obtain ⟨rest, rfl⟩ := hw.exists_rest
            exact ⟨x :: w, .of_eq rest (by simpa using ⟨Ne.symm hx, hw.nul_free⟩) rfl⟩

/-- A `strcat` that returns had two C strings and room for both. -/
theorem strcat_fits {r : Block Byte} (h : strcat b b' = .ok r) :
    ∃ w w', CStr b w ∧ CStr b' w' ∧ w.length + w'.length < b.length := by
  obtain ⟨off, hoff, hrest⟩ := bind_eq_ok.mp h
  obtain ⟨n, hn, hcopy⟩ := bind_eq_ok.mp hrest
  obtain ⟨w, hw⟩ := exists_cstr_of_strlen hoff
  obtain ⟨w', hw'⟩ := exists_cstr_of_strlen hn
  rw [strlen_eq hw] at hoff
  rw [strlen_eq hw'] at hn
  cases hoff
  cases hn
  exact ⟨w, w', hw, hw', Block.copyInto_inBounds hcopy⟩

/-- `memcmp` over two texts of one length is zero exactly when they agree. -/
theorem memcmp_returns (hlen : w.length = w'.length) (hb : w.map some <+: b)
    (hb' : w'.map some <+: b') :
    Returns (memcmp b b' w.length) fun r => r = 0 ↔ w = w' := by
  obtain ⟨rest, rfl⟩ := hb
  obtain ⟨rest', rfl⟩ := hb'
  -- the comparison from the index after a common prefix `done`
  have loop : ∀ (todo todo' done : List Byte), todo.length = todo'.length →
      Returns (memcmpFrom ((done ++ todo).map some ++ rest) ((done ++ todo').map some ++ rest')
        todo.length done.length) fun r => r = 0 ↔ todo = todo' := by
    intro todo
    induction todo with
    | nil =>
        intro todo' done h
        obtain rfl : todo' = [] := List.length_eq_zero_iff.mp h.symm
        simp [memcmpFrom]
    | cons x todo ih =>
        intro todo' done h
        cases todo' with
        | nil => cases h
        | cons y todo' =>
            have hx : Block.load ((done ++ x :: todo).map some ++ rest) done.length = .ok x := by
              rw [Block.load_map_some _ _ (by simp)]
              simp
            have hy : Block.load ((done ++ y :: todo').map some ++ rest') done.length = .ok y := by
              rw [Block.load_map_some _ _ (by simp)]
              simp
            rw [List.length_cons, memcmpFrom, hx, ok_bind, hy, ok_bind]
            by_cases hxy : x = y
            · subst hxy
              have hnext := ih todo' (done ++ [x]) (by simpa using h)
              simpa using hnext
            · rw [if_neg hxy, pure_eq_ok, returns_ok]
              by_cases hlt : x < y <;> simp [hlt, hxy]
  simpa [memcmp] using loop w w' [] hlen

end CStr

end CRuntime
