import TelnetChat.StringArray

/-!
# Strings built by `appendStr`

`appendAll` builds a string from `getString` by one `appendStr` for each
argument.  Its text is the concatenation of the arguments, and `length`,
`strLen` and `capacity` agree on where it ends (`appendStr_concatenates`).

One more call grows the string at most once.  It writes from the old NUL to the
new one, and no other cell (`Appended`).  Growth moves the text with its NUL
(`Moved`).
-/

namespace TelnetChat

open CRuntime

/-- `getString`, and an `appendStr` for each argument. -/
def appendAll (appends : List (Block Byte)) : Exec Str := do
  let string ← getString
  appends.foldlM appendStr string

/-- Growth of `s` by `incr` gave `t`, with the whole old content. -/
structure Moved (s : Str) (incr : Nat) (t : Str) : Prop where
  length_eq : t.length = s.length
  capacity_eq : t.capacity = s.capacity + if incr = 0 then INCREMENT_CAPACITY else incr
  allocated : t.capacity = t.string.length
  /-- The bytes and the NUL. -/
  content : t.string.take s.length = s.string.take s.length

/-- A call that appends `n` bytes, the NUL included, to `s`.  It writes to `t`,
which is `s` or what one growth made of it, and leaves `s'`. -/
structure Appended (s : Str) (append : Block Byte) (n : Nat) (t s' : Str) : Prop where
  /-- At most one growth, made when the argument does not fit. -/
  grown : s.length + n ≤ s.capacity ∧ t = s ∨
    s.capacity < s.length + n ∧ incrCapacity s n = .ok t ∧ Moved s n t
  returns : appendStr s append = .ok s'
  length_eq : s'.length = s.length + n - 1
  capacity_eq : s'.capacity = t.capacity
  /-- The last cell written is below the capacity. -/
  inBounds : s'.length ≤ t.capacity ∧ t.capacity = t.string.length
  /-- No cell before the old NUL or after the new one is written. -/
  frame : ∀ i, i < s.length - 1 ∨ s'.length ≤ i → s'.string[i]? = t.string[i]?

section Append

variable {s s' t : Str} {a : Block Byte} {v w : List Byte}

theorem CStr.take_eq (h : CStr a v) : a.take (v.length + 1) = v.map some ++ [some 0] := by
  obtain ⟨rest, hrest⟩ := h.starts
  rw [← hrest]
  exact List.take_left' (by simp)

/-- What the code reads off a string with a text. -/
theorem Str.Holds.layout (h : s.Holds w) :
    (∀ i < s.length - 1, ∃ x, s.string.load i = .ok x ∧ x ≠ 0) ∧
    s.string.load (s.length - 1) = .ok 0 ∧ strLen s.string = .ok s.length ∧
    s.string.loadMany (s.length - 1) 0 = .ok w := by
  obtain ⟨rest, hrest⟩ := h.text.exists_rest
  have hlen : s.length - 1 = w.length := by
    rw [h.length_eq, Nat.add_sub_cancel]
  refine ⟨fun i hi => ?_, h.wellFormed.1, ?_, ?_⟩
  · rw [hlen] at hi
    refine ⟨w[i], ?_, fun h0 => h.text.nul_free (h0 ▸ List.getElem_mem hi)⟩
    rw [hrest, Block.load_map_some _ _ hi]
  · rw [strLen_eq h.text, h.length_eq]
  · have hload := Block.loadMany_eq (some 0 :: rest) [] w
    rwa [List.nil_append, ← hrest, List.length_nil, ← hlen] at hload

theorem incrCapacity_moved (h : s.Holds w) (incr : Nat) :
    Returns (incrCapacity s incr) fun t => t.Holds w ∧ Moved s incr t := by
  refine (incrCapacity_returns h incr).mono fun t ht => ⟨ht.1, ?_, ht.2, ht.1.capacity_eq, ?_⟩
  · rw [ht.1.length_eq, h.length_eq]
  · rw [h.length_eq, CStr.take_eq ht.1.text, CStr.take_eq h.text]

/-- The cells the `else` branch of `appendStr` writes. -/
theorem appendBytes_frame {n : Nat} (h : appendBytes t a (n + 1) = .ok s') (ht : 1 ≤ t.length) :
    s'.length = t.length + n ∧ s'.capacity = t.capacity ∧ s'.length ≤ t.string.length ∧
      ∀ i, i < t.length - 1 ∨ s'.length ≤ i → s'.string[i]? = t.string[i]? := by
  obtain ⟨buf, hcopy, hrest⟩ := bind_eq_ok.mp h
  obtain ⟨nul, _, hrest⟩ := bind_eq_ok.mp hrest
  obtain ⟨buf', hstore, hpure⟩ := bind_eq_ok.mp hrest
  cases hpure
  obtain ⟨hlen, _, hcopied⟩ := Block.copyInto_frame hcopy
  obtain ⟨hlt, _⟩ := Block.store_inBounds hstore
  rw [hlen] at hlt
  refine ⟨rfl, rfl, ?_, fun i hi => ?_⟩
  · show t.length + (n + 1) - 1 ≤ t.string.length
    omega
  · replace hi : i < t.length - 1 ∨ t.length + (n + 1) - 1 ≤ i := hi
    rw [Block.store_frame hstore (by omega)]
    exact hcopied i (by omega)

theorem appendStr_appended (hs : s.Holds w) (ha : CStr a v) :
    ∃ t s', Appended s a (v.length + 1) t s' := by
  have hpos : 1 ≤ s.length := by
    rw [hs.length_eq]
    exact Nat.succ_pos _
  obtain ⟨s', happend, _⟩ := appendStr_returns hs ha
  have hcall := happend
  rw [appendStr_eq hs ha] at hcall
  split at hcall
  · rename_i hfull
    obtain ⟨t, hgrow, hcall⟩ := bind_eq_ok.mp hcall
    obtain ⟨_, hmoved⟩ := (incrCapacity_moved hs (v.length + 1)).result hgrow
    have hlen := hmoved.length_eq
    obtain ⟨hlen', hcap', hin, hframe⟩ := appendBytes_frame hcall (by omega)
    rw [hlen] at hlen' hframe
    rw [← hmoved.allocated] at hin
    exact ⟨t, s', Or.inr ⟨hfull, hgrow, hmoved⟩, happend, hlen', hcap',
      ⟨hin, hmoved.allocated⟩, hframe⟩
  · rename_i hfits
    obtain ⟨hlen', hcap', hin, hframe⟩ := appendBytes_frame hcall hpos
    rw [← hs.capacity_eq] at hin
    exact ⟨s, s', Or.inl ⟨Nat.le_of_not_lt hfits, rfl⟩, happend, hlen', hcap',
      ⟨hin, hs.capacity_eq⟩, hframe⟩

/-- The text of a string built from `getString` is the concatenation of the
arguments. -/
theorem appendAll_returns {appends : List (Block Byte)} {ws : List (List Byte)}
    (h : List.Forall₂ CStr appends ws) :
    Returns (appendAll appends) fun s => s.Holds ws.flatten := by
  apply getString_returns.bind
  intro s hs
  have hstep : ∀ s ws a v, CStr a v → Str.Holds s ws.flatten →
      Returns (appendStr s a) fun s' => s'.Holds (ws ++ [v]).flatten := by
    intro s ws a v ha hs
    simpa using appendStr_returns hs ha
  have hstart : s.Holds ([] : List (List Byte)).flatten := hs
  exact foldlM_returns (I := fun ws s => Str.Holds s ws.flatten) h hstep hstart

/-- A string built from `getString` by any calls of `appendStr` ends where its
`length` and `strLen` say, within its capacity, and its text is the
concatenation of the arguments.  One more call grows it at most once and writes
in bounds, and growth moves all of it. -/
theorem appendStr_concatenates {appends : List (Block Byte)} {ws : List (List Byte)}
    (h : List.Forall₂ CStr appends ws) :
    Returns (appendAll appends) fun s =>
      1 ≤ s.length ∧ s.length ≤ s.capacity ∧ s.capacity = s.string.length ∧
      (∀ i < s.length - 1, ∃ x, s.string.load i = .ok x ∧ x ≠ 0) ∧
      s.string.load (s.length - 1) = .ok 0 ∧ strLen s.string = .ok s.length ∧
      s.string.loadMany (s.length - 1) 0 = .ok ws.flatten ∧
      (∀ a v, CStr a v → ∃ t s', Appended s a (v.length + 1) t s') ∧
      ∀ incr, Returns (incrCapacity s incr) (Moved s incr) := by
  apply (appendAll_returns h).mono
  intro s hs
  obtain ⟨hbytes, hnul, hlen, htext⟩ := hs.layout
  refine ⟨?_, hs.length_le, hs.capacity_eq, hbytes, hnul, hlen, htext,
    fun a v ha => appendStr_appended hs ha,
    fun incr => (incrCapacity_moved hs incr).mono fun _ ht => ht.2⟩
  rw [hs.length_eq]
  exact Nat.succ_pos _

theorem appendStr_concatenates_two :
    Returns (appendAll [cstr (bytes "Ritesh"), cstr (bytes " is the Name")]) fun s =>
      1 ≤ s.length ∧ s.length ≤ s.capacity ∧ s.capacity = s.string.length ∧
      (∀ i < s.length - 1, ∃ x, s.string.load i = .ok x ∧ x ≠ 0) ∧
      s.string.load (s.length - 1) = .ok 0 ∧ strLen s.string = .ok s.length ∧
      s.string.loadMany (s.length - 1) 0 =
        .ok [bytes "Ritesh", bytes " is the Name"].flatten ∧
      (∀ a v, CStr a v → ∃ t s', Appended s a (v.length + 1) t s') ∧
      ∀ incr, Returns (incrCapacity s incr) (Moved s incr) :=
  appendStr_concatenates (.cons (cstr_cstr (by decide)) (.cons (cstr_cstr (by decide)) .nil))

end Append

end TelnetChat
