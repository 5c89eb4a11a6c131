import Mathlib.Algebra.GroupWithZero.Nat
import Mathlib.Data.List.Nodup
import TelnetChat.Pointer.StringArray
import TelnetChat.Split

/-!
# The splitter with pointers

`split` allocates a string for each iteration of its outer loop, and a buffer of two
bytes for each byte it appends, and frees neither.  It returns the strings of the
segments, in buffers that no other string has.

`splitBlocks c w` is the number of buffers that are live after `split` and were not
before, and `split_yields` says that it leaves everything else alone.
-/

namespace TelnetChat.Pointer

open CRuntime TelnetChat

/-! ## The source -/

inductive SplitStep where
  | ret (sarr : SArray)
  | next (bcount : Int) (sarr : SArray)

/-- The inner loop, with the number of iterations it has left. -/
def splitInner (str : Str) (c : Byte) (sarr : SArray) : Nat → Int → Str → Heaped Byte SplitStep
  | 0, bcount, _ => pure (.next bcount sarr)
  | j + 1, bcount, s =>
      if bcount ≥ (str.length : Int) - 1 then pure (.ret sarr)
      else do
        let bcount := bcount + 1
        let x ← Heaped.loadInt (.heap str.string) bcount
        if x = c ∨ bcount ≥ (str.length : Int) - 1 then
          let s ← appendStr s (.literal (cstr [0]))
          let sarr ← addString sarr s
          pure (.next bcount sarr)
        else
          let f ← Heaped.malloc 2
          let x ← Heaped.loadInt (.heap str.string) bcount
          Heaped.store f 0 x
          Heaped.store f 1 0
          let s ← appendStr s (.heap f)
          splitInner str c sarr j bcount s

/-- The outer loop, with the number of iterations it has left. -/
def splitOuter (str : Str) (c : Byte) : Nat → Int → SArray → Heaped Byte SArray
  | 0, _, sarr => pure sarr
  | i + 1, bcount, sarr => do
      let s ← getString
      let _len ← strLen (.heap str.string)
      match ← splitInner str c sarr (str.length - 1) bcount s with
      | .ret sarr => pure sarr
      | .next bcount sarr => splitOuter str c i bcount sarr

def split (str : Str) (c : Byte) : Heaped Byte SArray :=
  splitOuter str c (str.length - 1) (-1) createSArray

/-! ## Strings in buffers of their own -/

/-- The strings have the texts `ws`, in distinct buffers that are not older than `n`. -/
structure Strings (m : Memory Byte) (n : Nat) (xs : List Str) (ws : List (List Byte)) : Prop where
  holds : List.Forall₂ (Str.Holds m) xs ws
  nodup : (xs.map Str.string).Nodup
  fresh : ∀ x ∈ xs, n ≤ x.string

section Strings

variable {m m' : Memory Byte} {n k : Nat} {xs : List Str} {ws : List (List Byte)} {s : Str}
  {v w acc : List Byte} {src : Source Byte} {a : Block Byte} {P : Ptr → Prop}

theorem strings_nil (m : Memory Byte) (n : Nat) : Strings m n [] [] :=
  ⟨.nil, List.nodup_nil, fun _ h => absurd h List.not_mem_nil⟩

theorem Strings.concat (h : Strings m n xs ws) (hs : s.Holds m w) (hn : n ≤ s.string)
    (hne : ∀ x ∈ xs, x.string ≠ s.string) : Strings m n (xs ++ [s]) (ws ++ [w]) where
  holds := List.rel_append h.holds (.cons hs .nil)
  nodup := by
    rw [List.map_append, List.map_singleton, List.nodup_append]
    refine ⟨h.nodup, List.nodup_singleton _, ?_⟩
    rintro p hp q hq
    obtain ⟨x, hx, rfl⟩ := List.mem_map.mp hp
    obtain rfl := List.mem_singleton.mp hq
    exact hne x hx
  fresh x hx := by
    rcases List.mem_append.mp hx with hx | hx
    · exact h.fresh x hx
    · obtain rfl := List.mem_singleton.mp hx
      exact hn

/-- The last string and the others. -/
theorem Strings.last (h : Strings m n (xs ++ [s]) (ws ++ [w])) :
    Strings m n xs ws ∧ s.Holds m w ∧ n ≤ s.string ∧ ∀ x ∈ xs, x.string ≠ s.string := by
  have hlen : xs.length = ws.length := by
    simpa using h.holds.length_eq
  have hfirst := List.forall₂_take_append (xs ++ [s]) ws [w] h.holds
  have hlast := List.forall₂_drop_append (xs ++ [s]) ws [w] h.holds
  rw [← hlen, List.take_left] at hfirst
  rw [← hlen, List.drop_left, List.forall₂_cons] at hlast
  have hnodup := h.nodup
  rw [List.map_append, List.nodup_append] at hnodup
  obtain ⟨hxs, _, hdisjoint⟩ := hnodup
  refine ⟨⟨hfirst, hxs, fun x hx => h.fresh x (List.mem_append_left _ hx)⟩, hlast.1,
    h.fresh s (List.mem_append_right _ (List.mem_singleton_self s)), fun x hx => ?_⟩
  exact hdisjoint _ (List.mem_map_of_mem hx) _ (List.mem_singleton_self _)

theorem Strings.grow (h : Strings m n xs ws) (hm : Memory.Grows P k m m')
    (hP : ∀ x ∈ xs, P x.string) : Strings m' n xs ws where
  holds := ((List.forall₂_and_left _ _).mpr ⟨hP, h.holds⟩).imp fun _ _ hx => hx.2.grow hm hx.1
  nodup := h.nodup
  fresh := h.fresh

/-- The buffers are in the memory. -/
theorem Strings.lt (h : Strings m n xs ws) {x : Str} (hx : x ∈ xs) : x.string < m.length := by
  obtain ⟨i, hi, rfl⟩ := List.getElem_of_mem hx
  exact (h.holds.get hi (h.holds.length_eq ▸ hi)).lt

/-- A new string. -/
theorem Strings.getString (h : Strings m n xs ws) (hn : n ≤ m.length) :
    Heaped.Yields getString m fun s m' =>
      Strings m' n (xs ++ [s]) (ws ++ [[]]) ∧ Memory.Grows (· < n) 1 m m' := by
  apply (getString_yields m).mono
  rintro s m' ⟨hnew, hs, hm⟩
  refine ⟨(h.grow (hm fun _ => True) fun _ _ => trivial).concat hs ?_ fun x hx => ?_, hm _⟩
  · exact Nat.le_trans hn (Nat.le_of_eq hnew.symm)
  · rw [hnew]
    exact Nat.ne_of_lt (h.lt hx)

/-- The last string is appended to. -/
theorem Strings.appendStr (h : Strings m n (xs ++ [s]) (ws ++ [acc])) (hsrc : m.source src = .ok a)
    (ha : CStr a v) (hne : src ≠ .heap s.string) :
    Heaped.Yields (appendStr s src) m fun s' m' =>
      Strings m' n (xs ++ [s']) (ws ++ [acc ++ v]) ∧ Memory.Grows (· < n) 0 m m' := by
  obtain ⟨hxs, hs, hn, hdistinct⟩ := h.last
  apply (appendStr_yields hs hsrc ha hne).mono
  rintro s' m' ⟨hs', hstring, hm⟩
  refine ⟨(hxs.grow hm hdistinct).concat hs' ?_ fun x hx => ?_, hm.mono fun p _ hp => ?_⟩
  · rcases hstring with hsame | hfresh
    · exact Nat.le_trans hn (Nat.le_of_eq hsame.symm)
    · exact Nat.le_trans hn (Nat.le_trans (Nat.le_of_lt hs.lt) hfresh)
  · rcases hstring with hsame | hfresh
    · rw [hsame]
      exact hdistinct x hx
    · exact Nat.ne_of_lt (Nat.lt_of_lt_of_le (hxs.lt hx) hfresh)
  · exact Nat.ne_of_lt (Nat.lt_of_lt_of_le hp hn)

end Strings

/-! ## The inner loop -/

section Inner

variable {m m' : Memory Byte} {n : Nat} {xs : List Str} {ws : List (List Byte)} {str s : Str}
  {c : Byte} {sarr : SArray} {w acc : List Byte}

theorem addString_returns {sarr : SArray} {xs : List Str} (h : sarr.Holds xs) (x : Str) :
    Returns (addString sarr x) fun sarr' =>
      sarr'.Holds (xs ++ [x]) ∧ sarr.capacity ≤ sarr'.capacity :=
  GrowArray.push_returns h (by decide) (GrowArray.grow_returns h (by decide) (Nat.le_refl _)) x

/-- The array stores the strings, and has at least the slots it was created with. -/
def Stores (sarr : SArray) (xs : List Str) : Prop :=
  INIT_CAPACITY ≤ sarr.capacity ∧ sarr.Holds xs

theorem addString_stores (h : Stores sarr xs) (s : Str) :
    Returns (addString sarr s) fun sarr' => Stores sarr' (xs ++ [s]) :=
  (addString_returns h.2 s).mono fun _ hsarr' => ⟨h.1.trans hsarr'.2, hsarr'.1⟩

theorem loadInt_byte {b : Block Byte} {pre rest : List Byte} {x : Byte}
    (h : CStr b (pre ++ x :: rest)) : b.loadInt (pre.length : Int) = .ok x := by
  obtain ⟨tail, rfl⟩ := h.exists_rest
  rw [Block.loadInt_natCast, Block.load_map_some _ _ (by simp)]
  simp

theorem loadInt_nul {b : Block Byte} (h : CStr b w) : b.loadInt (w.length : Int) = .ok 0 := by
  obtain ⟨tail, rfl⟩ := h.exists_rest
  rw [Block.loadInt_natCast, Block.load_append _ _ _ (by simp)]

/-- One iteration over a byte that is no delimiter.  It leaves a buffer of two bytes. -/
theorem splitInner_char (sarr : SArray) {pre rest : List Byte} {x : Byte}
    (hstr : str.Holds m (pre ++ x :: rest)) (hx : x ≠ c)
    (h : Strings m n (xs ++ [s]) (ws ++ [acc])) (j : Nat) :
    ∃ s' m', (splitInner str c sarr (j + 1) (pre.length - 1) s).run m =
        (splitInner str c sarr j ((pre ++ [x]).length - 1) s').run m' ∧
      Strings m' n (xs ++ [s']) (ws ++ [acc ++ [x]]) ∧ Memory.Grows (· < n) 1 m m' := by
  have hlen := hstr.length_eq
  rw [List.length_append, List.length_cons] at hlen
  obtain ⟨b, hb, hw⟩ := hstr.source
  have hx0 : (0 : Byte) ∉ [x] := by
    rw [List.mem_singleton]
    rintro rfl
    exact hw.nul_free (by simp)
  -- the two bytes of `f`
  have hf := Memory.at_concat m (Block.malloc 2 : Block Byte)
  have hf₁ := hf.set [some x, none]
  have hf₂ := hf₁.set (cstr [x])
  have halloc := Memory.grows_concat (fun _ => True) m (Block.malloc 2)
  have hstored := (halloc.set hf (Nat.le_refl _) [some x, none]).set hf₁ (Nat.le_refl _) (cstr [x])
  obtain ⟨_, hs, _, _⟩ := h.last
  have hne : (Source.heap m.length : Source Byte) ≠ .heap s.string := by
    intro heq
    exact Nat.ne_of_gt hs.lt (Source.heap.inj heq)
  obtain ⟨s', m', happend, hs', hm'⟩ := (h.grow hstored fun _ _ => trivial).appendStr hf₂.source
    (cstr_cstr hx0) hne
  refine ⟨s', m', ?_, hs', (hstored.mono fun _ _ _ => trivial).trans hm'⟩
  have hb' := halloc.source hb fun _ _ => trivial
  rw [splitInner, if_neg (by omega)]
  simp only [Int.sub_add_cancel, List.length_append, List.length_singleton, Int.natCast_add,
    Int.natCast_one, Int.add_sub_cancel]
  have hstop : ¬ (x = c ∨ (pre.length : Int) ≥ str.length - 1) := by
    rintro (hc | hend)
    · exact hx hc
    · omega
  have hstore₁ : (Block.malloc 2).store 0 x = .ok [some x, none] := rfl
  have hstore₂ : Block.store [some x, none] 1 0 = .ok (cstr [x]) := rfl
  rw [Heaped.bind_run (Heaped.loadInt_run hb (loadInt_byte hw)), if_neg hstop,
    Heaped.bind_run (Heaped.malloc_run 2 m),
    Heaped.bind_run (Heaped.loadInt_run hb' (loadInt_byte hw)),
    Heaped.bind_run (Heaped.store_run hf hstore₁), Heaped.bind_run (Heaped.store_run hf₁ hstore₂)]
  exact Heaped.bind_run happend

/-- With enough iterations the inner loop stores the piece it is in. -/
theorem splitInner_piece {tail : List Byte} (htail : tail = [] ∨ ∃ t, tail = c :: t)
    (hsarr : Stores sarr xs) (hlt : str.string < n) :
    ∀ (seg pre : List Byte) {acc : List Byte} {s : Str} {j : Nat} {m : Memory Byte},
      str.Holds m (pre ++ seg ++ tail) → c ∉ seg → Strings m n (xs ++ [s]) (ws ++ [acc]) →
      seg.length < j →
      Heaped.Yields (splitInner str c sarr j (pre.length - 1) s) m fun r m' =>
        ∃ sarr' s', r = .next (pre.length + seg.length) sarr' ∧ Stores sarr' (xs ++ [s']) ∧
          Strings m' n (xs ++ [s']) (ws ++ [acc ++ seg]) ∧
          Memory.Grows (· < n) seg.length m m' := by
  intro seg
  induction seg with
  | nil =>
      intro pre acc s j m hstr _ h hj
      cases j with
      | zero => exact absurd hj (Nat.lt_irrefl 0)
      | succ j =>
          have hlen := hstr.length_eq
          rw [List.append_nil, List.length_append] at hlen
          obtain ⟨b, hb, hw⟩ := hstr.source
          rw [List.append_nil] at hw
          have hread : ∃ x, b.loadInt (pre.length : Int) = .ok x ∧
              (x = c ∨ (pre.length : Int) ≥ str.length - 1) := by
            rcases htail with rfl | ⟨t, rfl⟩
            · -- the end: the NUL is read
              rw [List.append_nil] at hw
              refine ⟨0, loadInt_nul hw, .inr ?_⟩
              rw [List.length_nil] at hlen
              omega
            · exact ⟨c, loadInt_byte hw, .inl rfl⟩
          obtain ⟨x, hload, hstop⟩ := hread
          have hempty : CStr (cstr [0]) [] := .of_eq [some 0] (by simp) rfl
          have happ := h.appendStr (Memory.source_literal _ _) hempty (Memory.literal_ne_heap _ _)
          rw [splitInner, if_neg (by omega)]
          simp only [Int.sub_add_cancel]
          refine .bind_eq (Heaped.loadInt_run hb hload) ?_
          rw [if_pos hstop]
          apply happ.bind
          rintro s' m' ⟨hs', hm'⟩
          obtain ⟨sarr', hadd, hsarr'⟩ := addString_stores hsarr s'
          exact .bind_eq (Heaped.lift_run hadd m') (Heaped.yields_pure
            ⟨sarr', s', by simp, hsarr', by simpa using hs', hm'⟩)
  | cons x seg ih =>
      intro pre acc s j m hstr hc h hj
      cases j with
      | zero => exact absurd hj (Nat.not_lt_zero _)
      | succ j =>
          obtain ⟨hx, hseg⟩ : ¬ c = x ∧ c ∉ seg := by simpa using hc
          have hchar : str.Holds m (pre ++ x :: (seg ++ tail)) := by simpa using hstr
          obtain ⟨s', m₁, hstep, hs', hm₁⟩ := splitInner_char sarr hchar (Ne.symm hx) h j
          have hnext := ih (pre ++ [x]) (by simpa using hstr.grow hm₁ hlt) hseg hs'
            (Nat.lt_of_succ_lt_succ hj)
          obtain ⟨r, m', hrun, sarr', s'', rfl, hsarr', hs'', hm'⟩ := hnext
          refine ⟨_, m', hstep.trans hrun, sarr', s'', ?_, hsarr', by simpa using hs'', ?_⟩
          · congr 1
            simp only [List.length_append, List.length_cons, List.length_nil]
            omega
          · rw [List.length_cons, Nat.add_comm]
            exact hm₁.trans hm'

/-- With no iteration left at the end of the text, the text is dropped. -/
theorem splitInner_drop (sarr : SArray) (hlt : str.string < n) {seg : List Byte} :
    ∀ {pre acc : List Byte} {s : Str} {m : Memory Byte}, str.Holds m (pre ++ seg) → c ∉ seg →
      Strings m n (xs ++ [s]) (ws ++ [acc]) →
      Heaped.Yields (splitInner str c sarr seg.length (pre.length - 1) s) m fun r m' =>
        r = .next ((pre ++ seg).length - 1) sarr ∧ Strings m' n xs ws ∧
          Memory.Grows (· < n) seg.length m m' := by
  induction seg with
  | nil =>
      intro pre acc s m _ _ h
      exact Heaped.yields_pure ⟨by simp, h.last.1, .refl _ _⟩
  | cons x seg ih =>
      intro pre acc s m hstr hc h
      obtain ⟨hx, hseg⟩ : ¬ c = x ∧ c ∉ seg := by simpa using hc
      obtain ⟨s', m₁, hstep, hs', hm₁⟩ := splitInner_char sarr hstr (Ne.symm hx) h seg.length
      have hrest : str.Holds m₁ (pre ++ [x] ++ seg) := by simpa using hstr.grow hm₁ hlt
      obtain ⟨r, m', hrun, rfl, hxs, hm'⟩ := ih hrest hseg hs'
      refine ⟨_, m', hstep.trans hrun, by simp, hxs, ?_⟩
      rw [List.length_cons, Nat.add_comm]
      exact hm₁.trans hm'

end Inner

/-! ## The outer loop -/

/-- The buffers that `i` iterations over the pieces `ps` leave: a string each, and one more
that finds the text at its end, and the buffers of the bytes. -/
def pieceBlocks (i : Nat) (ps : List (List Byte)) : Nat :=
  min i (ps.length + 1) + ((ps.take i).map List.length).sum

section Outer

variable {m : Memory Byte} {n : Nat} {xs : List Str} {ws : List (List Byte)} {str : Str}
  {c : Byte} {sarr : SArray} {w : List Byte}

theorem strLen_holds (h : str.Holds m w) :
    (strLen (.heap str.string)).run m = .ok (w.length + 1, m) := by
  obtain ⟨b, hb, hw⟩ := h.source
  exact strLen_run hb (strLen_eq hw)

/-- Past the end an iteration allocates a string, and the outer loop is left. -/
theorem splitOuter_done (hstr : str.Holds m w) (hlt : str.string < n) (hw : w ≠ [])
    (hn : n ≤ m.length) (h : Strings m n xs ws) (sarr : SArray) (i : Nat) :
    Heaped.Yields (splitOuter str c i w.length sarr) m fun sarr' m' =>
      sarr' = sarr ∧ Strings m' n xs ws ∧ Memory.Grows (· < n) (min i 1) m m' := by
  cases i with
  | zero => exact Heaped.yields_pure ⟨rfl, h, .refl _ _⟩
  | succ i =>
      obtain ⟨s, m₁, hget, hs, hm₁⟩ := h.getString hn
      have hlen := hstr.length_eq
      obtain ⟨j, hj⟩ : ∃ j, str.length - 1 = j + 1 := by
        have hpos := List.length_pos_iff.mpr hw
        exact Nat.exists_eq_add_one.mpr (by omega)
      have hret : (splitInner str c sarr (str.length - 1) w.length s).run m₁ =
          .ok (.ret sarr, m₁) := by
        rw [hj, splitInner, if_pos (by omega)]
        rfl
      have hone : min (i + 1) 1 = 1 := Nat.min_eq_right (Nat.le_add_left 1 i)
      rw [splitOuter, hone]
      exact .bind_eq hget (.bind_eq (strLen_holds (hstr.grow hm₁ hlt))
        (.bind_eq hret (Heaped.yields_pure ⟨rfl, hs.last.1, hm₁⟩)))

/-- From the start of a piece the outer loop stores the pieces in order, one an iteration. -/
theorem splitOuter_pieces (hlt : str.string < n) (hw : w ≠ []) (i : Nat) :
    ∀ (pre rest : List Byte) {m : Memory Byte} {sarr : SArray} {xs : List Str}
      {ws : List (List Byte)}, w = pre ++ rest →
      (∀ seg ∈ rest.splitOn c, seg.length < w.length) → str.Holds m w → n ≤ m.length →
      Stores sarr xs → Strings m n xs ws →
      Heaped.Yields (splitOuter str c i (pre.length - 1) sarr) m fun sarr' m' =>
        ∃ ys, Stores sarr' ys ∧ Strings m' n ys (ws ++ (rest.splitOn c).take i) ∧
          Memory.Grows (· < n) (pieceBlocks i (rest.splitOn c)) m m' := by
  induction i with
  | zero =>
      intro pre rest m sarr xs ws _ _ _ _ hsarr h
      refine Heaped.yields_pure ⟨xs, hsarr, by simpa using h, ?_⟩
      simpa [pieceBlocks] using Memory.Grows.refl (· < n) m
  | succ i ih =>
      intro pre rest m sarr xs ws hpre hseg hstr hn hsarr h
      obtain ⟨s, m₁, hget, hs, hm₁⟩ := h.getString hn
      have hstr₁ := hstr.grow hm₁ hlt
      have hlen := hstr.length_eq
      have hj : str.length - 1 = w.length := by omega
      rw [splitOuter]
      refine .bind_eq hget (.bind_eq (strLen_holds hstr₁) ?_)
      rw [hj]
      rcases Text.first_piece c rest with hc | ⟨seg, t, rfl, hc⟩
      · rw [List.splitOn_eq_singleton hc] at hseg ⊢
        obtain ⟨r, m₂, hinner, sarr', s', rfl, hsarr', hs', hm₂⟩ :=
          splitInner_piece (.inl rfl) hsarr hlt rest pre (by simpa [← hpre] using hstr₁) hc hs
            (hseg rest (by simp))
        have hend : (pre.length : Int) + rest.length = w.length := by
          rw [hpre, List.length_append]
          omega
        refine .bind_eq hinner ?_
        simp only [hend]
        obtain ⟨_, m', hdone, rfl, hs'', hm'⟩ :=
          splitOuter_done (c := c) (hstr₁.grow hm₂ hlt) hlt hw
          (Nat.le_trans hn (Nat.le_trans hm₁.length_le hm₂.length_le)) hs' sarr' i
        refine ⟨_, m', hdone, _, hsarr', by simpa using hs'', ?_⟩
        have hm := (hm₁.trans hm₂).trans hm'
        have hcount : 1 + rest.length + min i 1 = pieceBlocks (i + 1) [rest] := by
          simp only [pieceBlocks, List.length_singleton, List.take_succ_cons, List.take_nil,
            List.map_cons, List.map_nil, List.sum_cons, List.sum_nil]
          omega
        rwa [hcount] at hm
      · rw [List.splitOn_append_cons_self_of_not_mem hc] at hseg ⊢
        obtain ⟨r, m₂, hinner, sarr', s', rfl, hsarr', hs', hm₂⟩ :=
          splitInner_piece (.inr ⟨t, rfl⟩) hsarr hlt seg pre (by simpa [← hpre] using hstr₁) hc hs
            (hseg seg (by simp))
        have hnext := ih (pre ++ seg ++ [c]) t (by simpa using hpre)
          (fun seg' hseg' => hseg seg' (by simp [hseg'])) (hstr₁.grow hm₂ hlt)
          (Nat.le_trans hn (Nat.le_trans hm₁.length_le hm₂.length_le)) hsarr' hs'
        have hcount : ((pre ++ seg ++ [c]).length : Int) - 1 = pre.length + seg.length := by
          simp only [List.length_append, List.length_singleton]
          omega
        rw [hcount] at hnext
        obtain ⟨sarr'', m', hrest, ys, hys, hs'', hm'⟩ := hnext
        refine .bind_eq hinner ⟨sarr'', m', hrest, ys, hys, by simpa using hs'', ?_⟩
        have hm := (hm₁.trans hm₂).trans hm'
        have hblocks : 1 + seg.length + pieceBlocks i (t.splitOn c) =
            pieceBlocks (i + 1) (seg :: t.splitOn c) := by
          simp only [pieceBlocks, List.length_cons, List.take_succ_cons, List.map_cons,
            List.sum_cons]
          omega
        rwa [hblocks] at hm

/-- The buffers that `split` leaves for the text `w`. -/
def splitBlocks (c : Byte) (w : List Byte) : Nat :=
  w.length - w.count c + if c ∈ w then min w.length (w.count c + 2) else min w.length 3

/-- The pieces have the bytes of the text that are no delimiters. -/
theorem sum_length_splitOn (c : Byte) (w : List Byte) :
    ((w.splitOn c).map List.length).sum + w.count c = w.length := by
  induction w using Text.piece_induction (c := c) with
  | hlast w hw =>
      rw [List.splitOn_eq_singleton hw, List.count_eq_zero.mpr hw]
      simp
  | hpiece a t ha ih =>
      rw [List.splitOn_append_cons_self_of_not_mem ha]
      simp only [List.map_cons, List.sum_cons, List.count_append, List.count_eq_zero.mpr ha,
        List.count_cons_self, List.length_append, List.length_cons]
      omega

theorem pieceBlocks_eq (hc : c ∈ w) : pieceBlocks w.length (w.splitOn c) = splitBlocks c w := by
  have hlen := (Text.isSplit_splitOn c w).length_eq
  have hsum := sum_length_splitOn c w
  have hparts := congrArg List.sum
    (List.take_append_drop w.length ((w.splitOn c).map List.length))
  rw [List.sum_append, ← List.map_take] at hparts
  have htake : (((w.splitOn c).take w.length).map List.length).sum = w.length - w.count c := by
    by_cases hall : w.count c = w.length
    · omega
    · have hle := List.count_le_length (a := c) (l := w)
      rw [List.take_of_length_le (by omega)]
      omega
  rw [pieceBlocks, splitBlocks, if_pos hc, htake, hlen]
  omega

/-- `split` returns strings with the texts of the segments, in buffers of their own, and
leaves `splitBlocks` buffers. -/
theorem split_yields (hstr : str.Holds m w) (c : Byte) :
    Heaped.Yields (split str c) m fun sarr m' =>
      ∃ xs, Stores sarr xs ∧ Strings m' m.length xs (segments c w) ∧
        Memory.Grows (· < m.length) (splitBlocks c w) m m' := by
  have hlen := hstr.length_eq
  have hi : str.length - 1 = w.length := by omega
  have hempty : Stores createSArray [] :=
    ⟨Nat.le_refl _, GrowArray.create_holds (Nat.succ_pos _)⟩
  rw [split, hi, segments]
  by_cases hc : c ∈ w
  · have hw : w ≠ [] := List.ne_nil_of_mem hc
    have hpieces := splitOuter_pieces (c := c) hstr.lt hw w.length [] w rfl
      (fun seg hseg => Text.length_lt_of_mem_splitOn hc hseg) hstr (Nat.le_refl _) hempty
      (strings_nil m m.length)
    rw [if_pos hc]
    rw [pieceBlocks_eq hc] at hpieces
    simpa using hpieces
  · rw [if_neg hc]
    cases hn : w.length with
    | zero =>
        obtain rfl : w = [] := List.length_eq_zero_iff.mp hn
        refine Heaped.yields_pure ⟨[], hempty, by simpa using strings_nil m m.length, ?_⟩
        simpa [splitBlocks] using Memory.Grows.refl (· < m.length) m
    | succ k =>
        -- the first iteration drops the text, the second starts at its end
        have hw : w ≠ [] := List.ne_nil_of_length_eq_add_one hn
        obtain ⟨s, m₁, hget, hs, hm₁⟩ := (strings_nil m m.length).getString (Nat.le_refl _)
        have hstr₁ := hstr.grow hm₁ hstr.lt
        have hstart : str.Holds m₁ ([] ++ w) := hstr₁
        obtain ⟨r, m₂, hdrop, rfl, hxs, hm₂⟩ :=
          splitInner_drop createSArray hstr.lt hstart hc hs
        have hrest := splitOuter_pieces hstr.lt (c := c) hw k w [] (List.append_nil w).symm
          (by simp [hn]) (hstr₁.grow hm₂ hstr.lt)
          (Nat.le_trans hm₁.length_le hm₂.length_le) hempty hxs
        obtain ⟨sarr, m', hrest, ys, hys, htexts, hm'⟩ := hrest
        rw [List.length_nil, List.nil_append, Int.natCast_zero, Int.zero_sub] at hdrop
        rw [splitOuter]
        refine .bind_eq hget (.bind_eq (strLen_holds hstr₁) ?_)
        rw [hi]
        refine .bind_eq hdrop ⟨sarr, m', hrest, ys, hys, by simpa using htexts, ?_⟩
        have hm := (hm₁.trans hm₂).trans hm'
        have hblocks : 1 + w.length + pieceBlocks k ([].splitOn c) = splitBlocks c w := by
          have hsum : ((([[]] : List (List Byte)).take k).map List.length).sum = 0 := by
            cases k <;> simp
          rw [List.splitOn_nil, pieceBlocks, splitBlocks, if_neg hc, List.count_eq_zero.mpr hc, hn,
            hsum, List.length_singleton]
          omega
        rwa [hblocks] at hm

end Outer

end TelnetChat.Pointer
