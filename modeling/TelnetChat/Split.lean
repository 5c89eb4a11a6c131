import Mathlib.Data.List.Count
import Mathlib.Data.List.Forall2
import Mathlib.Data.List.TakeDrop
import TelnetChat.StringArray
import TelnetChat.Text.Pieces

/-!
# The splitter of `string_array.c`

`split` reads the string through one counter `bcount`, which both loops share
and which starts at `-1`.  A segment is stored when the delimiter or the end
is read.  Each loop runs at most `length - 1` times, whatever is left to read.

`segments c w` says what this returns for the text `w`.  With at least one
delimiter in `w` it is the maximal `c`-free pieces of `w`, cut to the length of
`w`.  The cut only removes the last of the pieces of a text of delimiters.
With no delimiter the inner loop ends before it reads the end, so the whole
text is dropped.  If it has more than one byte the next outer iteration stores
an empty segment.

So the pieces are all returned exactly when the text has a delimiter and another
byte (`split_reference_iff`).
-/

namespace TelnetChat

open CRuntime

/-! ## The source -/

/-- How the inner loop of `split` is left: by `return`, or by `break` or its
bound with the counter and the segments so far. -/
inductive SplitStep where
  | ret (sarr : SArray)
  | next (bcount : Int) (sarr : SArray)

/-- The inner loop, with the number of iterations it has left. -/
def splitInner (str : Str) (c : Byte) (sarr : SArray) : Nat → Int → Str → Exec SplitStep
  | 0, bcount, _ => pure (.next bcount sarr)
  | j + 1, bcount, s =>
      if bcount ≥ (str.length : Int) - 1 then pure (.ret sarr)
      else do
        let bcount := bcount + 1
        let x ← str.string.loadInt bcount
        if x = c ∨ bcount ≥ (str.length : Int) - 1 then
          let s ← appendStr s (cstr [0])
          let sarr ← addString sarr s
          pure (.next bcount sarr)
        else
          let s ← appendStr s (cstr [x])
          splitInner str c sarr j bcount s

/-- The outer loop, with the number of iterations it has left. -/
def splitOuter (str : Str) (c : Byte) : Nat → Int → SArray → Exec SArray
  | 0, _, sarr => pure sarr
  | i + 1, bcount, sarr => do
      let s ← getString
      let _len ← strLen str.string
      match ← splitInner str c sarr (str.length - 1) bcount s with
      | .ret sarr => pure sarr
      | .next bcount sarr => splitOuter str c i bcount sarr

def split (str : Str) (c : Byte) : Exec SArray :=
  splitOuter str c (str.length - 1) (-1) createSArray

/-! ## What it returns -/

/-- The texts of the segments `split` stores for the text `w`. -/
def segments (c : Byte) (w : List Byte) : List (List Byte) :=
  if c ∈ w then (w.splitOn c).take w.length else [[]].take (w.length - 1)

/-- The array stores strings with the texts `ws`, and has at least the slots
it was created with. -/
def Texts (sarr : SArray) (ws : List (List Byte)) : Prop :=
  INIT_CAPACITY ≤ sarr.capacity ∧ ∃ xs, sarr.Holds xs ∧ List.Forall₂ Str.Holds xs ws

theorem texts_nil : Texts createSArray [] :=
  ⟨Nat.le_refl INIT_CAPACITY, [], createSArray_holds, .nil⟩

section Split

variable {str s : Str} {c : Byte} {sarr : SArray} {w acc : List Byte} {ws : List (List Byte)}

theorem addString_texts (h : Texts sarr ws) (hs : s.Holds w) :
    Returns (addString sarr s) fun sarr' => Texts sarr' (ws ++ [w]) := by
  obtain ⟨hcap, xs, hxs, htexts⟩ := h
  refine (addString_returns hxs s).mono fun sarr' hsarr' =>
    ⟨hcap.trans hsarr'.2, xs ++ [s], hsarr'.1, ?_⟩
  exact List.rel_append htexts (.cons hs .nil)

/-- Appending the literal `"\0"` changes no text. -/
theorem appendStr_empty (hs : s.Holds acc) :
    Returns (appendStr s (cstr [0])) fun s' => s'.Holds acc := by
  have hempty : CStr (cstr [0]) [] := .of_eq [some 0] (by simp) rfl
  simpa using appendStr_returns hs hempty

/-! ### The inner loop -/

/-- One iteration over a byte that is no delimiter. -/
theorem splitInner_char (sarr : SArray) {pre rest : List Byte} {x : Byte}
    (h : str.Holds (pre ++ x :: rest)) (hx : x ≠ c) (hs : s.Holds acc) (j : Nat) :
    ∃ s', s'.Holds (acc ++ [x]) ∧
      splitInner str c sarr (j + 1) (pre.length - 1) s =
        splitInner str c sarr j ((pre ++ [x]).length - 1) s' := by
  have hlen := h.length_eq
  rw [List.length_append, List.length_cons] at hlen
  have hx0 : (0 : Byte) ≠ x := by
    intro h0
    exact h.text.nul_free (by simp [h0])
  have hload : str.string.loadInt (pre.length : Int) = .ok x := by
    obtain ⟨tail, htail⟩ := h.text.exists_rest
    rw [Block.loadInt_natCast, htail, Block.load_map_some _ _ (by simp)]
    simp
  obtain ⟨s', happ, hs'⟩ := appendStr_returns hs (cstr_cstr (by simpa using hx0 : 0 ∉ [x]))
  refine ⟨s', hs', ?_⟩
  rw [splitInner, if_neg (by omega)]
  simp only [Int.sub_add_cancel, hload, ok_bind, happ, List.length_append, List.length_singleton,
    Int.natCast_add, Int.natCast_one, Int.add_sub_cancel]
  rw [if_neg (by rintro (hc | hend) <;> first | exact hx hc | omega)]

/-- With enough iterations the inner loop stores the piece it is in. -/
theorem splitInner_piece {tail : List Byte} (htail : tail = [] ∨ ∃ t, tail = c :: t)
    (hsarr : Texts sarr ws) :
    ∀ (seg pre : List Byte) {acc : List Byte} {s : Str} {j : Nat},
      str.Holds (pre ++ seg ++ tail) → c ∉ seg → s.Holds acc → seg.length < j →
      Returns (splitInner str c sarr j (pre.length - 1) s) fun r =>
        ∃ sarr', r = .next (pre.length + seg.length) sarr' ∧ Texts sarr' (ws ++ [acc ++ seg]) := by
  intro seg
  induction seg with
  | nil =>
      intro pre acc s j h _ hs hj
      cases j with
      | zero => exact absurd hj (Nat.lt_irrefl 0)
      | succ j =>
          have hlen := h.length_eq
          rw [List.append_nil, List.length_append] at hlen
          have hread : ∃ x, str.string.loadInt (pre.length : Int) = .ok x ∧
              (x = c ∨ (pre.length : Int) ≥ str.length - 1) := by
            obtain ⟨rest, hrest⟩ := h.text.exists_rest
            rw [Block.loadInt_natCast, hrest]
            rcases htail with rfl | ⟨t, rfl⟩
            · -- the end: the NUL is read
              refine ⟨0, Block.load_append _ _ _ (by simp), Or.inr ?_⟩
              rw [List.length_nil] at hlen
              omega
            · refine ⟨c, ?_, Or.inl rfl⟩
              rw [Block.load_map_some _ _ (by simp)]
              simp
          obtain ⟨x, hload, hstop⟩ := hread
          obtain ⟨s', happ, hs'⟩ := appendStr_empty hs
          obtain ⟨sarr', hadd, hsarr'⟩ := addString_texts hsarr hs'
          rw [splitInner, if_neg (by omega)]
          simp only [Int.sub_add_cancel, hload, ok_bind, if_pos hstop, happ, hadd, pure_eq_ok,
            returns_ok]
          exact ⟨sarr', by simp, by simpa using hsarr'⟩
  | cons x seg ih =>
      intro pre acc s j h hc hs hj
      cases j with
      | zero => exact absurd hj (Nat.not_lt_zero _)
      | succ j =>
          obtain ⟨hx, hseg⟩ : ¬ c = x ∧ c ∉ seg := by simpa using hc
          have hchar : str.Holds (pre ++ x :: (seg ++ tail)) := by simpa using h
          obtain ⟨s', hs', hstep⟩ := splitInner_char sarr hchar (Ne.symm hx) hs j
          rw [hstep]
          have hnext := ih (pre ++ [x]) (by simpa using h) hseg hs' (Nat.lt_of_succ_lt_succ hj)
          apply hnext.mono
          intro r hr
          obtain ⟨sarr', rfl, ht⟩ := hr
          refine ⟨sarr', ?_, by simpa using ht⟩
          congr 1
          simp only [List.length_append, List.length_cons, List.length_nil]
          omega

/-- With no iteration left at the end of the text, the text is dropped. -/
theorem splitInner_drop (sarr : SArray) {seg pre : List Byte} (h : str.Holds (pre ++ seg))
    (hc : c ∉ seg) (hs : s.Holds acc) :
    splitInner str c sarr seg.length (pre.length - 1) s =
      .ok (.next ((pre ++ seg).length - 1) sarr) := by
  induction seg generalizing pre acc s with
  | nil => simp [splitInner]
  | cons x seg ih =>
      obtain ⟨hx, hseg⟩ : ¬ c = x ∧ c ∉ seg := by simpa using hc
      obtain ⟨s', hs', hstep⟩ := splitInner_char sarr h (Ne.symm hx) hs seg.length
      have hrest : str.Holds (pre ++ [x] ++ seg) := by simpa using h
      rw [List.length_cons, hstep, ih hrest hseg hs']
      simp

/-! ### The outer loop -/

/-- Past the end the outer loop stores nothing more. -/
theorem splitOuter_done (h : str.Holds w) (i : Nat) :
    splitOuter str c i w.length sarr = .ok sarr := by
  induction i with
  | zero => rfl
  | succ i ih =>
      obtain ⟨s, hget, hs⟩ := getString_returns
      have hlen := h.length_eq
      rw [splitOuter, hget, ok_bind, strLen_eq h.text, ok_bind]
      cases hj : str.length - 1 with
      | zero => simpa [splitInner] using ih
      | succ j =>
          rw [splitInner, if_pos (by omega)]
          rfl

/-- From the start of a piece the outer loop stores the pieces in order, one an
iteration, if the inner loop can run past each of them. -/
theorem splitOuter_pieces (h : str.Holds w) (i : Nat) (pre rest : List Byte)
    (hw : w = pre ++ rest) (hlt : ∀ seg ∈ rest.splitOn c, seg.length < w.length)
    (hsarr : Texts sarr ws) :
    Returns (splitOuter str c i (pre.length - 1) sarr) fun sarr' =>
      Texts sarr' (ws ++ (rest.splitOn c).take i) := by
  induction i generalizing pre rest ws sarr with
  | zero => simpa [splitOuter] using hsarr
  | succ i ih =>
      obtain ⟨s, hget, hs⟩ := getString_returns
      have hlen := h.length_eq
      have hj : str.length - 1 = w.length := by omega
      rw [splitOuter, hget, ok_bind, strLen_eq h.text, ok_bind, hj]
      rcases Text.first_piece c rest with hc | ⟨seg, t, rfl, hc⟩
      · rw [List.splitOn_eq_singleton hc] at hlt ⊢
        obtain ⟨r, hinner, sarr', rfl, hsarr'⟩ := splitInner_piece (Or.inl rfl) hsarr
          rest pre (by simpa [← hw] using h) hc hs (hlt rest (by simp))
        have hend : (pre.length : Int) + rest.length = w.length := by
          rw [hw, List.length_append]
          omega
        rw [hinner, ok_bind]
        simp only [hend, splitOuter_done h i, returns_ok]
        simpa using hsarr'
      · rw [List.splitOn_append_cons_self_of_not_mem hc] at hlt ⊢
        obtain ⟨r, hinner, sarr', rfl, hsarr'⟩ := splitInner_piece (Or.inr ⟨t, rfl⟩) hsarr
          seg pre (by simpa [← hw] using h) hc hs (hlt seg (by simp))
        have hnext := ih (pre ++ seg ++ [c]) t (by simpa using hw)
          (fun seg' hseg' => hlt seg' (by simp [hseg'])) hsarr'
        have hcount : ((pre ++ seg ++ [c]).length : Int) - 1 = pre.length + seg.length := by
          simp only [List.length_append, List.length_singleton]
          omega
        rw [hcount] at hnext
        rw [hinner, ok_bind]
        simpa using hnext

/-- `split` on a well-formed string, for every text and delimiter. -/
theorem split_returns (h : str.Holds w) (c : Byte) :
    Returns (split str c) fun sarr => Texts sarr (segments c w) := by
  have hlen := h.length_eq
  have hi : str.length - 1 = w.length := by omega
  rw [split, hi, segments]
  by_cases hc : c ∈ w
  · rw [if_pos hc]
    simpa using splitOuter_pieces h w.length [] w rfl
      (fun seg hseg => Text.length_lt_of_mem_splitOn hc hseg) texts_nil
  · rw [if_neg hc]
    cases hn : w.length with
    | zero => simpa [splitOuter] using texts_nil
    | succ n =>
        -- the first iteration drops the text, the second starts at its end
        obtain ⟨s, hget, hs⟩ := getString_returns
        have hstart : str.Holds ([] ++ w) := h
        have hdrop := splitInner_drop createSArray hstart hc hs
        have hrest := splitOuter_pieces h (c := c) n w [] (List.append_nil w).symm
          (by simp [hn]) texts_nil
        rw [List.length_nil, List.nil_append, Int.natCast_zero, Int.zero_sub] at hdrop
        rw [splitOuter, hget, ok_bind, strLen_eq h.text, ok_bind, hi, hdrop, ok_bind]
        simpa using hrest

-- at `':'`, with and without a separator in the text
example : segments 58 (bytes "msg:a:b") = [bytes "msg", bytes "a", bytes "b"] := by decide

example : segments 58 (bytes "hi") = [[]] := by decide

/-! ## Against the pieces of the text -/

/-- An array of strings holds one list of texts. -/
theorem Texts.unique {ws' : List (List Byte)} (h : Texts sarr ws) (h' : Texts sarr ws') :
    ws = ws' := by
  obtain ⟨_, xs, hxs, htexts⟩ := h
  obtain ⟨_, xs', hxs', htexts'⟩ := h'
  obtain rfl := hxs.unique hxs'
  exact List.right_unique_forall₂' (fun _ _ _ hs hs' => hs.unique hs') htexts htexts'

/-- The bounds of the loops lose no piece exactly when the text has a delimiter
and another byte. -/
theorem segments_eq_splitOn_iff : segments c w = w.splitOn c ↔ c ∈ w ∧ ∃ x ∈ w, x ≠ c := by
  by_cases hc : c ∈ w
  · have hlen := (Text.isSplit_splitOn c w).length_eq
    rw [segments, if_pos hc, List.take_eq_self_iff, hlen, Nat.succ_le_iff,
      List.count_lt_length_iff]
    exact (and_iff_right hc).symm
  · -- the piece that is dropped is the whole text
    rw [segments, if_neg hc, List.splitOn_eq_singleton hc]
    refine iff_of_false ?_ fun h => hc h.1
    cases w with
    | nil => simp
    | cons x w =>
        intro hsegments
        have hmem : x :: w ∈ [[]].take ((x :: w).length - 1) := by
          rw [hsegments]
          exact List.mem_singleton_self _
        exact absurd (List.mem_singleton.mp (List.mem_of_mem_take hmem)) (List.cons_ne_nil x w)

/-- `split` returns the pieces of a text exactly when it has a delimiter and
another byte. -/
theorem split_reference_iff (h : str.Holds w) (c : Byte) :
    (Returns (split str c) fun sarr => ∃ ws, Texts sarr ws ∧ Text.IsSplit c w ws) ↔
      c ∈ w ∧ ∃ x ∈ w, x ≠ c := by
  obtain ⟨sarr, hsplit, htexts⟩ := split_returns h c
  rw [hsplit, returns_ok, ← segments_eq_splitOn_iff]
  constructor
  · rintro ⟨ws, hws, hpieces⟩
    rw [htexts.unique hws]
    exact Text.isSplit_iff.mp hpieces
  · intro heq
    exact ⟨segments c w, htexts, Text.isSplit_iff.mpr heq⟩

/-- The text of the test in `string_array.c`. -/
theorem split_reference_iff_names :
    ∃ s, getStringFrom (cstr (bytes "Ritesh:Sadhu:Harinakshi:Salian")) = .ok s ∧
      ((Returns (split s 58) fun sarr => ∃ ws, Texts sarr ws ∧
          Text.IsSplit 58 (bytes "Ritesh:Sadhu:Harinakshi:Salian") ws) ↔
        58 ∈ bytes "Ritesh:Sadhu:Harinakshi:Salian" ∧
          ∃ x ∈ bytes "Ritesh:Sadhu:Harinakshi:Salian", x ≠ 58) := by
  obtain ⟨s, hget, hs⟩ := getStringFrom_returns
    (cstr_cstr (by decide) : CStr _ (bytes "Ritesh:Sadhu:Harinakshi:Salian"))
  exact ⟨s, hget, split_reference_iff hs 58⟩

/-- Without a delimiter the text is lost, and one empty segment is returned.  A
text of delimiters lacks its last piece. -/
theorem split_loses_pieces :
    (∃ s, getStringFrom (cstr (bytes "abc")) = .ok s ∧
      Returns (split s 58) (fun sarr => Texts sarr [[]]) ∧
      ¬ Returns (split s 58) fun sarr => ∃ ws, Texts sarr ws ∧ Text.IsSplit 58 (bytes "abc") ws) ∧
    ∃ s, getStringFrom (cstr (bytes "::")) = .ok s ∧
      Returns (split s 58) (fun sarr => Texts sarr [[], []]) ∧
      ¬ Returns (split s 58) fun sarr => ∃ ws, Texts sarr ws ∧ Text.IsSplit 58 (bytes "::") ws := by
  have loses : ∀ (w : List Byte) (ws : List (List Byte)), 0 ∉ w → segments 58 w = ws →
      ws ≠ w.splitOn 58 → ∃ s, getStringFrom (cstr w) = .ok s ∧
        Returns (split s 58) (fun sarr => Texts sarr ws) ∧
        ¬ Returns (split s 58) fun sarr => ∃ ws, Texts sarr ws ∧ Text.IsSplit 58 w ws := by
    rintro w _ h0 rfl hne
    obtain ⟨s, hget, hs⟩ := getStringFrom_returns (cstr_cstr h0)
    obtain ⟨sarr, hsplit, htexts⟩ := split_returns hs 58
    refine ⟨s, hget, ⟨sarr, hsplit, htexts⟩, fun hreturns => ?_⟩
    obtain ⟨ws, hws, hpieces⟩ := hreturns.result hsplit
    exact hne ((htexts.unique hws).trans (Text.isSplit_iff.mp hpieces))
  exact ⟨loses _ _ (by decide) (by decide) (by decide), loses _ _ (by decide) (by decide) (by decide)⟩

end Split

end TelnetChat
