import TelnetChat.CRuntime.Trace
import TelnetChat.Split

/-!
# The accesses of the splitter

`splitTraced` is `split` with a record of its reads `str.string[bcount]` and of
the writes of `addString`.  Its erasure is `split` (`splitTraced_erase`).

*Reads.*  The counter starts at `-1`, and each iteration of the inner loop adds
one before it reads.  It does so only if the counter is below the index of the
final NUL.  So the reads are in bounds for every string, whatever its bytes are
and however the loops are left (`splitTraced_emits`).

*Segments.*  On a well-formed string `split` returns, and its segments stand in
the text one after the other (`segments_placed`, `split_safe`).
-/

namespace TelnetChat

open CRuntime

/-! ## The record -/

inductive Access where
  /-- A read of `str.string[bcount]`. -/
  | read (bcount : Int)
  /-- The write of `addString` at `index` into an array it may have grown. -/
  | write (index : Nat) (sarray : SArray)

/-- The reads stay between the first byte of `str` and its NUL, and the writes
below a capacity that is allocated. -/
def Access.InBounds (str : Str) : Access → Prop
  | .read bcount => 0 ≤ bcount ∧ bcount ≤ (str.length : Int) - 1
  | .write index sarray => index < sarray.capacity ∧ sarray.capacity ≤ sarray.cells.length

def readTraced (str : Str) (bcount : Int) : Traced Access Byte := do
  tell [.read bcount]
  str.string.loadInt bcount

def addStringTraced (sarray : SArray) (str : Str) : Traced Access SArray := do
  let sarray ← sarray.reserve 5 incrSArrayCapacity
  tell [.write sarray.size sarray]
  let cells ← sarray.cells.store sarray.size str
  pure ⟨cells, sarray.size + 1, sarray.capacity⟩

/-- The source reads the byte once more before it appends it. -/
def splitInnerTraced (str : Str) (c : Byte) (sarr : SArray) :
    Nat → Int → Str → Traced Access SplitStep
  | 0, bcount, _ => pure (.next bcount sarr)
  | j + 1, bcount, s =>
      if bcount ≥ (str.length : Int) - 1 then pure (.ret sarr)
      else do
        let bcount := bcount + 1
        let x ← readTraced str bcount
        if x = c ∨ bcount ≥ (str.length : Int) - 1 then
          let s ← appendStr s (cstr [0])
          let sarr ← addStringTraced sarr s
          pure (.next bcount sarr)
        else
          let x ← readTraced str bcount
          let s ← appendStr s (cstr [x])
          splitInnerTraced str c sarr j bcount s

def splitOuterTraced (str : Str) (c : Byte) : Nat → Int → SArray → Traced Access SArray
  | 0, _, sarr => pure sarr
  | i + 1, bcount, sarr => do
      let s ← getString
      let _len ← strLen str.string
      match ← splitInnerTraced str c sarr (str.length - 1) bcount s with
      | .ret sarr => pure sarr
      | .next bcount sarr => splitOuterTraced str c i bcount sarr

def splitTraced (str : Str) (c : Byte) : Traced Access SArray :=
  splitOuterTraced str c (str.length - 1) (-1) createSArray

/-! ## Erasure -/

section Erase

open Traced

@[simp] theorem readTraced_erase (str : Str) (bcount : Int) :
    erase (readTraced str bcount) = str.string.loadInt bcount := by
  simp [readTraced]

@[simp] theorem addStringTraced_erase (sarray : SArray) (str : Str) :
    erase (addStringTraced sarray str) = addString sarray str := by
  simp [addStringTraced, addString, GrowArray.push]

theorem splitInnerTraced_erase (str : Str) (c : Byte) (sarr : SArray) (j : Nat) (bcount : Int)
    (s : Str) :
    erase (splitInnerTraced str c sarr j bcount s) = splitInner str c sarr j bcount s := by
  induction j generalizing bcount s with
  | zero => rfl
  | succ j ih =>
      rw [splitInnerTraced, splitInner]
      split
      · rfl
      · simp only [erase_bind, readTraced_erase]
        cases hload : str.string.loadInt (bcount + 1) with
        | error e => rfl
        | ok x =>
            simp only [ok_bind]
            split
            · simp
            · simp [hload, ih]

theorem splitOuterTraced_erase (str : Str) (c : Byte) (i : Nat) (bcount : Int) (sarr : SArray) :
    erase (splitOuterTraced str c i bcount sarr) = splitOuter str c i bcount sarr := by
  induction i generalizing bcount sarr with
  | zero => rfl
  | succ i ih =>
      rw [splitOuterTraced, splitOuter]
      simp only [erase_bind, erase_lift, splitInnerTraced_erase]
      congr 1
      funext s
      congr 1
      funext _
      congr 1
      funext r
      cases r with
      | ret sarr => rfl
      | next bcount sarr => exact ih bcount sarr

theorem splitTraced_erase (str : Str) (c : Byte) : erase (splitTraced str c) = split str c :=
  splitOuterTraced_erase str c (str.length - 1) (-1) createSArray

end Erase

/-! ## Bounds of the accesses -/

/-- The array stores a list of strings, and the counter has not left its
range. -/
def SplitStep.Sound : SplitStep → Prop
  | .ret sarr => ∃ xs, sarr.Holds xs
  | .next bcount sarr => -1 ≤ bcount ∧ ∃ xs, sarr.Holds xs

section Emits

open Traced

variable {str s : Str} {sarr : SArray} {xs : List Str}

theorem readTraced_emits {bcount : Int} (h0 : 0 ≤ bcount) (hlast : bcount ≤ (str.length : Int) - 1) :
    Emits (Access.InBounds str) (readTraced str bcount) fun _ => True := by
  apply (emits_tell ⟨h0, hlast⟩).bind
  intro _ _
  exact emits_lift fun _ _ => trivial

theorem addStringTraced_emits (h : sarr.Holds xs) (s : Str) :
    Emits (Access.InBounds str) (addStringTraced sarr s) fun sarr' => sarr'.Holds (xs ++ [s]) := by
  have hgrown := GrowArray.reserve_returns h (by decide : 2 ≤ 5) (incrSArrayCapacity_returns h)
  have hreturns : Returns (erase (addStringTraced sarr s)) fun sarr' => sarr'.Holds (xs ++ [s]) := by
    rw [addStringTraced_erase]
    exact (addString_returns h s).mono fun _ h => h.1
  refine Emits.returns (Q := fun _ => True) ?_ hreturns
  apply (emits_lift fun r hr => hgrown.result hr).bind
  intro r hr
  apply (emits_tell ⟨hr.1.size_lt, hr.1.allocated⟩).bind
  intro _ _
  apply (emits_lift fun _ _ => trivial).bind
  intro _ _
  exact emits_pure trivial

/-- The inner loop keeps the counter in its range, from any point on. -/
theorem splitInnerTraced_emits (c : Byte) (hsarr : sarr.Holds xs) (j : Nat) {bcount : Int}
    (hb : -1 ≤ bcount) (s : Str) :
    Emits (Access.InBounds str) (splitInnerTraced str c sarr j bcount s) SplitStep.Sound := by
  induction j generalizing bcount s with
  | zero => exact emits_pure ⟨hb, xs, hsarr⟩
  | succ j ih =>
      rw [splitInnerTraced]
      split
      · exact emits_pure ⟨xs, hsarr⟩
      · -- the counter is below the index of the NUL, and is incremented once
        have hread : Emits (Access.InBounds str) (readTraced str (bcount + 1)) fun _ => True :=
          readTraced_emits (by omega) (by omega)
        apply hread.bind
        intro x _
        split
        · apply (emits_lift fun _ _ => trivial).bind
          intro s' _
          apply (addStringTraced_emits hsarr s').bind
          intro sarr' hsarr'
          exact emits_pure ⟨by omega, xs ++ [s'], hsarr'⟩
        · apply hread.bind
          intro y _
          apply (emits_lift fun _ _ => trivial).bind
          intro s' _
          exact ih (by omega) s'

theorem splitOuterTraced_emits (c : Byte) (i : Nat) {bcount : Int} (hb : -1 ≤ bcount)
    (hsarr : sarr.Holds xs) :
    Emits (Access.InBounds str) (splitOuterTraced str c i bcount sarr) fun sarr' =>
      ∃ xs', sarr'.Holds xs' := by
  induction i generalizing bcount sarr xs with
  | zero => exact emits_pure ⟨xs, hsarr⟩
  | succ i ih =>
      rw [splitOuterTraced]
      apply (emits_lift fun _ _ => trivial).bind
      intro s _
      apply (emits_lift fun _ _ => trivial).bind
      intro _len _
      apply (splitInnerTraced_emits c hsarr (str.length - 1) hb s).bind
      intro r hr
      cases r with
      | ret sarr' => exact emits_pure hr
      | next bcount' sarr' =>
          obtain ⟨hb', xs', hsarr'⟩ := hr
          exact ih hb' hsarr'

/-- The accesses of `split` are in bounds, for every string and delimiter. -/
theorem splitTraced_emits (str : Str) (c : Byte) :
    Emits (Access.InBounds str) (splitTraced str c) fun sarr => ∃ xs, sarr.Holds xs :=
  splitOuterTraced_emits c (str.length - 1) (Int.le_refl (-1)) createSArray_holds

end Emits

/-! ## The segments in the text -/

section Segments

variable {c : Byte} {w : List Byte}

theorem notMem_segments {seg : List Byte} (h : seg ∈ segments c w) : c ∉ seg := by
  unfold segments at h
  split at h
  · exact (Text.isSplit_splitOn c w).separator_free seg (List.mem_of_mem_take h)
  · obtain rfl := List.mem_singleton.mp (List.mem_of_mem_take h)
    exact List.not_mem_nil

theorem segments_placed (c : Byte) (w : List Byte) : Text.Placed w (segments c w) := by
  unfold segments
  split
  · exact (Text.placed_splitOn c w).take w.length
  · exact (Text.placed_empty w).take (w.length - 1)

theorem length_segments_le (c : Byte) (w : List Byte) : (segments c w).length ≤ w.length := by
  unfold segments
  split
  · exact List.length_take_le _ _
  · exact (List.length_take_le _ _).trans (Nat.sub_le _ _)

end Segments

theorem wellFormed_of_texts {xs : List Str} {ws : List (List Byte)}
    (h : List.Forall₂ Str.Holds xs ws) : ∀ s ∈ xs, s.WellFormed := by
  induction h with
  | nil => simp
  | cons hs _ ih =>
      intro s hmem
      rcases List.mem_cons.mp hmem with rfl | htail
      · exact hs.wellFormed
      · exact ih s htail

/-- On a well-formed string `split` returns, with every access in bounds.  Its
segments are well formed and free of the delimiter, stand in the text in their order
and apart, and are no more than the text has bytes. -/
theorem split_safe {str : Str} {w : List Byte} (h : str.Holds w) (c : Byte) :
    ∃ sarr log, split str c = .ok sarr ∧ (splitTraced str c).run = .ok (sarr, log) ∧
      (∀ access ∈ log, access.InBounds str) ∧
      ∃ xs ws, sarr.Holds xs ∧ List.Forall₂ Str.Holds xs ws ∧ (∀ s ∈ xs, s.WellFormed) ∧
        (∀ seg ∈ ws, c ∉ seg) ∧ Text.Placed w ws ∧ xs.length ≤ str.length - 1 := by
  obtain ⟨sarr, hsplit, _, xs, hxs, htexts⟩ := split_returns h c
  obtain ⟨log, hlog⟩ := Traced.erase_eq_ok.mp ((splitTraced_erase str c).trans hsplit)
  refine ⟨sarr, log, hsplit, hlog, (splitTraced_emits str c sarr log hlog).2, xs, segments c w,
    hxs, htexts, wellFormed_of_texts htexts, fun _ => notMem_segments, segments_placed c w, ?_⟩
  have hlen := length_segments_le c w
  rw [htexts.length_eq, h.length_eq]
  omega

/-- The text of the test in `string_array.c`. -/
theorem split_safe_names :
    ∃ str, getStringFrom (cstr (bytes "Ritesh:Sadhu:Harinakshi:Salian")) = .ok str ∧
      ∃ sarr log, split str 58 = .ok sarr ∧ (splitTraced str 58).run = .ok (sarr, log) ∧
        (∀ access ∈ log, access.InBounds str) ∧
        ∃ xs ws, sarr.Holds xs ∧ List.Forall₂ Str.Holds xs ws ∧ (∀ s ∈ xs, s.WellFormed) ∧
          (∀ seg ∈ ws, 58 ∉ seg) ∧ Text.Placed (bytes "Ritesh:Sadhu:Harinakshi:Salian") ws ∧
          xs.length ≤ str.length - 1 := by
  obtain ⟨str, hget, hstr⟩ := getStringFrom_returns
    (cstr_cstr (by decide) : CStr _ (bytes "Ritesh:Sadhu:Harinakshi:Salian"))
  exact ⟨str, hget, split_safe hstr 58⟩

end TelnetChat
