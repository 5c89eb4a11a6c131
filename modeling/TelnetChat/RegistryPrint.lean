import TelnetChat.Append
import TelnetChat.CRuntime.Output
import TelnetChat.Machine.Run
import TelnetChat.Machine.Snapshot
import TelnetChat.Registry

/-!
# Printing a registry (`registry.c`)

`printReg` prints the pairs of every record.  A slot that `createEntry` copied though
`split` never wrote it is a `String` with an indeterminate pointer and length, and
`printS` uses both.  So the registry is printed exactly when every slot in it is
written (`printReg_iff`).

`printReg` takes no mutex.  A `Printer` is `printReg` between two of its accesses to
the shared registry, and `Printer.step` runs it to the next one.  Over a registry
that nobody writes, the steps print what `printReg` does (`printer_prints`).
-/

namespace TelnetChat

open CRuntime

/-! ## The source -/

/-- `'\n'`. -/
def newline : Byte := 10

/-- `'\t'`. -/
def tab : Byte := 9

def openBrace : Byte := 123

def closeBrace : Byte := 125

/-- `printS` of a copied slot. -/
def printSlot (slot : Option Str) : Exec (List Byte) := do
  let string ← Block.written slot
  printS string

/-- The body of the inner loop of `printReg`. -/
def printEntry (e : Entry) : Exec (List Byte) := do
  let key ← printSlot e.key
  let value ← printSlot e.value
  pure (newline :: tab :: (key ++ colon :: value))

/-- The bytes that `printReg` puts out. -/
def printReg (reg : Registry) : Exec (List Byte) :=
  if reg.size > 0 then do
    let out ← forUp (fun i out => do
      let json ← reg.cells.load i
      let out ← forUp (fun j out => do
        let e ← json.cells.load j
        let line ← printEntry e
        pure (out ++ line)) json.size 0 (out ++ [openBrace])
      pure (out ++ [newline, closeBrace])) reg.size 0 []
    pure (out ++ [newline])
  else pure [openBrace, closeBrace, newline]

/-! ## The text of a registry -/

/-- The line of a pair. -/
def pairLine (p : Pair) : List Byte := newline :: tab :: (p.1.getD [] ++ colon :: p.2.getD [])

/-- The text of a record. -/
def recordText (ps : List Pair) : List Byte :=
  openBrace :: (ps.flatMap pairLine ++ [newline, closeBrace])

/-- The text of a registry. -/
def tableText (rows : List (List Pair)) : List Byte :=
  if rows = [] then [openBrace, closeBrace, newline] else rows.flatMap recordText ++ [newline]

/-- The registry stores records of the pairs. -/
def Shows (reg : Registry) (rows : List (List Pair)) : Prop :=
  ∃ js, reg.Holds js ∧ List.Forall₂ Pairs js rows

/-- Both slots of the pair are written. -/
def PairWritten (p : Pair) : Prop := p.1.isSome = true ∧ p.2.isSome = true

instance (p : Pair) : Decidable (PairWritten p) := inferInstanceAs (Decidable (_ ∧ _))

section Print

variable {reg : Registry} {rows : List (List Pair)} {json : Json} {ps : List Pair} {e : Entry}
  {p : Pair} {slot : Option Str} {t : Option (List Byte)}

theorem Shows.size_eq (h : Shows reg rows) : reg.size = rows.length := by
  obtain ⟨js, hjs, hrows⟩ := h
  rw [hjs.size_eq, hrows.length_eq]

theorem printSlot_written (h : Option.Rel Str.Holds slot t) (ht : t.isSome = true) :
    printSlot slot = .ok (t.getD []) := by
  cases h with
  | none => cases ht
  | some hs => exact hs.layout.2.2.2

theorem printSlot_unwritten (h : Option.Rel Str.Holds slot t) (ht : ¬ t.isSome = true) :
    printSlot slot = .error .undefined := by
  cases h with
  | none => rfl
  | some hs => exact absurd rfl ht

theorem printEntry_written (he : e.Holds p) (hp : PairWritten p) :
    printEntry e = .ok (pairLine p) := by
  rw [printEntry, printSlot_written he.1 hp.1, ok_bind, printSlot_written he.2 hp.2]
  rfl

theorem printEntry_unwritten (he : e.Holds p) (hp : ¬ PairWritten p) :
    printEntry e = .error .undefined := by
  rw [printEntry]
  by_cases hkey : p.1.isSome = true
  · have hvalue : ¬ p.2.isSome = true := fun hvalue => hp ⟨hkey, hvalue⟩
    rw [printSlot_written he.1 hkey, ok_bind, printSlot_unwritten he.2 hvalue]
    rfl
  · rw [printSlot_unwritten he.1 hkey]
    rfl

/-! ### Records and registries -/

/-- The body of the inner loop, after its read. -/
def printLine (out : List Byte) (e : Entry) : Exec (List Byte) := do
  let line ← printEntry e
  pure (out ++ line)

theorem printLine_written (he : e.Holds p) (hp : PairWritten p) (out : List Byte) :
    printLine out e = .ok (out ++ pairLine p) := by
  rw [printLine, printEntry_written he hp]
  rfl

theorem printLine_unwritten (he : e.Holds p) (hp : ¬ PairWritten p) (out : List Byte) :
    printLine out e = .error .undefined := by
  rw [printLine, printEntry_unwritten he hp]
  rfl

/-- The inner loop of `printReg`. -/
theorem printEntries_eq {es : List Entry} (hes : json.Holds es) (out : List Byte) :
    forUp (fun j out => do
      let e ← json.cells.load j
      printLine out e) json.size 0 out = es.foldlM printLine out := by
  rw [hes.size_eq]
  apply forUp_eq_foldlM
  intro k e hk out
  obtain ⟨hlt, rfl⟩ := List.getElem?_eq_some_iff.mp hk
  rw [Nat.zero_add, hes.load_eq hlt, ok_bind]

/-- The body of the outer loop. -/
def printRecord (out : List Byte) (json : Json) : Exec (List Byte) := do
  let out ← forUp (fun j out => do
    let e ← json.cells.load j
    printLine out e) json.size 0 (out ++ [openBrace])
  pure (out ++ [newline, closeBrace])

theorem printRecord_written (hj : Pairs json ps) (hps : ∀ p ∈ ps, PairWritten p)
    (out : List Byte) : printRecord out json = .ok (out ++ recordText ps) := by
  obtain ⟨es, hes, hpairs⟩ := hj
  have hloop := foldlM_prints pairLine hpairs
    (fun out e p he hp => printLine_written he (hps p hp) out) (out ++ [openBrace])
  rw [printRecord, printEntries_eq hes, hloop, ok_bind, pure_eq_ok, recordText]
  simp

theorem printRecord_unwritten (hj : Pairs json ps) (hps : ∃ p ∈ ps, ¬ PairWritten p)
    (out : List Byte) : printRecord out json = .error .undefined := by
  obtain ⟨es, hes, hpairs⟩ := hj
  have hloop := foldlM_faults pairLine (fun p => ¬ PairWritten p) hpairs
    (fun out e p he hp => printLine_written he (not_not.mp hp) out)
    (fun out e p he hp => printLine_unwritten he hp out) hps (out ++ [openBrace])
  rw [printRecord, printEntries_eq hes, hloop]
  rfl

/-- The outer loop of `printReg`. -/
theorem printReg_eq {js : List Json} (hjs : reg.Holds js) (hpos : 0 < reg.size) :
    printReg reg = (do
      let out ← js.foldlM printRecord []
      pure (out ++ [newline])) := by
  have hloop : forUp (fun i out => do
      let json ← reg.cells.load i
      printRecord out json) js.length 0 [] = js.foldlM printRecord [] := by
    apply forUp_eq_foldlM
    intro k json hk out
    obtain ⟨hlt, rfl⟩ := List.getElem?_eq_some_iff.mp hk
    rw [Nat.zero_add, hjs.load_eq hlt, ok_bind]
  rw [printReg, if_pos hpos, ← hloop, hjs.size_eq]
  rfl

/-- A registry with all slots written is printed. -/
theorem printReg_written (h : Shows reg rows) (hw : ∀ ps ∈ rows, ∀ p ∈ ps, PairWritten p) :
    printReg reg = .ok (tableText rows) := by
  have hsize := h.size_eq
  obtain ⟨js, hjs, hrows⟩ := h
  cases rows with
  | nil =>
      rw [printReg, if_neg (by simp [hsize])]
      rfl
  | cons ps rows =>
      have hpos : 0 < reg.size := by
        rw [hsize]
        exact Nat.succ_pos _
      rw [printReg_eq hjs hpos, foldlM_prints recordText hrows
        (fun out json ps hj hps => printRecord_written hj (hw ps hps) out) [], ok_bind,
        List.nil_append, tableText, if_neg (List.cons_ne_nil ps rows)]
      rfl

/-- A slot that was never written faults. -/
theorem printReg_unwritten (h : Shows reg rows) (hw : ∃ ps ∈ rows, ∃ p ∈ ps, ¬ PairWritten p) :
    printReg reg = .error .undefined := by
  have hsize := h.size_eq
  obtain ⟨js, hjs, hrows⟩ := h
  have hpos : 0 < reg.size := by
    obtain ⟨ps, hps, _⟩ := hw
    rw [hsize]
    exact List.length_pos_of_mem hps
  rw [printReg_eq hjs hpos, foldlM_faults recordText (fun ps => ∃ p ∈ ps, ¬ PairWritten p) hrows
    (fun out json ps hj hps => printRecord_written hj (by simpa using hps) out)
    (fun out json ps hj hps => printRecord_unwritten hj hps out) hw []]
  rfl

/-- A registry is printed exactly when every slot in it is written. -/
theorem printReg_iff (h : Shows reg rows) :
    (∃ out, printReg reg = .ok out) ↔ ∀ ps ∈ rows, ∀ p ∈ ps, PairWritten p := by
  constructor
  · rintro ⟨out, hout⟩
    by_contra hw
    rw [printReg_unwritten h (by simpa using hw)] at hout
    cases hout
  · exact fun hw => ⟨_, printReg_written h hw⟩

end Print

/-! ## Printing while others write -/

/-- Where `printReg` is. -/
inductive PrintPc where
  /-- At the test of the size. -/
  | start
  /-- At the test of the outer loop. -/
  | record (i : Nat)
  /-- At the test of the inner loop. -/
  | entry (i j : Nat)
  /-- At the copies of a key and a value. -/
  | line (i j : Nat)
  | done
deriving DecidableEq

/-- A call of `printReg`, with what it has put out. -/
structure Printer where
  pc : PrintPc
  out : List Byte
deriving DecidableEq

def Printer.fresh : Printer := ⟨.start, []⟩

/-- The call runs to its next access to the registry. -/
def Printer.step (reg : Registry) (p : Printer) : Exec Printer :=
  match p.pc with
  | .start =>
      if reg.size > 0 then pure { p with pc := .record 0 }
      else pure ⟨.done, p.out ++ [openBrace, closeBrace, newline]⟩
  | .record i =>
      if i < reg.size then pure ⟨.entry i 0, p.out ++ [openBrace]⟩
      else pure ⟨.done, p.out ++ [newline]⟩
  | .entry i j => do
      let json ← reg.cells.load i
      if j < json.size then pure { p with pc := .line i j }
      else pure ⟨.record (i + 1), p.out ++ [newline, closeBrace]⟩
  | .line i j => do
      let json ← reg.cells.load i
      let e ← json.cells.load j
      let line ← printEntry e
      pure ⟨.entry i (j + 1), p.out ++ line⟩
  | .done => pure p

/-- The records that a reader has left, as they are printed. -/
def recordsText (rows : List (List Pair)) : List Byte := rows.flatMap recordText

/-- The call has put out what a reader of the table `t` has read. -/
inductive Printer.Reads (t : List (List Pair)) : Printer → Snapshot.Reader Pair → Prop where
  | start : Printer.Reads t .fresh .fresh
  | record {rows : List (List Pair)} : 0 < t.length →
      Printer.Reads t ⟨.record rows.length, recordsText rows⟩ ⟨rows, none⟩
  | entry {rows : List (List Pair)} {ps : List Pair} :
      Printer.Reads t ⟨.entry rows.length ps.length,
        recordsText rows ++ openBrace :: ps.flatMap pairLine⟩ ⟨rows, some ps⟩
  | line {rows : List (List Pair)} {ps row : List Pair} : t[rows.length]? = some row →
      ps.length < row.length → Printer.Reads t ⟨.line rows.length ps.length,
        recordsText rows ++ openBrace :: ps.flatMap pairLine⟩ ⟨rows, some ps⟩

/-- A reader that started on the table `t₀` has read written slots only, and the call
has put them out. -/
structure Printer.Follows (t₀ t : List (List Pair)) (p : Printer) (r : Snapshot.Reader Pair) :
    Prop where
  reads : p.Reads t r
  between : Snapshot.Between t₀ t r
  rows : ∀ ps ∈ r.rows, ∀ q ∈ ps, PairWritten q
  row : ∀ ps, r.row = some ps → ∀ q ∈ ps, PairWritten q

/-- A call that started on the table `t₀` has put out what was in the table, which is
`t` now. -/
inductive Printer.Lists (t₀ t : List (List Pair)) : Printer → Prop where
  | printing {p : Printer} {r : Snapshot.Reader Pair} : p.Follows t₀ t r → Printer.Lists t₀ t p
  | done {rows : List (List Pair)} : Snapshot.Grows t₀ rows → Snapshot.Grows rows t →
      (∀ ps ∈ rows, ∀ q ∈ ps, PairWritten q) → Printer.Lists t₀ t ⟨.done, tableText rows⟩

/-- The pair that the call is about to print is written. -/
def Printer.Clear (t : List (List Pair)) (p : Printer) : Prop :=
  ∀ i j row q, p.pc = .line i j → t[i]? = some row → row[j]? = some q → PairWritten q

section Printer

variable {reg : Registry} {t t₀ t' : List (List Pair)} {p p' : Printer}
  {r : Snapshot.Reader Pair} {row : List Pair} {q : Pair} {i j : Nat}

theorem Shows.load (h : Shows reg t) (hi : t[i]? = some row) :
    ∃ json, reg.cells.load i = .ok json ∧ Pairs json row := by
  obtain ⟨js, hjs, hrows⟩ := h
  obtain ⟨hlt, rfl⟩ := List.getElem?_eq_some_iff.mp hi
  have hlt' : i < js.length := hrows.length_eq.symm ▸ hlt
  exact ⟨js[i], hjs.load_eq hlt', hrows.get hlt' hlt⟩

theorem Pairs.size_eq {json : Json} (h : Pairs json row) : json.size = row.length := by
  obtain ⟨es, hes, hpairs⟩ := h
  rw [hes.size_eq, hpairs.length_eq]

theorem Pairs.load {json : Json} (h : Pairs json row) (hj : row[j]? = some q) :
    ∃ e, json.cells.load j = .ok e ∧ e.Holds q := by
  obtain ⟨es, hes, hpairs⟩ := h
  obtain ⟨hlt, rfl⟩ := List.getElem?_eq_some_iff.mp hj
  have hlt' : j < es.length := hpairs.length_eq.symm ▸ hlt
  exact ⟨es[j], hes.load_eq hlt', hpairs.get hlt' hlt⟩

theorem Printer.lists_fresh (t : List (List Pair)) : Printer.Lists t t .fresh :=
  .printing ⟨.start, .start t, nofun, nofun⟩

/-- The table grows between two accesses. -/
theorem Printer.Lists.grow (h : p.Lists t₀ t) (hgrows : Snapshot.Grows t t') :
    p.Lists t₀ t' := by
  cases h with
  | done hle hge hw => exact .done hle (hge.trans hgrows) hw
  | printing hf =>
      refine .printing ⟨?_, hf.between.grow hgrows, hf.rows, hf.row⟩
      cases hf.reads with
      | start => exact .start
      | record hpos => exact .record (Nat.lt_of_lt_of_le hpos hgrows.length_le)
      | entry => exact .entry
      | line hrow hlt =>
          obtain ⟨row', hrow', hle⟩ := hgrows _ _ hrow
          exact .line hrow' (Nat.lt_of_lt_of_le hlt hle.length_le)

/-! ### The steps of a call -/

theorem recordsText_concat (rows : List (List Pair)) (ps : List Pair) :
    recordsText (rows ++ [ps]) =
      recordsText rows ++ openBrace :: ps.flatMap pairLine ++ [newline, closeBrace] := by
  simp [recordsText, recordText]

theorem Printer.Follows.start (hreg : Shows reg t) (h : Printer.fresh.Follows t₀ t .fresh) :
    Returns (Printer.step reg .fresh) (Printer.Lists t₀ t) := by
  rw [Printer.step, Printer.fresh]
  by_cases hpos : reg.size > 0
  · have hreader : Printer.Reads t ⟨.record 0, []⟩ .fresh :=
      @Printer.Reads.record t [] (hreg.size_eq ▸ hpos)
    simp only [if_pos hpos, pure_eq_ok, returns_ok]
    exact .printing ⟨hreader, h.between, h.rows, h.row⟩
  · have hend : t.length ≤ (Snapshot.Reader.fresh : Snapshot.Reader Pair).rows.length := by
      rw [← hreg.size_eq]
      exact Nat.le_of_not_lt hpos
    obtain ⟨hle, hge⟩ := h.between.snapshot hend
    simp only [if_neg hpos, pure_eq_ok, returns_ok]
    exact @Printer.Lists.done t₀ t [] hle hge fun _ hps => absurd hps List.not_mem_nil

theorem Printer.Follows.record {rows : List (List Pair)} (hreg : Shows reg t)
    (h : p.Follows t₀ t ⟨rows, none⟩) (hp : p = ⟨.record rows.length, recordsText rows⟩)
    (hpos : 0 < t.length) : Returns (p.step reg) (Printer.Lists t₀ t) := by
  subst hp
  simp only [Printer.step]
  by_cases hlt : rows.length < reg.size
  · have henter : Snapshot.Step t ⟨rows, none⟩ ⟨rows, some []⟩ := .enter (hreg.size_eq ▸ hlt)
    rw [if_pos hlt, pure_eq_ok, returns_ok]
    refine .printing ⟨@Printer.Reads.entry t rows [], h.between.step henter, h.rows, ?_⟩
    rintro ps ⟨⟩
    exact nofun
  · have hend : t.length ≤ rows.length := hreg.size_eq ▸ Nat.le_of_not_lt hlt
    obtain ⟨hle, hge⟩ := h.between.snapshot hend
    have hne : rows ≠ [] := List.ne_nil_of_length_pos (Nat.lt_of_lt_of_le hpos hend)
    have htable : recordsText rows ++ [newline] = tableText rows := by
      rw [tableText, if_neg hne]
      rfl
    rw [if_neg hlt, htable, pure_eq_ok, returns_ok]
    exact .done hle hge h.rows

theorem Printer.Follows.entry {rows : List (List Pair)} {ps : List Pair} (hreg : Shows reg t)
    (h : p.Follows t₀ t ⟨rows, some ps⟩)
    (hp : p = ⟨.entry rows.length ps.length,
      recordsText rows ++ openBrace :: ps.flatMap pairLine⟩) :
    Returns (p.step reg) (Printer.Lists t₀ t) := by
  subst hp
  obtain ⟨row, hrow, hprefix⟩ := h.between.reading ps rfl
  obtain ⟨json, hload, hjson⟩ := hreg.load hrow
  simp only [Printer.step, hload, ok_bind, hjson.size_eq]
  by_cases hlt : ps.length < row.length
  · rw [if_pos hlt, pure_eq_ok, returns_ok]
    exact .printing ⟨.line hrow hlt, h.between, h.rows, h.row⟩
  · have hleave : Snapshot.Step t ⟨rows, some ps⟩ ⟨rows ++ [ps], none⟩ :=
      .leave hrow (Nat.le_of_not_lt hlt)
    have hpos : 0 < t.length := by
      obtain ⟨hi, _⟩ := List.getElem?_eq_some_iff.mp hrow
      exact Nat.zero_lt_of_lt hi
    have hlen : rows.length + 1 = (rows ++ [ps]).length := by simp
    rw [if_neg hlt, pure_eq_ok, returns_ok, ← recordsText_concat, hlen]
    refine .printing ⟨.record hpos, h.between.step hleave, ?_, nofun⟩
    intro ps' hps'
    rcases List.mem_append.mp hps' with hps' | hps'
    · exact h.rows ps' hps'
    · obtain rfl := List.mem_singleton.mp hps'
      exact h.row ps' rfl

theorem Printer.Follows.line {rows : List (List Pair)} {ps : List Pair} (hreg : Shows reg t)
    (h : p.Follows t₀ t ⟨rows, some ps⟩)
    (hp : p = ⟨.line rows.length ps.length,
      recordsText rows ++ openBrace :: ps.flatMap pairLine⟩)
    (hrow : t[rows.length]? = some row) (hlt : ps.length < row.length) (hclear : p.Clear t) :
    Returns (p.step reg) (Printer.Lists t₀ t) := by
  subst hp
  obtain ⟨q, hq⟩ : ∃ q, row[ps.length]? = some q := ⟨_, List.getElem?_eq_getElem hlt⟩
  have hwritten := hclear _ _ _ _ rfl hrow hq
  obtain ⟨json, hload, hjson⟩ := hreg.load hrow
  obtain ⟨e, he, hholds⟩ := hjson.load hq
  have hnext : Snapshot.Step t ⟨rows, some ps⟩ ⟨rows, some (ps ++ [q])⟩ := .next hrow hq
  have htext : recordsText rows ++ openBrace :: ps.flatMap pairLine ++ pairLine q =
      recordsText rows ++ openBrace :: (ps ++ [q]).flatMap pairLine := by simp
  have hlen : ps.length + 1 = (ps ++ [q]).length := by simp
  simp only [Printer.step, hload, ok_bind, he, printEntry_written hholds hwritten, pure_eq_ok,
    returns_ok]
  rw [htext, hlen]
  refine .printing ⟨.entry, h.between.step hnext, h.rows, ?_⟩
  rintro ps' ⟨⟩ q' hq'
  rcases List.mem_append.mp hq' with hq' | hq'
  · exact h.row ps rfl q' hq'
  · obtain rfl := List.mem_singleton.mp hq'
    exact hwritten

/-- A step that prints no slot that was never written goes on with the list. -/
theorem Printer.Lists.step (hreg : Shows reg t) (h : p.Lists t₀ t) (hclear : p.Clear t) :
    Returns (p.step reg) (Printer.Lists t₀ t) := by
  cases h with
  | done hle hge hw => exact returns_ok.mpr (.done hle hge hw)
  | printing hf =>
      cases hf.reads with
      | start => exact hf.start hreg
      | record hpos => exact hf.record hreg rfl hpos
      | entry => exact hf.entry hreg rfl
      | line hrow hlt => exact hf.line hreg rfl hrow hlt hclear

/-- What a finished call has put out. -/
theorem Printer.Lists.done_rows {t₀ t : List (List Pair)} (h : p.Lists t₀ t) (hdone : p.pc = .done) :
    ∃ rows, p.out = tableText rows ∧ Snapshot.Grows t₀ rows ∧ Snapshot.Grows rows t ∧
      ∀ ps ∈ rows, ∀ q ∈ ps, PairWritten q := by
  cases h with
  | done hle hge hw => exact ⟨_, rfl, hle, hge, hw⟩
  | printing hf =>
      cases hf.reads with
      | start => cases hdone
      | record _ => cases hdone
      | entry => cases hdone
      | line _ _ => cases hdone

/-- A step that prints a slot that was never written faults. -/
theorem Printer.step_unwritten (hreg : Shows reg t) (h : ¬ p.Clear t) :
    p.step reg = .error .undefined := by
  obtain ⟨pc, out⟩ := p
  simp only [Printer.Clear, not_forall] at h
  obtain ⟨i, j, row, q, rfl, hrow, hq, hunwritten⟩ := h
  obtain ⟨json, hload, hjson⟩ := hreg.load hrow
  obtain ⟨e, he, hholds⟩ := hjson.load hq
  simp only [Printer.step, hload, ok_bind, he, printEntry_unwritten hholds hunwritten]
  rfl

/-! ### Over a registry that nobody writes -/

/-- The steps of a call over one registry. -/
abbrev Prints (reg : Registry) (p p' : Printer) : Prop :=
  Machine.Reachable (fun (p : Printer) (_ : Unit) p' => p.step reg = .ok p') p p'

theorem Prints.cons {q : Printer} (hs : p.step reg = .ok q) (h : Prints reg q p') :
    Prints reg p p' :=
  (Machine.Run.single (a := ()) trivial hs).trans h

/-- The rest of a record is printed. -/
theorem prints_row {json : Json} {qs : List Pair} (hload : reg.cells.load i = .ok json)
    (hjson : Pairs json row) (hdrop : row.drop j = qs) (hw : ∀ q ∈ qs, PairWritten q)
    (out : List Byte) : Prints reg ⟨.entry i j, out⟩
      ⟨.record (i + 1), out ++ qs.flatMap pairLine ++ [newline, closeBrace]⟩ := by
  induction qs generalizing j out with
  | nil =>
      have hlen : ¬ j < json.size := by
        rw [hjson.size_eq]
        exact Nat.not_lt.mpr (List.drop_eq_nil_iff.mp hdrop)
      refine .cons ?_ .init
      simp [Printer.step, hload, ok_bind, hlen, pure_eq_ok]
  | cons q qs ih =>
      have hq : row[j]? = some q := by
        rw [← List.head?_drop, hdrop]
        rfl
      have hdrop' : row.drop (j + 1) = qs := by
        rw [← List.drop_drop, hdrop]
        rfl
      obtain ⟨hlt, _⟩ := List.getElem?_eq_some_iff.mp hq
      obtain ⟨e, he, hholds⟩ := hjson.load hq
      have hrest := ih hdrop' (fun q' hq' => hw q' (List.mem_cons_of_mem q hq'))
        (out ++ pairLine q)
      have htext : out ++ pairLine q ++ qs.flatMap pairLine = out ++ (q :: qs).flatMap pairLine := by
        simp
      rw [htext] at hrest
      refine .cons (q := ⟨.line i j, out⟩) ?_ (.cons ?_ hrest)
      · simp only [Printer.step, hload, ok_bind, hjson.size_eq, if_pos hlt, pure_eq_ok]
      · simp only [Printer.step, hload, ok_bind, he,
          printEntry_written hholds (hw q List.mem_cons_self), pure_eq_ok]

/-- The rest of a registry is printed. -/
theorem prints_rows {rows : List (List Pair)} (hreg : Shows reg t) (hdrop : t.drop i = rows)
    (hw : ∀ ps ∈ rows, ∀ q ∈ ps, PairWritten q) (out : List Byte) :
    Prints reg ⟨.record i, out⟩ ⟨.done, out ++ recordsText rows ++ [newline]⟩ := by
  induction rows generalizing i out with
  | nil =>
      have hlen : ¬ i < reg.size := by
        rw [hreg.size_eq]
        exact Nat.not_lt.mpr (List.drop_eq_nil_iff.mp hdrop)
      refine .cons ?_ .init
      simp [Printer.step, hlen, recordsText, pure_eq_ok]
  | cons ps rows ih =>
      have hrow : t[i]? = some ps := by
        rw [← List.head?_drop, hdrop]
        rfl
      have hdrop' : t.drop (i + 1) = rows := by
        rw [← List.drop_drop, hdrop]
        rfl
      obtain ⟨hlt, _⟩ := List.getElem?_eq_some_iff.mp hrow
      obtain ⟨json, hload, hjson⟩ := hreg.load hrow
      have hprints := prints_row hload hjson (j := 0) rfl (hw ps List.mem_cons_self)
        (out ++ [openBrace])
      have hrest := ih hdrop' (fun ps' hps' => hw ps' (List.mem_cons_of_mem ps hps'))
        (out ++ [openBrace] ++ ps.flatMap pairLine ++ [newline, closeBrace])
      have htext : out ++ [openBrace] ++ ps.flatMap pairLine ++ [newline, closeBrace] ++
          recordsText rows = out ++ recordsText (ps :: rows) := by
        simp [recordsText, recordText]
      rw [htext] at hrest
      refine .cons (q := ⟨.entry i 0, out ++ [openBrace]⟩) ?_ (hprints.trans hrest)
      simp only [Printer.step, hreg.size_eq, if_pos hlt, pure_eq_ok]

/-- The steps of a call print what `printReg` does. -/
theorem printer_prints (hreg : Shows reg t) (out : List Byte) :
    Prints reg .fresh ⟨.done, out⟩ ↔ printReg reg = .ok out := by
  constructor
  · intro h
    have hlists : Printer.Lists t t ⟨.done, out⟩ := by
      apply h.invariant (I := Printer.Lists t t) (Printer.lists_fresh t)
      intro p _ p' _ hp hs
      by_cases hclear : p.Clear t
      · exact (hp.step hreg hclear).result hs
      · rw [Printer.step_unwritten hreg hclear] at hs
        cases hs
    cases hlists with
    | printing hf => cases hf.reads
    | @done rows hle hge hw =>
        obtain rfl := hge.antisymm hle
        exact printReg_written hreg hw
  · intro hout
    have hw := (printReg_iff hreg).mp ⟨out, hout⟩
    rw [printReg_written hreg hw, Except.ok.injEq] at hout
    subst hout
    by_cases hpos : reg.size > 0
    · have hne : t ≠ [] := List.ne_nil_of_length_pos (hreg.size_eq ▸ hpos)
      have hrest := prints_rows hreg (i := 0) rfl hw []
      refine .cons (q := ⟨.record 0, []⟩) ?_ ?_
      · simp only [Printer.step, Printer.fresh, if_pos hpos, pure_eq_ok]
      · rw [tableText, if_neg hne]
        exact hrest
    · obtain rfl : t = [] := by
        rw [← List.length_eq_zero_iff, ← hreg.size_eq]
        omega
      refine .cons ?_ .init
      simp only [Printer.step, Printer.fresh, if_neg hpos, pure_eq_ok]
      rfl

end Printer

end TelnetChat
