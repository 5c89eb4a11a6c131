import TelnetChat.Split

/-!
# Key and value pairs (`json.c`)

A `Json` is a growable array of entries.  `createEntry` splits a string at
`':'` and copies the first two slots of the segment array, whether or not
`split` wrote them.  An `Entry` therefore has two slots, `none` when the slot
was never written.  Such a key is taken to compare unequal to every string.

`Pairs j ps` says that `j` stores entries whose slots hold the texts of `ps`.
Under it `addJson` appends the `fields` of a text, and a lookup answers with
the first pair of its key.
-/

namespace TelnetChat

open CRuntime

/-! ## The source -/

/-- `':'`. -/
def colon : Byte := 58

/-- `struct Entry`. -/
structure Entry where
  key : Option Str
  value : Option Str
deriving DecidableEq

/-- `struct Json`. -/
abbrev Json : Type := GrowArray Entry

def createEntry (str : Str) : Exec Entry := do
  let sarr ← split str colon
  let key ← sarr.cells.peek 0
  let value ← sarr.cells.peek 1
  pure ⟨key, value⟩

def createJson : Json := .create 10

def incrJsonCapacity (json : Json) : Exec Json := json.grow (json.capacity + 10) 10

def addJson (json : Json) (str : Str) : Exec Json := do
  let e ← createEntry str
  json.push 5 incrJsonCapacity e

/-- `compareStr` against the key of an entry. -/
def compareKey (key : Str) : Option Str → Exec Int
  | none => pure 1
  | some str => compareStr key str

/-- The search loop of `getVal` and `jsonContainsKey`. -/
def findKey (json : Json) (key : Str) : Exec (Option Entry) :=
  findUp (fun i => do
    let e ← json.cells.load i
    let r ← compareKey key e.key
    pure (if r = 0 then some e else none)) json.size 0

def getVal (json : Json) (key : Str) : Exec (Option Str) := do
  match ← findKey json key with
  | some e => pure e.value
  | none => .error (.exit 0)

def jsonContainsKey (json : Json) (key : Str) : Exec Int := do
  match ← findKey json key with
  | some _ => pure 1
  | none => pure 0

/-! ## Entries and their texts -/

/-- The texts of the two slots of an entry. -/
abbrev Pair : Type := Option (List Byte) × Option (List Byte)

/-- What `createEntry` reads off a text. -/
def fields (w : List Byte) : Pair := ((segments colon w)[0]?, (segments colon w)[1]?)

/-- The slots of the entry are written where `p` has a text, and hold it. -/
def Entry.Holds (e : Entry) (p : Pair) : Prop :=
  Option.Rel Str.Holds e.key p.1 ∧ Option.Rel Str.Holds e.value p.2

/-- The entries of `j` hold the pairs `ps`. -/
def Pairs (j : Json) (ps : List Pair) : Prop :=
  ∃ es, j.Holds es ∧ List.Forall₂ Entry.Holds es ps

theorem slot_written {slot : Option Str} {w : List Byte}
    (h : Option.Rel Str.Holds slot (some w)) : ∃ s, slot = some s ∧ s.Holds w := by
  cases h with
  | some hs => exact ⟨_, rfl, hs⟩

/-- The first pair with the key `k`. -/
def lookup (k : List Byte) (ps : List Pair) : Option Pair := ps.find? fun p => p.1 = some k

theorem lookup_cons_self (k : List Byte) (v : Option (List Byte)) (ps : List Pair) :
    lookup k ((some k, v) :: ps) = some (some k, v) := by
  simp [lookup]

theorem lookup_cons_of_ne {k : List Byte} {p : Pair} (h : p.1 ≠ some k) (ps : List Pair) :
    lookup k (p :: ps) = lookup k ps := by
  simp [lookup, h]

theorem createJson_holds : createJson.Holds [] := GrowArray.create_holds (Nat.succ_pos _)

theorem pairs_nil : Pairs createJson [] := ⟨[], createJson_holds, .nil⟩

/-! ### The fields of a text -/

/-- A text with a separator and another byte has two fields. -/
theorem fields_append {k r : List Byte} (hk : colon ∉ k) (h : k ≠ [] ∨ r ≠ []) :
    fields (k ++ colon :: r) = (some k, some (r.takeWhile (· ≠ colon))) := by
  have hlen : 2 ≤ (k ++ colon :: r).length := by
    rw [List.length_append, List.length_cons]
    rcases h with h | h
    · have hpos := List.length_pos_iff.mpr h
      omega
    · have hpos := List.length_pos_iff.mpr h
      omega
  have hsplit : (k ++ colon :: r).splitOn colon = k :: r.splitOn colon :=
    List.splitOn_append_cons_self_of_not_mem hk r
  rw [fields, segments, if_pos (by simp), hsplit, List.getElem?_take_of_lt (by omega),
    List.getElem?_take_of_lt (by omega), List.getElem?_cons_zero, List.getElem?_cons_succ,
    Text.splitOn_getElem?_zero]

/-- A key that is not empty is read off exactly the texts that start with it
and a separator. -/
theorem fields_key_iff {k w : List Byte} (hk : k ≠ []) :
    (fields w).1 = some k ↔ colon ∉ k ∧ k ++ [colon] <+: w := by
  constructor
  · intro h
    rcases Text.first_piece colon w with hc | ⟨a, t, rfl, ha⟩
    · -- no separator: the only segment is empty
      rw [fields, segments, if_neg hc] at h
      have hmem := List.mem_of_mem_take (List.mem_of_getElem? h)
      exact absurd (List.mem_singleton.mp hmem) hk
    · have hfirst : (fields (a ++ colon :: t)).1 = some a := by
        rw [fields, segments, if_pos (by simp), List.splitOn_append_cons_self_of_not_mem ha,
          List.getElem?_take_of_lt (by rw [List.length_append, List.length_cons]; omega)]
        rfl
      rw [hfirst, Option.some.injEq] at h
      subst h
      exact ⟨ha, t, by simp⟩
  · rintro ⟨hc, t, rfl⟩
    rw [List.append_assoc, List.singleton_append, fields_append hc (Or.inl hk)]

section Json

variable {j : Json} {ps : List Pair} {key str : Str} {k w : List Byte}

/-- A slot of the segment array is its segment, or was never written. -/
theorem Texts.peek_returns {sarr : SArray} {ws : List (List Byte)} (h : Texts sarr ws) {i : Nat}
    (hi : i < INIT_CAPACITY) :
    Returns (sarr.cells.peek i) fun slot => Option.Rel Str.Holds slot ws[i]? := by
  obtain ⟨hcap, xs, hxs, htexts⟩ := h
  refine ⟨xs[i]?, hxs.peek_eq (Nat.lt_of_lt_of_le hi hcap), ?_⟩
  have hlen := htexts.length_eq
  by_cases hlt : i < xs.length
  · rw [List.getElem?_eq_getElem hlt, List.getElem?_eq_getElem (hlen ▸ hlt)]
    exact .some (htexts.get hlt (hlen ▸ hlt))
  · rw [List.getElem?_eq_none (by omega), List.getElem?_eq_none (by omega)]
    exact .none

theorem createEntry_returns (h : str.Holds w) :
    Returns (createEntry str) fun e => e.Holds (fields w) := by
  apply (split_returns h colon).bind
  intro sarr hsarr
  apply (hsarr.peek_returns (by decide)).bind
  intro key hkey
  apply (hsarr.peek_returns (by decide)).bind
  intro value hvalue
  exact returns_ok.mpr ⟨hkey, hvalue⟩

theorem incrJsonCapacity_returns {es : List Entry} (h : j.Holds es) :
    Returns (incrJsonCapacity j) (GrowArray.Grown j es) :=
  GrowArray.grow_returns h (by decide) (Nat.le_refl _)

/-- `addJson` stores the entry of the text after the others. -/
theorem addJson_stores {es : List Entry} (hes : j.Holds es) (h : str.Holds w) :
    Returns (addJson j str) fun j' =>
      ∃ e, createEntry str = .ok e ∧ e.Holds (fields w) ∧ j'.Holds (es ++ [e]) := by
  obtain ⟨e, hcreate, he⟩ := createEntry_returns h
  have hpush := GrowArray.push_returns hes (by decide : 2 ≤ 5) (incrJsonCapacity_returns hes) e
  rw [addJson, hcreate, ok_bind]
  exact hpush.mono fun j' hj' => ⟨e, rfl, he, hj'.1⟩

theorem addJson_appendOnly :
    GrowArray.AppendOnly createEntry (fun json => json.reserve 5 incrJsonCapacity) addJson
      createJson :=
  GrowArray.push_appendOnly (by decide) (fun _ _ => incrJsonCapacity_returns) (fun _ _ => rfl)
    createJson_holds

/-- The calls of `addJson` with well-formed strings find their entries. -/
theorem createEntry_elements {strs : List Str} {ws : List (List Byte)}
    (h : List.Forall₂ Str.Holds strs ws) :
    ∃ es, GrowArray.Elements createEntry strs es ∧
      List.Forall₂ Entry.Holds es (ws.map fields) := by
  induction h with
  | nil => exact ⟨[], .nil, .nil⟩
  | cons hstr _ ih =>
      obtain ⟨e, hcreate, he⟩ := createEntry_returns hstr
      obtain ⟨es, hes, hfields⟩ := ih
      exact ⟨e :: es, .cons hcreate hes, .cons he hfields⟩

theorem addJson_returns (hj : Pairs j ps) (h : str.Holds w) :
    Returns (addJson j str) fun j' => Pairs j' (ps ++ [fields w]) := by
  obtain ⟨es, hes, hps⟩ := hj
  apply (addJson_stores hes h).mono
  intro j' hj'
  obtain ⟨e, _, he, hes'⟩ := hj'
  exact ⟨es ++ [e], hes', List.rel_append hps (.cons he .nil)⟩

/-- Both slots of the entry are written, with well-formed strings. -/
def Entry.Written (e : Entry) : Prop :=
  ∃ key value, e = ⟨some key, some value⟩ ∧ key.WellFormed ∧ value.WellFormed

/-- `split` writes two segments exactly when the text has a separator and
another byte, which may be a separator too. -/
theorem two_le_length_segments_iff {c : Byte} :
    2 ≤ (segments c w).length ↔ c ∈ w ∧ 2 ≤ w.length := by
  by_cases hc : c ∈ w
  · have hlen := (Text.isSplit_splitOn c w).length_eq
    have hcount := List.count_pos_iff.mpr hc
    rw [segments, if_pos hc, List.length_take, hlen, and_iff_right hc]
    omega
  · rw [segments, if_neg hc]
    refine iff_of_false (fun hle => ?_) fun h => hc h.1
    rw [List.length_take, List.length_singleton] at hle
    omega

theorem slot_unwritten {slot : Option Str} (h : Option.Rel Str.Holds slot none) :
    slot = none := by
  cases h
  rfl

theorem slot_wellFormed_iff {slot : Option Str} {t : Option (List Byte)}
    (h : Option.Rel Str.Holds slot t) : (∃ s, slot = some s ∧ s.WellFormed) ↔ t.isSome = true := by
  cases h with
  | none => simp
  | some hs =>
      exact iff_of_true ⟨_, rfl, hs.wellFormed⟩ rfl

theorem Entry.written_iff (e : Entry) :
    e.Written ↔
      (∃ s, e.key = some s ∧ s.WellFormed) ∧ ∃ s, e.value = some s ∧ s.WellFormed := by
  constructor
  · rintro ⟨key, value, rfl, hkey, hvalue⟩
    exact ⟨⟨key, rfl, hkey⟩, value, rfl, hvalue⟩
  · obtain ⟨_, _⟩ := e
    rintro ⟨⟨key, rfl, hkey⟩, value, rfl, hvalue⟩
    exact ⟨key, value, rfl, hkey, hvalue⟩

theorem written_iff_of_fields {e : Entry} (he : e.Holds (fields w)) :
    e.Written ↔ colon ∈ w ∧ 2 ≤ w.length := by
  rw [e.written_iff, slot_wellFormed_iff he.1, slot_wellFormed_iff he.2,
    ← two_le_length_segments_iff]
  simp only [fields, isSome_getElem?]
  omega

/-- The slots that `createEntry` copies, and `addJson` stores, are written
exactly when the text has a separator and another byte. -/
theorem createEntry_written_iff (h : str.Holds w) :
    (Returns (createEntry str) Entry.Written ∧
      ∀ (j : Json) es, j.Holds es →
        Returns (addJson j str) fun j' => ∃ e, j'.Holds (es ++ [e]) ∧ e.Written) ↔
      colon ∈ w ∧ 2 ≤ w.length := by
  obtain ⟨e, hcreate, he⟩ := createEntry_returns h
  rw [hcreate, returns_ok, ← written_iff_of_fields he, and_iff_left_iff_imp]
  intro hwritten j es hes
  apply (addJson_stores hes h).mono
  intro j' hj'
  obtain ⟨e', hcreate', _, hes'⟩ := hj'
  cases hcreate.symm.trans hcreate'
  exact ⟨e, hes', hwritten⟩

theorem createEntry_written_iff_key :
    ∃ str, getStringFrom (cstr (bytes "Ritesh:Salian")) = .ok str ∧
      ((Returns (createEntry str) Entry.Written ∧
        ∀ (j : Json) es, j.Holds es →
          Returns (addJson j str) fun j' => ∃ e, j'.Holds (es ++ [e]) ∧ e.Written) ↔
        colon ∈ bytes "Ritesh:Salian" ∧ 2 ≤ (bytes "Ritesh:Salian").length) := by
  obtain ⟨str, hget, hstr⟩ := getStringFrom_returns
    (cstr_cstr (by decide) : CStr _ (bytes "Ritesh:Salian"))
  exact ⟨str, hget, createEntry_written_iff hstr⟩

/-- Without a separator the value slot is read though `split` never wrote it, and
for one byte the key slot too. -/
theorem createEntry_reads_unwritten :
    (∃ str, getStringFrom (cstr (bytes "hi")) = .ok str ∧
      Returns (createEntry str) (fun e => e.value = none) ∧
      ¬ Returns (createEntry str) Entry.Written) ∧
    ∃ str, getStringFrom (cstr (bytes "h")) = .ok str ∧
      Returns (createEntry str) (fun e => e.key = none ∧ e.value = none) ∧
      ¬ Returns (createEntry str) Entry.Written := by
  have unwritten : ∀ (w : List Byte), 0 ∉ w → colon ∉ w →
      ∃ str e, getStringFrom (cstr w) = .ok str ∧ createEntry str = .ok e ∧ e.Holds (fields w) ∧
        ¬ Returns (createEntry str) Entry.Written := by
    intro w h0 hw
    obtain ⟨str, hget, hstr⟩ := getStringFrom_returns (cstr_cstr h0)
    obtain ⟨e, hcreate, he⟩ := createEntry_returns hstr
    refine ⟨str, e, hget, hcreate, he, fun hreturns => ?_⟩
    exact hw ((written_iff_of_fields he).mp (hreturns.result hcreate)).1
  constructor
  · obtain ⟨str, e, hget, hcreate, he, hnot⟩ := unwritten (bytes "hi") (by decide) (by decide)
    have hvalue := he.2
    rw [show (fields (bytes "hi")).2 = none by decide] at hvalue
    exact ⟨str, hget, .of_eq hcreate (slot_unwritten hvalue), hnot⟩
  · obtain ⟨str, e, hget, hcreate, he, hnot⟩ := unwritten (bytes "h") (by decide) (by decide)
    obtain ⟨hkey, hvalue⟩ := he
    rw [show (fields (bytes "h")).1 = none by decide] at hkey
    rw [show (fields (bytes "h")).2 = none by decide] at hvalue
    exact ⟨str, hget, .of_eq hcreate
      ⟨slot_unwritten hkey, slot_unwritten hvalue⟩, hnot⟩

/-- An entry matches a key when its key slot is written and has the text. -/
theorem compareKey_returns {slot : Option Str} {t : Option (List Byte)} (hk : key.Holds k)
    (h : Option.Rel Str.Holds slot t) :
    Returns (compareKey key slot) fun r => r = 0 ↔ t = some k := by
  cases h with
  | none =>
      rw [compareKey, pure_eq_ok, returns_ok]
      exact ⟨fun h => absurd h (by decide), fun h => absurd h (by simp)⟩
  | some hs =>
      apply (compareStr_returns hk hs).mono
      intro r hr
      rw [hr, Option.some.injEq, eq_comm]

/-- One iteration of the search answers by the text of the key alone. -/
theorem findKey_body {es : List Entry} {e : Entry} {p : Pair} (hes : j.Holds es)
    (hk : key.Holds k) {i : Nat} (hi : es[i]? = some e) (he : e.Holds p) :
    (do
      let e ← j.cells.load i
      let r ← compareKey key e.key
      pure (if r = 0 then some e else none) : Exec (Option Entry)) =
      .ok (if p.1 = some k then some e else none) := by
  obtain ⟨hlt, rfl⟩ := List.getElem?_eq_some_iff.mp hi
  obtain ⟨r, hcompare, hr⟩ := compareKey_returns hk he.1
  rw [hes.load_eq hlt, ok_bind, hcompare, ok_bind, pure_eq_ok]
  simp only [hr]

theorem findKey_returns (hj : Pairs j ps) (hk : key.Holds k) :
    Returns (findKey j key) fun r => Option.Rel Entry.Holds r (lookup k ps) := by
  obtain ⟨es, hes, hps⟩ := hj
  rw [findKey, hes.size_eq]
  refine findUp_returns hps 0 fun i e p he hep _ => ?_
  rw [Nat.zero_add]
  simpa only [decide_eq_true_eq] using findKey_body hes hk he hep

theorem jsonContainsKey_eq (hj : Pairs j ps) (hk : key.Holds k) :
    jsonContainsKey j key = .ok (if (lookup k ps).isSome then 1 else 0) := by
  obtain ⟨r, hfind, hr⟩ := findKey_returns hj hk
  rw [jsonContainsKey, hfind, ok_bind]
  generalize lookup k ps = p at hr ⊢
  cases hr <;> rfl

/-- A lookup that succeeds returns the value slot of the first match. -/
theorem getVal_returns (hj : Pairs j ps) (hk : key.Holds k) {p : Pair}
    (hp : lookup k ps = some p) :
    Returns (getVal j key) fun slot => Option.Rel Str.Holds slot p.2 := by
  obtain ⟨r, hfind, hr⟩ := findKey_returns hj hk
  rw [hp] at hr
  cases hr with
  | some he =>
      rw [getVal, hfind, ok_bind]
      exact returns_ok.mpr he.2

/-- A lookup that fails exits. -/
theorem getVal_exits (hj : Pairs j ps) (hk : key.Holds k) (hp : lookup k ps = none) :
    getVal j key = .error (.exit 0) := by
  obtain ⟨r, hfind, hr⟩ := findKey_returns hj hk
  rw [hp] at hr
  cases hr
  rw [getVal, hfind]
  rfl

end Json

end TelnetChat
