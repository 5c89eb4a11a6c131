import TelnetChat.Json

/-!
# `Json` as a map of first bindings

`addAll` fills a fresh `Json` with strings `key:value`, where no key is empty
and neither part has a separator.  It then is the association list of these
bindings, in insertion order.  A lookup answers with the first binding of its
key (`addAll_firstBinding`), by `List.lookup`.

Its answer depends on the texts alone (`SameAnswer`), and a lookup that found a
value finds the same slot after any later `addJson` (`addJson_keeps_getVal`).
-/

namespace TelnetChat

open CRuntime

/-- A fresh `Json`, and an `addJson` for each string. -/
def addAll (strs : List Str) : Exec Json := strs.foldlM addJson createJson

/-- A key and its value. -/
abbrev Binding : Type := List Byte × List Byte

/-- The key is not empty, and a separator is in neither part. -/
def Binding.Plain (kv : Binding) : Prop := kv.1 ≠ [] ∧ colon ∉ kv.1 ∧ colon ∉ kv.2

/-- The text `key:value`. -/
def Binding.text (kv : Binding) : List Byte := kv.1 ++ colon :: kv.2

/-- The lookup returns a string with the text `v`. -/
def Finds (answer : Exec (Option Str)) (v : List Byte) : Prop :=
  Returns answer fun slot => ∃ s, slot = some s ∧ s.Holds v

/-- Two lookups that both exit, or return strings with one text. -/
def SameAnswer (answer answer' : Exec (Option Str)) : Prop :=
  answer = .error (.exit 0) ∧ answer' = .error (.exit 0) ∨
    ∃ v, Finds answer v ∧ Finds answer' v

/-- `j` answers like the bindings `kvs` do. -/
structure FirstBinding (kvs : List Binding) (j : Json) : Prop where
  contains : ∀ {key k}, key.Holds k →
    jsonContainsKey j key = .ok (if k ∈ kvs.map Prod.fst then 1 else 0)
  exits : ∀ {key k}, key.Holds k →
    (getVal j key = .error (.exit 0) ↔ jsonContainsKey j key = .ok 0)
  /-- The value of the least index with the key. -/
  first : ∀ {key k v} {i : Nat}, key.Holds k → kvs[i]? = some (k, v) →
    (∀ i' < i, ∀ v', kvs[i']? ≠ some (k, v')) → Finds (getVal j key) v
  /-- A later `addJson` of any string leaves the answer as it is. -/
  keeps : ∀ {key slot str w}, getVal j key = .ok slot → str.Holds w →
    Returns (addJson j str) fun j' => getVal j' key = .ok slot
  /-- Keys with one text are one key. -/
  congr : ∀ {key key' k}, key.Holds k → key'.Holds k →
    jsonContainsKey j key = jsonContainsKey j key' ∧ getVal j key = getVal j key'

section JsonMap

variable {j j' : Json} {ps : List Pair} {key key' str : Str} {k v w : List Byte}
  {kvs : List Binding}

/-! ## Lookups in the array of entries -/

/-- The search depends on the text of the key alone. -/
theorem findKey_congr (hj : Pairs j ps) (hk : key.Holds k) (hk' : key'.Holds k) :
    findKey j key = findKey j key' := by
  obtain ⟨es, hes, hps⟩ := hj
  apply findUp_congr
  intro i _ hi
  rw [Nat.zero_add, hes.size_eq] at hi
  have hi' : i < ps.length := hps.length_eq ▸ hi
  have hentry := hps.get hi hi'
  rw [findKey_body hes hk (List.getElem?_eq_getElem hi) hentry,
    findKey_body hes hk' (List.getElem?_eq_getElem hi) hentry]

theorem getVal_eq_ok {slot : Option Str} :
    getVal j key = .ok slot ↔ ∃ e, findKey j key = .ok (some e) ∧ e.value = slot := by
  rw [getVal, bind_eq_ok]
  constructor
  · rintro ⟨r, hfind, hr⟩
    cases r with
    | none => cases hr
    | some e => exact ⟨e, hfind, Except.ok.inj hr⟩
  · rintro ⟨e, hfind, rfl⟩
    exact ⟨some e, hfind, rfl⟩

/-- A lookup that found a slot finds the same one after a later `addJson`. -/
theorem addJson_keeps_getVal (hj : Pairs j ps) {slot : Option Str}
    (hfound : getVal j key = .ok slot) (h : str.Holds w) :
    Returns (addJson j str) fun j' => getVal j' key = .ok slot := by
  obtain ⟨es, hes, hps⟩ := hj
  obtain ⟨e, hfind, hslot⟩ := getVal_eq_ok.mp hfound
  apply (addJson_stores hes h).mono
  intro j' hj'
  obtain ⟨e', _, he', hes'⟩ := hj'
  refine getVal_eq_ok.mpr ⟨e, ?_, hslot⟩
  have hsize : j'.size = j.size + 1 := by
    rw [hes'.size_eq, hes.size_eq, List.length_append, List.length_singleton]
  rw [findKey, hsize]
  apply findUp_append
  rw [← hfind, findKey]
  apply findUp_congr
  intro i _ hi
  rw [Nat.zero_add] at hi
  -- the entries the old search read are where they were
  rw [hes.load_of_append hes' hi]

/-! ## The bindings of the texts -/

theorem fields_text {kv : Binding} (h : kv.Plain) : fields kv.text = (some kv.1, some kv.2) := by
  obtain ⟨hne, hkey, hvalue⟩ := h
  rw [Binding.text, fields_append hkey (Or.inl hne), List.takeWhile_eq_self_iff.mpr]
  intro x hx
  exact decide_eq_true fun hc => hvalue (hc ▸ hx)

/-- The first pair of a key is its first binding. -/
theorem lookup_map_fields (hkvs : ∀ kv ∈ kvs, kv.Plain) (k : List Byte) :
    lookup k (kvs.map fun kv => fields kv.text) =
      (kvs.lookup k).map fun v => (some k, some v) := by
  induction kvs with
  | nil => rfl
  | cons kv kvs ih =>
      rw [List.map_cons, fields_text (hkvs kv List.mem_cons_self)]
      have hrest := ih fun kv' hkv' => hkvs kv' (List.mem_cons_of_mem kv hkv')
      obtain ⟨k', v⟩ := kv
      by_cases hk : k' = k
      · subst hk
        rw [lookup_cons_self, List.lookup_cons_self]
        rfl
      · rw [lookup_cons_of_ne (by simpa using hk), List.lookup_cons, hrest,
          beq_eq_false_iff_ne.mpr (Ne.symm hk)]

theorem isSome_lookup_iff (k : List Byte) :
    (kvs.lookup k).isSome = true ↔ k ∈ kvs.map Prod.fst := by
  rw [List.lookup_isSome_iff, List.mem_map]
  simp only [beq_iff_eq, eq_comm (a := k)]

/-- The first binding of a key is the one of the least index. -/
theorem lookup_of_least {i : Nat} (hi : kvs[i]? = some (k, v))
    (hleast : ∀ i' < i, ∀ v', kvs[i']? ≠ some (k, v')) : kvs.lookup k = some v := by
  induction kvs generalizing i with
  | nil => cases hi
  | cons kv kvs ih =>
      cases i with
      | zero =>
          cases hi
          exact List.lookup_cons_self
      | succ i =>
          have hk : k ≠ kv.1 := by
            rintro rfl
            exact hleast 0 i.succ_pos kv.2 rfl
          rw [List.lookup_cons, beq_eq_false_iff_ne.mpr hk]
          exact ih hi fun i' hi' v' => hleast (i' + 1) (Nat.succ_lt_succ hi') v'

/-- A key that is bound has a first binding. -/
theorem exists_least (h : k ∈ kvs.map Prod.fst) :
    ∃ v, ∃ i : Nat, kvs[i]? = some (k, v) ∧ ∀ i' < i, ∀ v', kvs[i']? ≠ some (k, v') := by
  obtain ⟨v, hv⟩ := Option.isSome_iff_exists.mp ((isSome_lookup_iff k).mpr h)
  obtain ⟨before, after, rfl, hbefore⟩ := List.lookup_eq_some_iff.mp hv
  refine ⟨v, before.length, by simp, fun i' hi' v' hfound => ?_⟩
  rw [List.getElem?_append_left hi'] at hfound
  have hne := hbefore _ (List.mem_of_getElem? hfound)
  simp at hne

/-! ## The map -/

theorem firstBinding_of_pairs (hkvs : ∀ kv ∈ kvs, kv.Plain)
    (hj : Pairs j (kvs.map fun kv => fields kv.text)) : FirstBinding kvs j := by
  have contains : ∀ {key k}, key.Holds k →
      jsonContainsKey j key = .ok (if k ∈ kvs.map Prod.fst then 1 else 0) := by
    intro key k hk
    rw [jsonContainsKey_eq hj hk, lookup_map_fields hkvs, Option.isSome_map]
    simp only [isSome_lookup_iff]
  have finds : ∀ {key k v}, key.Holds k → kvs.lookup k = some v → Finds (getVal j key) v := by
    intro key k v hk hv
    have hlookup := lookup_map_fields hkvs k
    rw [hv] at hlookup
    exact (getVal_returns hj hk hlookup).mono fun _ h => slot_written h
  refine ⟨contains, ?_, ?_, ?_, ?_⟩
  · intro key k hk
    rw [contains hk]
    cases hv : kvs.lookup k with
    | none =>
        have hlookup := lookup_map_fields hkvs k
        rw [hv] at hlookup
        have hnot : k ∉ kvs.map Prod.fst := by
          simp [← isSome_lookup_iff, hv]
        rw [getVal_exits hj hk hlookup, if_neg hnot]
        exact iff_of_true rfl rfl
    | some v =>
        have hmem : k ∈ kvs.map Prod.fst := by
          simp [← isSome_lookup_iff, hv]
        obtain ⟨slot, hget, _⟩ := finds hk hv
        rw [hget, if_pos hmem]
        exact iff_of_false (fun h => by cases h) fun h => by cases h
  · intro key k i v hk hi hleast
    exact finds hk (lookup_of_least hi hleast)
  · intro key slot str w hfound h
    exact addJson_keeps_getVal hj hfound h
  · intro key key' k hk hk'
    have hfind := findKey_congr hj hk hk'
    rw [jsonContainsKey, jsonContainsKey, getVal, getVal, hfind]
    exact ⟨rfl, rfl⟩

/-- Filling adds the fields of every text. -/
theorem addAll_returns {strs : List Str} {ws : List (List Byte)}
    (h : List.Forall₂ Str.Holds strs ws) :
    Returns (addAll strs) fun j => Pairs j (ws.map fields) := by
  have hstep : ∀ j ws str w, Str.Holds str w → Pairs j (ws.map fields) →
      Returns (addJson j str) fun j' => Pairs j' ((ws ++ [w]).map fields) := by
    intro j ws str w hw hj
    simpa using addJson_returns hj hw
  have hstart : Pairs createJson (([] : List (List Byte)).map fields) := pairs_nil
  exact foldlM_returns (I := fun ws j => Pairs j (ws.map fields)) h hstep hstart

theorem addAll_firstBinding_texts {strs : List Str} (hkvs : ∀ kv ∈ kvs, kv.Plain)
    (h : List.Forall₂ (fun str kv => str.Holds (Binding.text kv)) strs kvs) :
    Returns (addAll strs) (FirstBinding kvs) := by
  apply (addAll_returns (List.forall₂_map_right_iff.mpr h)).mono
  intro j hj
  rw [List.map_map] at hj
  exact firstBinding_of_pairs hkvs hj

/-- Two fillings with one list of bindings answer alike. -/
theorem FirstBinding.sameAnswer (h : FirstBinding kvs j) (h' : FirstBinding kvs j')
    (hk : key.Holds k) (hk' : key'.Holds k) :
    jsonContainsKey j key = jsonContainsKey j' key' ∧
      SameAnswer (getVal j key) (getVal j' key') := by
  have hcontains := h.contains hk
  have hcontains' := h'.contains hk'
  refine ⟨hcontains.trans hcontains'.symm, ?_⟩
  by_cases hmem : k ∈ kvs.map Prod.fst
  · right
    obtain ⟨v, i, hi, hleast⟩ := exists_least hmem
    exact ⟨v, h.first hk hi hleast, h'.first hk' hi hleast⟩
  · left
    rw [if_neg hmem] at hcontains hcontains'
    exact ⟨(h.exits hk).mpr hcontains, (h'.exits hk').mpr hcontains'⟩

/-- A `Json` filled with `key:value` strings is the map of the first bindings.
Its answers depend on the texts alone. -/
theorem addAll_firstBinding {strs : List Str} (hkvs : ∀ kv ∈ kvs, kv.Plain)
    (h : List.Forall₂ (fun str kv => str.Holds (Binding.text kv)) strs kvs) :
    Returns (addAll strs) fun j => FirstBinding kvs j ∧
      ∀ strs', List.Forall₂ (fun str kv => str.Holds (Binding.text kv)) strs' kvs →
        Returns (addAll strs') fun j' => ∀ key key' k, key.Holds k → key'.Holds k →
          jsonContainsKey j key = jsonContainsKey j' key' ∧
            SameAnswer (getVal j key) (getVal j' key') := by
  refine (addAll_firstBinding_texts hkvs h).mono fun j hj => ⟨hj, fun strs' h' => ?_⟩
  apply (addAll_firstBinding_texts hkvs h').mono
  intro j' hj' key key' k hk hk'
  exact hj.sameAnswer hj' hk hk'

/-- A key bound twice. -/
theorem addAll_firstBinding_two :
    ∃ s s', getStringFrom (cstr (bytes "msg:a")) = .ok s ∧
      getStringFrom (cstr (bytes "msg:b")) = .ok s' ∧
      Returns (addAll [s, s']) fun j =>
        FirstBinding [(bytes "msg", bytes "a"), (bytes "msg", bytes "b")] j ∧
        ∀ strs', List.Forall₂ (fun str kv => str.Holds (Binding.text kv)) strs'
            [(bytes "msg", bytes "a"), (bytes "msg", bytes "b")] →
          Returns (addAll strs') fun j' => ∀ key key' k, key.Holds k → key'.Holds k →
            jsonContainsKey j key = jsonContainsKey j' key' ∧
              SameAnswer (getVal j key) (getVal j' key') := by
  obtain ⟨s, hget, hs⟩ := getStringFrom_returns (cstr_cstr (by decide) : CStr _ (bytes "msg:a"))
  obtain ⟨s', hget', hs'⟩ := getStringFrom_returns (cstr_cstr (by decide) : CStr _ (bytes "msg:b"))
  exact ⟨s, s', hget, hget', addAll_firstBinding (by simp only [Binding.Plain]; decide)
    (.cons hs (.cons hs' .nil))⟩

end JsonMap

end TelnetChat
