import TelnetChat.Pointer.Json
import TelnetChat.Vip.Codec

/-!
# Messages with pointers (`chat_server_vip.c`)

The functions of a client thread over a memory.  `processMsgFromClient` leaves
`messageBlocks w` buffers for the text `w`, whether or not it stores a record, and a
record keeps two of them.  A frame that is sent leaves three, and none of them is
reachable afterwards.
-/

namespace TelnetChat.Pointer

open CRuntime TelnetChat Vip

/-! ## The source -/

/-- The flag, for what `recv` returns.  The bytes go to `buf`. -/
def recvFromSocket (ret : RecvRet) (buf : Ptr) : Heaped Byte Int :=
  match ret with
  | .error => pure (-1)
  | .closed => pure 1
  | .data chunk => do
      Heaped.copy buf (.literal (chunk.bytes.map some)) 0 chunk.bytes.length
      pure 0

def processMsgFromClient (unset : Exec Int) (chat_reg : Registry) (msg : Source Byte) :
    Heaped Byte Registry := do
  let res ← getStringFrom msg
  let chat ← addJson createJson res
  let key ← getStringFrom (.literal (cstr msgKey))
  let found ← jsonContainsKey unset chat key
  if found ≠ 0 then addReg chat_reg chat else pure chat_reg

def createColonString (key value : Source Byte) : Heaped Byte Str := do
  let keylen ← strLen key
  let valuelen ← strLen value
  let container ← Heaped.alloc (calloc (keylen + valuelen + 1))
  Heaped.strcat container key
  Heaped.strcat container (.literal (cstr [colon]))
  Heaped.strcat container value
  getStringFrom (.heap container)

/-- The bytes passed to `send`. -/
def sendMsg (msg : Source Byte) : Heaped Byte (List Byte) := do
  let len ← strLen msg
  let b ← Heaped.read msg
  b.loadMany len 0

/-- The body of the loop of `syncMsgToClient`, at the entry `msgcounter`. -/
def syncEntry (unset : Exec Int) (chat_reg : Registry) (msgcounter : Nat) :
    Heaped Byte (List Byte) := do
  let chat ← chat_reg.cells.load msgcounter
  let entry ← chat.cells.load 0
  let printedKey ← Block.written entry.key
  let printedValue ← Block.written entry.value
  let _ ← strLen (.heap printedKey.string)
  let _ ← strLen (.heap printedValue.string)
  let keyString ← getStringFrom (.literal (cstr msgKey))
  let slot ← getVal unset chat keyString
  let valueString ← Block.written slot
  let res ← createColonString (.heap keyString.string) (.heap valueString.string)
  sendMsg (.heap res.string)

/-! ## Records -/

/-- The record of an accepted message, with its two strings. -/
structure ChatRecord (m : Memory Byte) (j : Json) (key value : Str) (v : List Byte) : Prop where
  entry : j.Holds [⟨some key, some value⟩]
  key_text : key.Holds m msgKey
  value_text : value.Holds m v

/-- The buffers that a received text leaves. -/
def messageBlocks (w : List Byte) : Nat := 2 + splitBlocks colon w

section Messages

variable {m : Memory Byte} {reg : Registry} {js : List Json} {src : Source Byte} {a : Block Byte}
  {w v k : List Byte} {j : Json} {key value : Str} {unset : Exec Int}

theorem ChatRecord.pairs (h : ChatRecord m j key value v) :
    Pairs m j [(some msgKey, some v)] :=
  ⟨_, h.entry, .cons ⟨.some h.key_text, .some h.value_text⟩ .nil⟩

/-- The key of a record is written. -/
theorem compared_record (unset : Exec Int) (k v : List Byte) :
    Compared unset [(some k, some v)] := by
  intro p hp hnone
  rw [List.mem_singleton.mp hp] at hnone
  cases hnone

theorem msgKey_string (m : Memory Byte) :
    Heaped.Yields (getStringFrom (.literal (cstr msgKey))) m fun s m' =>
      s.Holds m' msgKey ∧ m.length ≤ s.string ∧ ∀ P, Memory.Grows P 1 m m' :=
  getStringFrom_yields rfl (cstr_cstr (by decide))

/-- Strings with two texts at the front are two strings, in two buffers. -/
theorem Strings.first_two {n : Nat} {xs : List Str} {ws : List (List Byte)}
    (h : Strings m n xs ws) (hk : ws[0]? = some k) (hv : ws[1]? = some v) :
    ∃ key value, xs[0]? = some key ∧ xs[1]? = some value ∧ key.Holds m k ∧ value.Holds m v ∧
      key.string ≠ value.string ∧ n ≤ key.string ∧ n ≤ value.string := by
  obtain ⟨htexts, hnodup, hfresh⟩ := h
  cases htexts with
  | nil => cases hk
  | @cons key _ xs _ hkey htexts =>
      cases htexts with
      | nil => cases hv
      | @cons value _ xs _ hvalue htexts =>
          cases hk
          cases hv
          rw [List.map_cons, List.map_cons, List.nodup_cons] at hnodup
          refine ⟨key, value, rfl, rfl, hkey, hvalue, ?_, hfresh key (by simp),
            hfresh value (by simp)⟩
          intro heq
          exact hnodup.1 (heq ▸ List.mem_cons_self)

/-- An accepted text is stored, with two new buffers, and another one is not.  Nothing that
was there before is touched. -/
theorem processMsgFromClient_yields (hreg : reg.Holds js) (hsrc : m.source src = .ok a)
    (ha : CStr a w) (hunset : Compared unset [fields w]) :
    Heaped.Yields (processMsgFromClient unset reg src) m fun reg' m' =>
      (if msgPrefix <+: w then
        ∃ j key value, reg'.Holds (js ++ [j]) ∧ ChatRecord m' j key value (chatValue w) ∧
          key.string ≠ value.string ∧ m.length ≤ key.string ∧ m.length ≤ value.string
      else reg' = reg) ∧
      ∀ P, Memory.Grows P (messageBlocks w) m m' := by
  obtain ⟨res, m₁, hres, hw, _, hm₁⟩ := getStringFrom_yields hsrc ha
  obtain ⟨chat, m₂, hchat, xs, hentry, htexts, hm₂⟩ := addJson_yields hw
  obtain ⟨key, m₃, hkey, hk, _, hm₃⟩ := msgKey_string m₂
  have htexts₃ := htexts.grow (hm₃ fun _ => True) fun _ _ => trivial
  have hpairs : Pairs m₃ chat [fields w] :=
    ⟨_, hentry, .cons ⟨htexts₃.slot 0, htexts₃.slot 1⟩ .nil⟩
  have hfound := jsonContainsKey_run hpairs hk hunset
  have hgrown : ∀ P, Memory.Grows P (messageBlocks w) m m₃ := by
    intro P
    have hm := ((hm₁ P).then hm₂ fun p hp _ => Nat.lt_of_lt_of_le hp
      (hm₁ P).length_le).then (hm₃ fun _ => True) fun _ _ _ => trivial
    rwa [show 1 + splitBlocks colon w + 1 = messageBlocks w by rw [messageBlocks]; omega] at hm
  refine .bind_eq hres (.bind_eq hchat (.bind_eq hkey (.bind_eq hfound ?_)))
  by_cases h : msgPrefix <+: w
  · rw [if_pos ((lookup_msgKey_fields w).mpr h), if_pos (by decide)]
    simp only [if_pos h]
    obtain ⟨reg', hadd, hreg'⟩ := addReg_returns hreg chat
    have hfields := Prod.mk.inj (fields_of_accepted h)
    obtain ⟨key', value, h0, h1, hk', hv, hne, hkey', hvalue⟩ :=
      htexts₃.first_two hfields.1 hfields.2
    rw [h0, h1] at hentry
    have hle := (hm₁ fun _ => True).length_le
    exact .of_eq (Heaped.lift_run hadd m₃) ⟨⟨chat, key', value, hreg', ⟨hentry, hk', hv⟩, hne,
      Nat.le_trans hle hkey', Nat.le_trans hle hvalue⟩, hgrown⟩
  · rw [if_neg (mt (lookup_msgKey_fields w).mp h), if_neg (by decide)]
    simp only [if_neg h]
    exact Heaped.yields_pure ⟨rfl, hgrown⟩

/-- The container of `createColonString` and the string made from it are two new
buffers. -/
theorem createColonString_yields {b b' : Block Byte} {ks vs : Source Byte}
    (hks : m.source ks = .ok b) (hkey : CStr b k) (hvs : m.source vs = .ok b')
    (hvalue : CStr b' v) :
    Heaped.Yields (createColonString ks vs) m fun s m' =>
      s.Holds m' (k ++ colon :: v) ∧ ∀ P, Memory.Grows P 2 m m' := by
  have hempty : CStr (calloc (k.length + 1 + (v.length + 1) + 1)) [] :=
    .of_eq (List.replicate (k.length + 1 + (v.length + 1)) (some 0)) (by simp)
      (by simp [calloc, List.replicate_succ])
  have hsep : CStr (cstr [colon]) [colon] := cstr_cstr (by decide)
  obtain ⟨b₁, hcat₁, h₁, hlen₁⟩ := strcat_returns hempty hkey (by
    rw [length_calloc, List.length_nil]
    omega)
  obtain ⟨b₂, hcat₂, h₂, hlen₂⟩ := strcat_returns h₁ hsep (by
    rw [hlen₁, length_calloc, List.nil_append, List.length_singleton]
    omega)
  obtain ⟨b₃, hcat₃, h₃, _⟩ := strcat_returns h₂ hvalue (by
    rw [hlen₂, hlen₁, length_calloc, List.nil_append, List.length_append, List.length_singleton]
    omega)
  -- the container after `calloc` and each `strcat`
  have hp := Memory.at_concat m (calloc (k.length + 1 + (v.length + 1) + 1))
  have hp₁ := hp.set b₁
  have hp₂ := hp₁.set b₂
  have hm₀ := Memory.grows_concat (fun _ => True) m (calloc (k.length + 1 + (v.length + 1) + 1))
  have hm₂ := (hm₀.set hp (Nat.le_refl _) b₁).set hp₁ (Nat.le_refl _) b₂
  have hm₃ := hm₂.set hp₂ (Nat.le_refl _) b₃
  obtain ⟨s, m', hget, hs, _, hm'⟩ := getStringFrom_yields (hp₂.set b₃).source h₃
  refine .bind_eq (strLen_run hks (strLen_eq hkey)) (.bind_eq (strLen_run hvs (strLen_eq hvalue))
    (.bind_eq (Heaped.alloc_run _ m)
    (.bind_eq (Heaped.strcat_run hp (hm₀.source hks fun _ _ => trivial)
      (Memory.source_ne_next hks) hcat₁)
    (.bind_eq (Heaped.strcat_run hp₁ (Memory.source_literal _ _) (Memory.literal_ne_heap _ _) hcat₂)
    (.bind_eq (Heaped.strcat_run hp₂ (hm₂.source hvs fun _ _ => trivial)
      (Memory.source_ne_next hvs) hcat₃)
    (.of_eq hget ⟨?_, fun P => ?_⟩))))))
  · simpa using hs
  · exact (hm₃.mono fun _ _ _ => trivial).trans (hm' P)

theorem sendMsg_run (hsrc : m.source src = .ok a) (ha : CStr a w) :
    (sendMsg src).run m = .ok (w ++ [0], m) := by
  rw [sendMsg, Heaped.bind_run (strLen_run hsrc (strLen_eq ha)),
    Heaped.bind_run (Heaped.read_run hsrc)]
  exact Heaped.lift_run ha.loadMany_eq m

/-- The frame of a record is sent, and three buffers are left. -/
theorem syncEntry_yields (hreg : reg.Holds js) {i : Nat} (hi : js[i]? = some j)
    (hj : ChatRecord m j key value v) :
    Heaped.Yields (syncEntry unset reg i) m fun sent m' =>
      sent = frame v ∧ ∀ P, Memory.Grows P 3 m m' := by
  obtain ⟨hlt, rfl⟩ := List.getElem?_eq_some_iff.mp hi
  obtain ⟨kb, hkb, hk⟩ := hj.key_text.source
  obtain ⟨vb, hvb, hv⟩ := hj.value_text.source
  obtain ⟨keyString, m₁, hkeyString, hks, _, hm₁⟩ := msgKey_string m
  have hrecord : ChatRecord m₁ js[i] key value v :=
    ⟨hj.entry, hj.key_text.grow (hm₁ fun _ => True) trivial,
      hj.value_text.grow (hm₁ fun _ => True) trivial⟩
  obtain ⟨slot, _, hgetVal, rfl, hslot⟩ :=
    getVal_yields hrecord.pairs hks (compared_record unset msgKey v) (lookup_cons_self msgKey _ [])
  cases hslot with
  | @some valueString _ hvs =>
      obtain ⟨ksb, hksb, hkst⟩ := hks.source
      obtain ⟨vsb, hvsb, hvst⟩ := hvs.source
      obtain ⟨res, m', hcolon, hres, hm'⟩ := createColonString_yields hksb hkst hvsb hvst
      obtain ⟨rb, hrb, hr⟩ := hres.source
      refine .bind_eq (Heaped.lift_run (hreg.load_eq hlt) m)
        (.bind_eq (Heaped.lift_run (hj.entry.load_eq (by simp)) m)
        (.bind_eq (Heaped.lift_run rfl m) (.bind_eq (Heaped.lift_run rfl m)
        (.bind_eq (strLen_run hkb (strLen_eq hk)) (.bind_eq (strLen_run hvb (strLen_eq hv))
        (.bind_eq hkeyString (.bind_eq hgetVal (.bind_eq (Heaped.lift_run rfl _)
        (.bind_eq hcolon (.of_eq (sendMsg_run hrb hr) ⟨?_, fun P => ?_⟩))))))))))
      · simp [frame, msgPrefix_eq]
      · exact (hm₁ P).trans (hm' P)

end Messages

end TelnetChat.Pointer
