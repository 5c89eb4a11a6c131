import TelnetChat.Vip.Server

/-!
# Messages, records and frames

What the functions of `Server.lean` compute, over texts instead of memory.

A received text is accepted when it starts with `"msg:"`.  It is then stored as
a record with the key `"msg"` and the value `chatValue w`, the bytes between
the first two separators.  The frame of a value `v` is `"msg:"`, `v` and a NUL.
No value holds a separator, so a frame is parsed back to its record.
-/

namespace TelnetChat.Vip

open CRuntime TelnetChat

/-! ## Texts -/

/-- The literal `"msg:"`. -/
def msgPrefix : List Byte := bytes "msg:"

theorem msgPrefix_eq : msgPrefix = msgKey ++ [colon] := rfl

theorem msgKey_ne_nil : msgKey ≠ [] := by decide

theorem colon_notMem_msgKey : colon ∉ msgKey := by decide

/-- The value stored for an accepted text. -/
def chatValue (w : List Byte) : List Byte := (w.drop msgPrefix.length).takeWhile (· ≠ colon)

/-- The bytes sent for a value. -/
def frame (v : List Byte) : List Byte := msgPrefix ++ v ++ [0]

/-- The record of an accepted message: one pair, with the key `"msg"`. -/
def ChatRecord (j : Json) (v : List Byte) : Prop := Pairs j [(some msgKey, some v)]

theorem colon_notMem_chatValue (w : List Byte) : colon ∉ chatValue w :=
  Text.notMem_takeWhile colon _

@[simp] theorem chatValue_append (v : List Byte) :
    chatValue (msgPrefix ++ v) = v.takeWhile (· ≠ colon) := by
  rw [chatValue, List.drop_left]

/-- The key of a text is `"msg"` exactly when the text starts with `"msg:"`. -/
theorem fields_key_eq_msgKey {w : List Byte} :
    (fields w).1 = some msgKey ↔ msgPrefix <+: w := by
  rw [fields_key_iff msgKey_ne_nil, msgPrefix_eq]
  exact and_iff_right colon_notMem_msgKey

theorem fields_of_accepted {w : List Byte} (h : msgPrefix <+: w) :
    fields w = (some msgKey, some (chatValue w)) := by
  obtain ⟨r, rfl⟩ := h
  rw [chatValue_append, msgPrefix_eq, List.append_assoc, List.singleton_append,
    fields_append colon_notMem_msgKey (Or.inl msgKey_ne_nil)]

theorem lookup_msgKey_fields (w : List Byte) :
    (lookup msgKey [fields w]).isSome ↔ msgPrefix <+: w := by
  rw [← fields_key_eq_msgKey, lookup]
  by_cases h : (fields w).1 = some msgKey
  · simp [h]
  · simp [h]

/-- A received buffer is the C string of its bytes before the first NUL, if a
NUL was received or the buffer was not filled. -/
theorem Chunk.recv_cstr {chunk : Chunk} (h : 0 ∈ chunk.bytes ∨ chunk.bytes.length < 20) :
    CStr chunk.recv.buf (chunk.bytes.takeWhile (· ≠ 0)) := by
  rw [Chunk.recv]
  rcases Text.first_piece 0 chunk.bytes with hnul | ⟨w, t, heq, hw⟩
  · -- no NUL was received, so the next byte is one of `calloc`
    have hlt := h.resolve_left hnul
    obtain ⟨n, hn⟩ : ∃ n, 20 - chunk.bytes.length = n + 1 :=
      Nat.exists_eq_add_one.mpr (Nat.sub_pos_of_lt hlt)
    rw [Text.takeWhile_of_notMem hnul, hn]
    exact .of_eq (calloc n) hnul rfl
  · rw [heq, Text.takeWhile_piece hw]
    exact .of_eq (t.map some ++ calloc (20 - (w ++ 0 :: t).length)) hw (by simp)

section Codec

variable {reg : Registry} {js : List Json} {msg key value : Block Byte} {w k v : List Byte}

theorem msgKey_string : Returns (getStringFrom (cstr msgKey)) fun s => s.Holds msgKey :=
  getStringFrom_returns (cstr_cstr (by decide))

/-! ## Storing -/

/-- `processMsgFromClient` adds a record for an accepted text, and nothing for
another one. -/
theorem processMsgFromClient_returns (hreg : reg.Holds js) (hmsg : CStr msg w) :
    Returns (processMsgFromClient reg msg) fun reg' =>
      if msgPrefix <+: w then ∃ j, reg'.Holds (js ++ [j]) ∧ ChatRecord j (chatValue w)
      else reg' = reg := by
  apply (getStringFrom_returns hmsg).bind
  intro res hres
  apply (addJson_returns pairs_nil hres).bind
  intro chat hchat
  apply msgKey_string.bind
  intro key hkey
  rw [List.nil_append] at hchat
  rw [jsonContainsKey_eq hchat hkey, ok_bind]
  by_cases h : msgPrefix <+: w
  · rw [if_pos ((lookup_msgKey_fields w).mpr h), if_pos (by decide)]
    simp only [if_pos h]
    rw [fields_of_accepted h] at hchat
    exact (addReg_returns hreg chat).mono fun reg' hreg' => ⟨chat, hreg', hchat⟩
  · rw [if_neg (mt (lookup_msgKey_fields w).mp h), if_neg (by decide), pure_eq_ok, returns_ok]
    simp only [if_neg h]

/-! ## Encoding -/

theorem createColonString_returns (hkey : CStr key k) (hvalue : CStr value v) :
    Returns (createColonString key value) fun res => res.Holds (k ++ colon :: v) := by
  have hempty : CStr (calloc (k.length + 1 + (v.length + 1) + 1)) [] :=
    .of_eq (List.replicate (k.length + 1 + (v.length + 1)) (some 0)) (by simp)
      (by simp [calloc, List.replicate_succ])
  have hsep : CStr (cstr [colon]) [colon] := cstr_cstr (by decide)
  rw [createColonString, strLen_eq hkey, ok_bind, strLen_eq hvalue, ok_bind]
  refine (strcat_returns hempty hkey ?_).bind fun b₁ h₁ => ?_
  · rw [length_calloc, List.length_nil]
    omega
  refine (strcat_returns h₁.1 hsep ?_).bind fun b₂ h₂ => ?_
  · rw [h₁.2, length_calloc, List.nil_append, List.length_singleton]
    omega
  refine (strcat_returns h₂.1 hvalue ?_).bind fun b₃ h₃ => ?_
  · rw [h₂.2, h₁.2, length_calloc, List.nil_append, List.length_append, List.length_singleton]
    omega
  simpa using getStringFrom_returns h₃.1

/-- `sendMsg` sends the text and its NUL. -/
theorem sendMsg_eq (hmsg : CStr msg w) : sendMsg msg = .ok (w ++ [0]) := by
  rw [sendMsg, strLen_eq hmsg, ok_bind]
  exact hmsg.loadMany_eq

/-- The frame built for a record is the frame of its value. -/
theorem syncEntry_eq (hreg : reg.Holds js) {i : Nat} (hi : i < js.length)
    (hj : ChatRecord js[i] v) : syncEntry reg i = .ok (frame v) := by
  obtain ⟨es, hes, hps⟩ := id hj
  cases hps with
  | @cons e _ _ _ he hnil =>
      cases hnil
      obtain ⟨hkey, hvalue⟩ := he
      obtain ⟨key, hkslot, hk⟩ := slot_written hkey
      obtain ⟨value, hvslot, hv⟩ := slot_written hvalue
      obtain ⟨keyString, hkeyString, hks⟩ := msgKey_string
      obtain ⟨slot, hgetVal, hslot⟩ := getVal_returns hj hks (lookup_cons_self msgKey _ [])
      cases hslot with
      | @some valueString _ hvs =>
          obtain ⟨res, hcolon, hres⟩ := createColonString_returns hks.text hvs.text
          have hentry : js[i].cells.load 0 = .ok e := hes.load_eq (by simp)
          rw [syncEntry, hreg.load_eq hi, ok_bind, hentry, ok_bind, hkslot, hvslot]
          simp only [Block.written, ok_bind, strLen_eq hk.text, strLen_eq hv.text, hkeyString,
            hgetVal, hcolon, sendMsg_eq hres.text]
          simp [frame, msgPrefix_eq]

end Codec

end TelnetChat.Vip
