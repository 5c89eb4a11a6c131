import TelnetChat.Vip.Codec

/-!
# Acceptance, round trips and relaying

The server stores a message exactly when its text starts with `"msg:"`.  A
value comes back from its record cut at its first separator, since `createEntry`
keeps two pieces and the encoder puts no restriction on the value.  So the
codec round-trips exactly on the values without a separator.  The values that
are stored have none, which makes a relayed frame a fixed point of the parser.
-/

namespace TelnetChat.Vip

open CRuntime TelnetChat

/-- Build the record of a pair, add it to an empty `Json` and look the key up. -/
def roundTrip (key value : Block Byte) : Exec (Option Str) := do
  let record ← createColonString key value
  let json ← addJson createJson record
  let k ← getStringFrom key
  getVal json k

/-- Process a message and build the frame of the entry it added. -/
def relay (chat_reg : Registry) (msg : Block Byte) : Exec (List Byte) := do
  let chat_reg' ← processMsgFromClient chat_reg msg
  syncEntry chat_reg' chat_reg.size

/-- The value of `"msg"` in the entry at `i`. -/
def storedValue (chat_reg : Registry) (i : Nat) : Exec (Option Str) := do
  let chat ← chat_reg.cells.load i
  let key ← getStringFrom (cstr msgKey)
  getVal chat key

section Relay

variable {reg reg' : Registry} {js : List Json} {msg key value : Block Byte} {w k v : List Byte}

/-! ## Acceptance -/

theorem storedValue_returns (hreg : reg.Holds js) {i : Nat} (hi : i < js.length)
    (hrecord : ChatRecord js[i] v) :
    ∃ value, storedValue reg i = .ok (some value) ∧ value.Holds v := by
  obtain ⟨key, hkey, hk⟩ := msgKey_string
  obtain ⟨slot, hgetVal, hslot⟩ := getVal_returns hrecord hk (lookup_cons_self msgKey _ [])
  obtain ⟨value, rfl, hvalue⟩ := slot_written hslot
  refine ⟨value, ?_, hvalue⟩
  rw [storedValue, hreg.load_eq hi, ok_bind, hkey, ok_bind, hgetVal]

/-- The entry of an accepted text: its index, its value, its frame, and the
entries before it. -/
theorem processMsgFromClient_accepted (hreg : reg.Holds js) (hmsg : CStr msg w)
    (h : msgPrefix <+: w) :
    Returns (processMsgFromClient reg msg) fun reg' =>
      (∃ j, reg'.Holds (js ++ [j])) ∧ reg'.size = reg.size + 1 ∧
      (∃ value, storedValue reg' reg.size = .ok (some value) ∧ value.Holds (chatValue w)) ∧
      syncEntry reg' reg.size = .ok (frame (chatValue w)) ∧
      ∀ i < reg.size, reg'.cells.load i = reg.cells.load i := by
  apply (processMsgFromClient_returns hreg hmsg).mono
  intro reg' hreg'
  rw [if_pos h] at hreg'
  obtain ⟨j, hj, hrecord⟩ := hreg'
  have hsize := hreg.size_eq
  have hlast : reg.size < (js ++ [j]).length := by simp [hsize]
  have hget : ChatRecord (js ++ [j])[reg.size] (chatValue w) := by simpa [hsize] using hrecord
  exact ⟨⟨j, hj⟩, by simp [hj.size_eq, hsize], storedValue_returns hj hlast hget,
    syncEntry_eq hj hlast hget, fun i hi => hreg.load_of_append hj hi⟩

/-- `processMsgFromClient` appends one entry if the text starts with `"msg:"`,
and changes nothing otherwise.  No earlier entry is touched. -/
theorem processMsgFromClient_grammar (hreg : reg.Holds js) (hmsg : CStr msg w) :
    Returns (processMsgFromClient reg msg) fun reg' =>
      (msgPrefix <+: w → reg'.size = reg.size + 1 ∧ ∃ chat, reg'.cells.load reg.size = .ok chat) ∧
      (¬ msgPrefix <+: w → reg' = reg) ∧
      ∀ i < reg.size, reg'.cells.load i = reg.cells.load i := by
  by_cases h : msgPrefix <+: w
  · refine (processMsgFromClient_accepted hreg hmsg h).mono fun reg' hreg' => ?_
    obtain ⟨⟨j, hj⟩, hsize, _, _, hkept⟩ := hreg'
    refine ⟨fun _ => ⟨hsize, j, ?_⟩, fun hn => absurd h hn, hkept⟩
    rw [hj.load_eq (by simp [hreg.size_eq])]
    simp [hreg.size_eq]
  · refine (processMsgFromClient_returns hreg hmsg).mono fun reg' hreg' => ?_
    rw [if_neg h] at hreg'
    subst hreg'
    exact ⟨fun hp => absurd hp h, fun _ => rfl, fun _ _ => rfl⟩

theorem processMsgFromClient_grammar_hi :
    Returns (processMsgFromClient createRegister (cstr (bytes "msg:hi"))) fun reg' =>
      (msgPrefix <+: bytes "msg:hi" → reg'.size = createRegister.size + 1 ∧
        ∃ chat, reg'.cells.load createRegister.size = .ok chat) ∧
      (¬ msgPrefix <+: bytes "msg:hi" → reg' = createRegister) ∧
      ∀ i < createRegister.size, reg'.cells.load i = createRegister.cells.load i :=
  processMsgFromClient_grammar createRegister_holds (cstr_cstr (by decide))

/-! ## The round trip -/

/-- A value comes back as its bytes before the first separator. -/
theorem roundTrip_returns (hkey : CStr key k) (hne : k ≠ []) (hk : colon ∉ k)
    (hvalue : CStr value v) :
    Returns (roundTrip key value) fun slot =>
      ∃ s, slot = some s ∧ s.Holds (v.takeWhile (· ≠ colon)) := by
  apply (createColonString_returns hkey hvalue).bind
  intro record hrecord
  apply (addJson_returns pairs_nil hrecord).bind
  intro json hjson
  apply (getStringFrom_returns hkey).bind
  intro ks hks
  rw [List.nil_append, fields_append hk (Or.inl hne)] at hjson
  exact (getVal_returns hjson hks (lookup_cons_self k _ [])).mono fun _ h => slot_written h

theorem relay_eq (hreg : reg.Holds js) (hmsg : CStr msg (msgPrefix ++ v)) :
    relay reg msg = .ok (frame (v.takeWhile (· ≠ colon))) := by
  obtain ⟨reg', hprocess, _, _, _, hframe, _⟩ :=
    processMsgFromClient_accepted hreg hmsg (List.prefix_append _ _)
  rw [relay, hprocess, ok_bind, hframe, chatValue_append]

/-- The codec returns the value, and the server relays it, exactly when it
holds no separator. -/
theorem codec_roundTrip_iff (hkey : CStr key k) (hne : k ≠ []) (hk : colon ∉ k)
    (hvalue : CStr value v) :
    ((Returns (roundTrip key value) fun slot => ∃ s, slot = some s ∧ s.Holds v) ↔ colon ∉ v) ∧
    ∀ (reg : Registry) (js : List Json) (msg : Block Byte), reg.Holds js →
      CStr msg (msgPrefix ++ v) → (relay reg msg = .ok (msgPrefix ++ v ++ [0]) ↔ colon ∉ v) := by
  constructor
  · obtain ⟨slot, htrip, s, rfl, hs⟩ := roundTrip_returns hkey hne hk hvalue
    rw [htrip, returns_ok, ← Text.takeWhile_eq_self]
    constructor
    · rintro ⟨s', hs', hv⟩
      cases hs'
      exact hs.unique hv
    · intro hv
      exact ⟨s, rfl, by rwa [hv] at hs⟩
  · intro reg js msg hreg hmsg
    rw [relay_eq hreg hmsg, ← Text.takeWhile_eq_self, Except.ok.injEq, frame,
      List.append_left_inj, List.append_right_inj]

theorem codec_roundTrip_iff_name :
    ((Returns (roundTrip (cstr (bytes "user_name")) (cstr (bytes "ann"))) fun slot =>
      ∃ s, slot = some s ∧ s.Holds (bytes "ann")) ↔ colon ∉ bytes "ann") ∧
    ∀ (reg : Registry) (js : List Json) (msg : Block Byte), reg.Holds js →
      CStr msg (msgPrefix ++ bytes "ann") →
      (relay reg msg = .ok (msgPrefix ++ bytes "ann" ++ [0]) ↔ colon ∉ bytes "ann") :=
  codec_roundTrip_iff (cstr_cstr (by decide) : CStr _ (bytes "user_name")) (by decide) (by decide)
    (cstr_cstr (by decide))

/-- An IPv6 address comes back as its first group. -/
theorem roundTrip_cuts_ipv6 :
    (Returns (roundTrip (cstr (bytes "client_ip")) (cstr (bytes "fe80::1"))) fun slot =>
      ∃ s, slot = some s ∧ s.Holds (bytes "fe80")) ∧
    ¬ Returns (roundTrip (cstr (bytes "client_ip")) (cstr (bytes "fe80::1"))) fun slot =>
      ∃ s, slot = some s ∧ s.Holds (bytes "fe80::1") := by
  obtain ⟨slot, htrip, s, rfl, hs⟩ := roundTrip_returns
    (cstr_cstr (by decide) : CStr _ (bytes "client_ip")) (by decide) (by decide)
    (cstr_cstr (by decide) : CStr _ (bytes "fe80::1"))
  have hcut : (bytes "fe80::1").takeWhile (· ≠ colon) = bytes "fe80" := rfl
  rw [hcut] at hs
  rw [htrip, returns_ok, returns_ok]
  refine ⟨⟨s, rfl, hs⟩, ?_⟩
  rintro ⟨s', hs', hv⟩
  cases hs'
  exact absurd (hs.unique hv) (by decide)

/-! ## Relayed frames -/

/-- A block that starts with a frame holds its text. -/
theorem cstr_of_frame {buf : Block Byte} (hv : 0 ∉ v) (hbuf : (frame v).map some <+: buf) :
    CStr buf (msgPrefix ++ v) := by
  refine ⟨?_, ?_⟩
  · rw [List.mem_append, not_or]
    exact ⟨by decide, hv⟩
  · rwa [frame, List.map_append, List.map_singleton] at hbuf

/-- The frame of an accepted message is parsed to the stored entry, is accepted
in its turn, and is relayed as itself. -/
theorem relayed_frame_fixed (hreg : reg.Holds js) (hmsg : CStr msg w)
    (hprocess : processMsgFromClient reg msg = .ok reg') (haccepted : reg.size < reg'.size) :
    ∃ value f, storedValue reg' reg.size = .ok (some value) ∧ syncEntry reg' reg.size = .ok f ∧
      ∃ v, value.Holds v ∧ colon ∉ v ∧
        (Returns (getStringFrom (f.map some) >>= createEntry) fun e =>
          ∃ key value', e = ⟨some key, some value'⟩ ∧ key.Holds msgKey ∧ value'.Holds v ∧
            value'.length = value.length) ∧
        ∀ (reg₂ : Registry) (js₂ : List Json), reg₂.Holds js₂ →
          Returns (processMsgFromClient reg₂ (f.map some)) fun reg₃ =>
            reg₃.size = reg₂.size + 1 ∧ syncEntry reg₃ reg₂.size = .ok f := by
  -- the message was accepted, since the registry grew
  have haccept : msgPrefix <+: w := by
    by_contra h
    have hreturns := (processMsgFromClient_returns hreg hmsg).result hprocess
    rw [if_neg h] at hreturns
    rw [hreturns] at haccepted
    exact Nat.lt_irrefl _ haccepted
  obtain ⟨_, _, ⟨value, hstored, hvalue⟩, hsync, _⟩ :=
    (processMsgFromClient_accepted hreg hmsg haccept).result hprocess
  have hcolon := colon_notMem_chatValue w
  have hframe := cstr_of_frame hvalue.text.nul_free (List.prefix_refl _)
  refine ⟨value, frame (chatValue w), hstored, hsync, chatValue w, hvalue, hcolon, ?_, ?_⟩
  · refine (getStringFrom_returns hframe).bind fun s hs => ?_
    apply (createEntry_returns hs).mono
    intro e he
    rw [fields_of_accepted (List.prefix_append _ _), chatValue_append,
      Text.takeWhile_of_notMem hcolon] at he
    obtain ⟨key', hkslot, hk'⟩ := slot_written he.1
    obtain ⟨value', hvslot, hv'⟩ := slot_written he.2
    refine ⟨key', value', ?_, hk', hv', hv'.length_eq.trans hvalue.length_eq.symm⟩
    cases e
    exact congrArg₂ Entry.mk hkslot hvslot
  · intro reg₂ js₂ hreg₂
    have hstarts : msgPrefix <+: msgPrefix ++ chatValue w := List.prefix_append _ _
    apply (processMsgFromClient_accepted hreg₂ hframe hstarts).mono
    intro reg₃ hreg₃
    obtain ⟨_, hsize, _, hsync₃, _⟩ := hreg₃
    rw [chatValue_append, Text.takeWhile_of_notMem hcolon] at hsync₃
    exact ⟨hsize, hsync₃⟩

theorem relayed_frame_fixed_two_separators : ∃ reg',
    processMsgFromClient createRegister (cstr (bytes "msg:a:b")) = .ok reg' ∧
    ∃ value f, storedValue reg' createRegister.size = .ok (some value) ∧
      syncEntry reg' createRegister.size = .ok f ∧
      ∃ v, value.Holds v ∧ colon ∉ v ∧
        (Returns (getStringFrom (f.map some) >>= createEntry) fun e =>
          ∃ key value', e = ⟨some key, some value'⟩ ∧ key.Holds msgKey ∧ value'.Holds v ∧
            value'.length = value.length) ∧
        ∀ (reg₂ : Registry) (js₂ : List Json), reg₂.Holds js₂ →
          Returns (processMsgFromClient reg₂ (f.map some)) fun reg₃ =>
            reg₃.size = reg₂.size + 1 ∧ syncEntry reg₃ reg₂.size = .ok f := by
  have hsize : (processMsgFromClient createRegister (cstr (bytes "msg:a:b"))).toOption.map
      GrowArray.size = some 1 := by
    decide +kernel
  obtain ⟨reg', hprocess, hsize⟩ := Option.map_eq_some_iff.mp hsize
  have hreturns := toOption_eq_some hprocess
  exact ⟨reg', hreturns, relayed_frame_fixed createRegister_holds (cstr_cstr (by decide)) hreturns
    (by rw [hsize]; exact Nat.one_pos)⟩

end Relay

end TelnetChat.Vip
