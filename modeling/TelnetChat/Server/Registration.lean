import TelnetChat.CRuntime.Decimal
import TelnetChat.Registry

/-!
# Registration (`chat_server.c`)

`registerConnection` stores a record of three pairs: `client_sockfd` with the
descriptor, the pair the client sent, and `user_id` with a fresh uuid.  A
lookup answers with the first pair of a key.  So the client cannot replace the
descriptor, which stands before its pair, but it can replace the `user_id`,
which stands after it (`registration_authentic_iff`, `registration_forged`).
-/

namespace TelnetChat.Server

open CRuntime TelnetChat

/-! ## The source -/

/-- The text `uuid_unparse` writes. -/
structure Uuid where
  text : List Byte
  length_eq : text.length = 36
  nul_free : 0 ∉ text
  colon_free : colon ∉ text

def sockfdKey : List Byte := bytes "client_sockfd"

def userIdKey : List Byte := bytes "user_id"

/-- The record built from a received buffer.  `temp` is the memory that
`malloc(100)` returned. -/
def newRegistration (client_fd : Nat) (uuid : Uuid) (temp buf : Block Byte) : Exec Json := do
  let new_reg := createJson
  let cc ← sprintfInt (Block.malloc 10) client_fd
  let temp ← strcat temp (cstr (bytes "client_sockfd:"))
  let temp ← strcat temp cc
  let cfd ← getStringFrom temp
  let new_reg ← addJson new_reg cfd
  let username ← getStringFrom buf
  let new_reg ← addJson new_reg username
  let ttt ← strcat (calloc 100) (cstr (bytes "user_id:"))
  let ttt ← strcat ttt (cstr uuid.text)
  let userid ← getStringFrom ttt
  addJson new_reg userid

/-- The body of the loop of `registerConnection` after a `recv` that did not
fail: the new `confirm_reg`, and the bytes of the reply. -/
def registerClient (confirm_reg : Registry) (client_fd : Nat) (uuid : Uuid)
    (temp buf : Block Byte) : Exec (Registry × List Byte) := do
  let _printed ← strLen buf
  let new_reg ← newRegistration client_fd uuid temp buf
  let confirm_reg ← addReg confirm_reg new_reg
  let msg := cstr (bytes "registeration:true")
  let mlen ← strLen msg
  let reply ← msg.loadMany mlen 0
  pure (confirm_reg, reply)

/-- The value of a key in a record. -/
def valueOf (json : Json) (key : List Byte) : Exec (Option Str) := do
  let key ← getStringFrom (cstr key)
  getVal json key

/-- The two fields the server assigns are what it assigned. -/
def Authentic (json : Json) (client_fd : Nat) (uuid : Uuid) : Prop :=
  (∃ s, valueOf json sockfdKey = .ok (some s) ∧ s.Holds (decimal client_fd)) ∧
  ∃ s, valueOf json userIdKey = .ok (some s) ∧ s.Holds uuid.text

/-! ## The record -/

/-- The pairs of a registration, in the order they are added. -/
def registrationPairs (client_fd : Nat) (uuid : Uuid) (w : List Byte) : List Pair :=
  [(some sockfdKey, some (decimal client_fd)), fields w, (some userIdKey, some uuid.text)]

section Registration

variable {client_fd : Nat} {uuid : Uuid} {temp buf : Block Byte} {w : List Byte}
  {confirm_reg : Registry} {js : List Json} {json : Json}

theorem valueOf_returns {ps : List Pair} {k : List Byte} {p : Pair} (hj : Pairs json ps)
    (hk : 0 ∉ k) (hp : lookup k ps = some p) :
    Returns (valueOf json k) fun slot => Option.Rel Str.Holds slot p.2 := by
  apply (getStringFrom_returns (cstr_cstr hk)).bind
  intro key hkey
  exact getVal_returns hj hkey hp

/-- The fields of a text built from a key, a separator and a value without
separators. -/
theorem fields_keyed {k v : List Byte} (hk : colon ∉ k) (hne : k ≠ []) (hv : colon ∉ v) :
    fields (k ++ colon :: v) = (some k, some v) := by
  rw [fields_append hk (Or.inl hne), Text.takeWhile_of_notMem hv]

/-- A key with its separator and a value are appended to a text. -/
theorem keyed_text {dst value : Block Byte} {t k v : List Byte} (hdst : CStr dst t)
    (hkey : 0 ∉ k ++ [colon]) (hvalue : CStr value v)
    (hfits : t.length + k.length + v.length + 1 < dst.length) :
    ∃ d₁ d₂, strcat dst (cstr (k ++ [colon])) = .ok d₁ ∧ strcat d₁ value = .ok d₂ ∧
      CStr d₂ (t ++ (k ++ colon :: v)) := by
  have hlen : (k ++ [colon]).length = k.length + 1 := List.length_append
  obtain ⟨d₁, hd₁, htext₁, hlen₁⟩ := strcat_returns hdst (cstr_cstr hkey) (by omega)
  have hroom₁ : (t ++ (k ++ [colon])).length + v.length < d₁.length := by
    rw [hlen₁, List.length_append, hlen]
    omega
  obtain ⟨d₂, hd₂, htext₂, _⟩ := strcat_returns htext₁ hvalue hroom₁
  rw [List.append_assoc, List.append_assoc, List.singleton_append] at htext₂
  exact ⟨d₁, d₂, hd₁, hd₂, htext₂⟩

/-- With a short descriptor and room in `temp` the record is built.  The text
`t` that `temp` starts with stands before the first key. -/
theorem newRegistration_pairs {t : List Byte} (htemp : CStr temp t)
    (hroom : t.length + (decimal client_fd).length + 14 < temp.length) (hbuf : CStr buf w)
    (hfd : client_fd < 10 ^ 9) :
    Returns (newRegistration client_fd uuid temp buf) fun json =>
      Pairs json [fields (t ++ (sockfdKey ++ colon :: decimal client_fd)), fields w,
        (some userIdKey, some uuid.text)] := by
  have hdigits : (decimal client_fd).length ≤ 9 :=
    (length_decimal_le_iff (by decide) client_fd).mpr hfd
  have hsockfd : bytes "client_sockfd:" = sockfdKey ++ [colon] := rfl
  have huserId : bytes "user_id:" = userIdKey ++ [colon] := rfl
  have hlen : sockfdKey.length = 13 := rfl
  have hlen' : userIdKey.length = 7 := rfl
  have hzero : CStr (calloc 100) [] := .of_eq (calloc 99) (by simp) rfl
  -- the descriptor
  obtain ⟨cc, hcc, hdecimal, _⟩ : Returns (sprintfInt (Block.malloc 10) client_fd) _ :=
    sprintfInt_returns (by rw [Block.length_malloc]; omega)
  obtain ⟨t₁, t₂, ht₁, ht₂, hsockfdtext⟩ := keyed_text htemp (k := sockfdKey) (by decide)
    hdecimal (by omega)
  obtain ⟨cfd, hcfd, hcfdtext⟩ := getStringFrom_returns hsockfdtext
  rw [newRegistration, hcc, ok_bind, hsockfd, ht₁, ok_bind, ht₂, ok_bind, hcfd, ok_bind]
  apply (addJson_returns pairs_nil hcfdtext).bind
  intro j₁ hj₁
  -- what the client sent
  apply (getStringFrom_returns hbuf).bind
  intro username husername
  apply (addJson_returns hj₁ husername).bind
  intro j₂ hj₂
  -- the uuid
  have huuid := uuid.length_eq
  obtain ⟨u₁, u₂, hu₁, hu₂, huseridtext⟩ := keyed_text hzero (k := userIdKey)
    (by decide) (cstr_cstr uuid.nul_free) (by rw [length_calloc, List.length_nil]; omega)
  rw [List.nil_append] at huseridtext
  obtain ⟨userid, huserid, husertext⟩ := getStringFrom_returns huseridtext
  rw [huserId, hu₁, ok_bind, hu₂, ok_bind, huserid, ok_bind]
  apply (addJson_returns hj₂ husertext).mono
  intro json hjson
  rw [fields_keyed (by decide) (by decide) uuid.colon_free] at hjson
  simpa only [List.nil_append, List.cons_append] using hjson

/-- With an empty `temp` the record holds the three pairs. -/
theorem newRegistration_returns (htemp : CStr temp []) (hsize : temp.length = 100)
    (hbuf : CStr buf w) (hfd : client_fd < 10 ^ 9) :
    Returns (newRegistration client_fd uuid temp buf) fun json =>
      Pairs json (registrationPairs client_fd uuid w) := by
  have hdigits : (decimal client_fd).length ≤ 9 :=
    (length_decimal_le_iff (by decide) client_fd).mpr hfd
  have hpairs : Returns (newRegistration client_fd uuid temp buf) _ :=
    newRegistration_pairs htemp (by rw [List.length_nil, hsize]; omega) hbuf hfd
  rwa [List.nil_append,
    fields_keyed (by decide) (by decide) (notMem_decimal (by decide) client_fd)] at hpairs

/-- A record that is built is stored last, and the reply is sent. -/
theorem registerClient_stores {P : Json → Prop} (hreg : confirm_reg.Holds js) (hbuf : CStr buf w)
    (h : Returns (newRegistration client_fd uuid temp buf) P) :
    Returns (registerClient confirm_reg client_fd uuid temp buf) fun r =>
      ∃ json, r.1.Holds (js ++ [json]) ∧ P json ∧ r.2 = bytes "registeration:true" ++ [0] := by
  have hmsg : CStr (cstr (bytes "registeration:true")) (bytes "registeration:true") :=
    cstr_cstr (by decide)
  rw [registerClient, strLen_eq hbuf, ok_bind]
  apply h.bind
  intro json hjson
  apply (addReg_returns hreg json).bind
  intro reg hreg'
  simp only [strLen_eq hmsg, ok_bind, hmsg.loadMany_eq, pure_eq_ok, returns_ok]
  exact ⟨json, hreg', hjson, trivial⟩

theorem registerClient_returns (hreg : confirm_reg.Holds js) (htemp : CStr temp [])
    (hsize : temp.length = 100) (hbuf : CStr buf w) (hfd : client_fd < 10 ^ 9) :
    Returns (registerClient confirm_reg client_fd uuid temp buf) fun r =>
      ∃ json, r.1.Holds (js ++ [json]) ∧ Pairs json (registrationPairs client_fd uuid w) ∧
        r.2 = bytes "registeration:true" ++ [0] :=
  registerClient_stores hreg hbuf (newRegistration_returns htemp hsize hbuf hfd)

/-- A descriptor of ten digits does not fit `cc`. -/
theorem registerClient_fits {r : Registry × List Byte}
    (h : registerClient confirm_reg client_fd uuid temp buf = .ok r) : client_fd < 10 ^ 9 := by
  obtain ⟨n, _, hrest⟩ := bind_eq_ok.mp h
  obtain ⟨json, hjson, _⟩ := bind_eq_ok.mp hrest
  obtain ⟨cc, hcc, _⟩ := bind_eq_ok.mp hjson
  have hlt := sprintfInt_fits hcc
  rw [Block.length_malloc] at hlt
  exact (length_decimal_le_iff (by decide) client_fd).mp (Nat.le_of_lt_succ hlt)

/-- What a lookup of `user_id` finds: the pair of the client if it has that
key, else the pair of the server. -/
theorem lookup_userId (client_fd : Nat) (uuid : Uuid) (w : List Byte) :
    lookup userIdKey (registrationPairs client_fd uuid w) =
      some (if (fields w).1 = some userIdKey then fields w
        else (some userIdKey, some uuid.text)) := by
  have hne : some sockfdKey ≠ some userIdKey := by decide
  rw [registrationPairs, lookup_cons_of_ne (p := (some sockfdKey, some (decimal client_fd))) hne]
  generalize fields w = p
  split
  · rename_i hkey
    obtain ⟨k, v⟩ := p
    cases hkey
    exact lookup_cons_self userIdKey v _
  · rename_i hkey
    rw [lookup_cons_of_ne hkey, lookup_cons_self]

/-- The record is authentic when the client does not send another `user_id`. -/
theorem authentic_iff (hjson : Pairs json (registrationPairs client_fd uuid w)) :
    Authentic json client_fd uuid ↔
      ∀ t, w = userIdKey ++ colon :: t → t.takeWhile (· ≠ colon) = uuid.text := by
  obtain ⟨fd, hfd, hfdslot⟩ := valueOf_returns hjson (by decide)
    (lookup_cons_self sockfdKey (some (decimal client_fd)) _)
  obtain ⟨fds, rfl, hfds⟩ := slot_written hfdslot
  obtain ⟨id, hid, hidslot⟩ := valueOf_returns hjson (by decide) (lookup_userId client_fd uuid w)
  by_cases hkey : (fields w).1 = some userIdKey
  · obtain ⟨hcolon, t, rfl⟩ := (fields_key_iff (by decide)).mp hkey
    rw [List.append_assoc, List.singleton_append] at hkey hidslot ⊢
    rw [if_pos hkey, fields_append hcolon (Or.inl (by decide))] at hidslot
    obtain ⟨ids, rfl, hids⟩ := slot_written hidslot
    constructor
    · rintro ⟨_, s, hs, htext⟩ t' ht'
      rw [List.append_right_inj, List.cons.injEq] at ht'
      rw [hid, Except.ok.injEq, Option.some.injEq] at hs
      rw [← ht'.2]
      exact hids.unique (hs ▸ htext)
    · intro h
      rw [h t rfl] at hids
      exact ⟨⟨fds, hfd, hfds⟩, ids, hid, hids⟩
  · rw [if_neg hkey] at hidslot
    obtain ⟨ids, rfl, hids⟩ := slot_written hidslot
    refine iff_of_true ⟨⟨fds, hfd, hfds⟩, ids, hid, hids⟩ fun t ht => absurd ?_ hkey
    rw [ht, fields_append (by decide) (Or.inl (by decide))]

/-- The stored record has the server's two fields exactly when the descriptor
has at most nine digits and the client does not send another `user_id`. -/
theorem registration_authentic_iff (hreg : confirm_reg.Holds js) (htemp : CStr temp [])
    (hsize : temp.length = 100) (hbuf : CStr buf w) :
    (Returns (registerClient confirm_reg client_fd uuid temp buf) fun r =>
      r.1.size = confirm_reg.size + 1 ∧
      ∃ json, r.1.cells.load confirm_reg.size = .ok json ∧ Authentic json client_fd uuid) ↔
    client_fd < 10 ^ 9 ∧
      ∀ t, w = userIdKey ++ colon :: t → t.takeWhile (· ≠ colon) = uuid.text := by
  have hlast : ∀ {reg : Registry} {j : Json}, reg.Holds (js ++ [j]) →
      reg.size = confirm_reg.size + 1 ∧ reg.cells.load confirm_reg.size = .ok j := by
    intro reg j h
    refine ⟨by simp [h.size_eq, hreg.size_eq], ?_⟩
    rw [h.load_eq (by simp [hreg.size_eq])]
    simp [hreg.size_eq]
  constructor
  · rintro ⟨r, hr, _, json, hload, hauthentic⟩
    have hfd := registerClient_fits hr
    obtain ⟨j, hj, hpairs, _⟩ :=
      (registerClient_returns hreg htemp hsize hbuf hfd).result hr
    rw [(hlast hj).2, Except.ok.injEq] at hload
    exact ⟨hfd, (authentic_iff hpairs).mp (hload ▸ hauthentic)⟩
  · rintro ⟨hfd, hkey⟩
    apply (registerClient_returns hreg htemp hsize hbuf hfd).mono
    intro r hr
    obtain ⟨j, hj, hpairs, _⟩ := hr
    exact ⟨(hlast hj).1, j, (hlast hj).2, (authentic_iff hpairs).mpr hkey⟩

/-- A uuid, and a buffer of 100 bytes that received a text and its NUL. -/
def sampleUuid : Uuid :=
  ⟨bytes "f47ac10b-58cc-4372-a567-0e02b2c3d479", by decide, by decide, by decide⟩

def receivedBuf (w : List Byte) : Block Byte :=
  w.map some ++ some 0 :: Block.malloc (99 - w.length)

theorem receivedBuf_cstr (h : 0 ∉ w) : CStr (receivedBuf w) w := .of_eq _ h rfl

theorem registration_authentic_iff_username :
    (Returns (registerClient createRegister 5 sampleUuid (receivedBuf [])
        (receivedBuf (bytes "username:ann"))) fun r =>
      r.1.size = createRegister.size + 1 ∧
      ∃ json, r.1.cells.load createRegister.size = .ok json ∧ Authentic json 5 sampleUuid) ↔
    5 < 10 ^ 9 ∧
      ∀ t, bytes "username:ann" = userIdKey ++ colon :: t →
        t.takeWhile (· ≠ colon) = sampleUuid.text :=
  registration_authentic_iff createRegister_holds (receivedBuf_cstr (by decide)) (by decide)
    (receivedBuf_cstr (by decide))

/-- A client that sends `"user_id:evil"` is registered with the `user_id`
`"evil"`. -/
theorem registration_forged :
    Returns (registerClient createRegister 5 sampleUuid (receivedBuf [])
        (receivedBuf (bytes "user_id:evil"))) fun r =>
      ∃ json, r.1.cells.load 0 = .ok json ∧ ¬ Authentic json 5 sampleUuid ∧
        ∃ s, valueOf json userIdKey = .ok (some s) ∧ s.Holds (bytes "evil") := by
  refine (registerClient_returns createRegister_holds (receivedBuf_cstr (by decide)) (by decide)
    (receivedBuf_cstr (by decide)) (by decide)).mono fun r hr => ?_
  obtain ⟨json, hj, hpairs, _⟩ := hr
  refine ⟨json, hj.load_eq (by simp), fun hauthentic => ?_, ?_⟩
  · have heq := (authentic_iff hpairs).mp hauthentic (bytes "evil") (by decide)
    exact absurd heq (by decide)
  · obtain ⟨id, hid, hidslot⟩ := valueOf_returns hpairs (by decide) (lookup_userId 5 sampleUuid _)
    have htext : bytes "user_id:evil" = userIdKey ++ colon :: bytes "evil" := rfl
    have hvalue : (bytes "evil").takeWhile (· ≠ colon) = bytes "evil" := rfl
    rw [htext, fields_append (by decide) (Or.inl (by decide)), if_pos rfl, hvalue] at hidslot
    obtain ⟨ids, rfl, hids⟩ := slot_written hidslot
    exact ⟨ids, hid, hids⟩

end Registration

end TelnetChat.Server
