import TelnetChat.Append
import TelnetChat.JsonMap
import TelnetChat.Server.RegisterConnection

/-!
# Accepting and confirming a connection (`chat_server.c`)

`acceptConnectionLoop` stores a record of two pairs for a connection:
`client_sockfd` with the descriptor, and `client_ip`.  `confirmConnectionLoop`
reads the descriptor back from the record, tells the client that it is connected,
and adds the pair `confirm_msg_send:true` to the record.

The text of every descriptor is read back as that descriptor
(`clientDescriptor_eq`), and the added pair hides neither of the others
(`markConfirmed_returns`).
-/

namespace TelnetChat.Server

open CRuntime TelnetChat

/-! ## The source -/

def INET6_ADDRSTRLEN : Nat := 46

/-- A connection: the descriptor that `accept` returned, and the text that
`inet_ntop` wrote to `client_ip`. -/
structure Connection where
  fd : Nat
  ip : List Byte
  fd_lt : fd < 2 ^ 31
  ip_length : ip.length < INET6_ADDRSTRLEN
  ip_nul_free : 0 ∉ ip

/-- What `accept` returns: `-1`, or a connection. -/
inductive AcceptRet where
  | error
  | conn (c : Connection)

/-- The record of a connection in the loop of `acceptConnectionLoop`. -/
def acceptRecord (client_fd : Nat) (client_ip : Block Byte) : Exec Json := do
  let _printed ← strLen client_ip
  let client_json := createJson
  let client_fd_s ← sprintfInt (calloc 100) client_fd
  let oot ← strcat (calloc 100) (cstr (bytes "client_sockfd:"))
  let oot ← strcat oot client_fd_s
  let _printed ← strLen oot
  let client_sockfd_string ← getStringFrom oot
  let oo ← strcat (calloc 100) (cstr (bytes "client_ip:"))
  let oo ← strcat oo client_ip
  let _printed ← strLen oo
  let client_ip_string ← getStringFrom oo
  let client_json ← addJson client_json client_sockfd_string
  addJson client_json client_ip_string

/-- The descriptor that `confirmConnectionLoop` reads from a record. -/
def clientDescriptor (j_client : Json) : Exec Int := do
  let client_sockfd_string ← getStringFrom (cstr sockfdKey)
  let _printed ← printS client_sockfd_string
  let client_fd_s ← getVal j_client client_sockfd_string
  let client_fd_s ← Block.written client_fd_s
  let _printed ← printS client_fd_s
  let _printed ← strLen client_fd_s.string
  atoi client_fd_s.string

/-- What is passed to a call of `send`. -/
structure Outgoing where
  client_fd : Int
  msg : List Byte
deriving DecidableEq

/-- The call of `send`, and the return value when `send` returns `msendlen`. -/
def confirmConSuccessfull (client_fd : Int) (msendlen : Int) : Exec (Outgoing × Int) := do
  let msg := cstr (bytes "connection:true,msg:please register to server with a username")
  let mlen ← strLen msg
  let sent ← msg.loadMany mlen 0
  pure (⟨client_fd, sent⟩, if msendlen = mlen then 1 else 0)

/-- The end of an iteration of `confirmConnectionLoop`: the copy `j_client` of the
record is marked and written back.  The copy shares its entries with the record,
but the record does not count the new one before the write-back. -/
def markConfirmed (accept_reg : Registry) (c_reg : Nat) (j_client : Json) : Exec Registry := do
  let sss ← getStringFrom (cstr (bytes "confirm_msg_send:true"))
  let j_client ← addJson j_client sss
  let cells ← accept_reg.cells.store c_reg j_client
  pure { accept_reg with cells := cells }

/-! ## The records -/

def ipKey : List Byte := bytes "client_ip"

def confirmKey : List Byte := bytes "confirm_msg_send"

/-- The pairs that are accepted with a connection. -/
def Connection.pairs (c : Connection) : List Pair :=
  [(some sockfdKey, some (decimal c.fd)), (some ipKey, some (c.ip.takeWhile (· ≠ colon)))]

/-- The pair that marks a record as confirmed. -/
def confirmPair : Pair := (some confirmKey, some (bytes "true"))

/-- The confirmation of a connection: the message with its NUL. -/
def Connection.confirmation (c : Connection) : Outgoing :=
  ⟨c.fd, bytes "connection:true,msg:please register to server with a username" ++ [0]⟩

section Records

variable {c : Connection} {json : Json} {ps : List Pair} {reg : Registry} {js : List Json} {s : Str}
  {w : List Byte}

theorem Connection.length_decimal (c : Connection) : (decimal c.fd).length ≤ 10 := by
  rw [length_decimal_le_iff (by decide)]
  exact Nat.lt_trans c.fd_lt (by decide)

theorem printS_eq (hs : s.Holds w) : printS s = .ok w := hs.layout.2.2.2

theorem acceptRecord_returns (c : Connection) :
    Returns (acceptRecord c.fd (cstr c.ip)) fun json => Pairs json c.pairs := by
  have hzero : CStr (calloc 100) [] := .of_eq (calloc 99) List.not_mem_nil rfl
  have hip : CStr (cstr c.ip) c.ip := cstr_cstr c.ip_nul_free
  have hdigits := c.length_decimal
  have hlen : c.ip.length < 46 := c.ip_length
  have hsockfd : bytes "client_sockfd:" = sockfdKey ++ [colon] := rfl
  have hclientip : bytes "client_ip:" = ipKey ++ [colon] := rfl
  have hlen₁ : sockfdKey.length = 13 := rfl
  have hlen₂ : ipKey.length = 9 := rfl
  rw [acceptRecord, strLen_eq hip, ok_bind, hsockfd, hclientip]
  -- the two texts
  obtain ⟨d, hd, hdecimal, _⟩ : Returns (sprintfInt (calloc 100) c.fd) _ :=
    sprintfInt_returns (by rw [length_calloc]; omega)
  obtain ⟨t₁, t₂, ht₁, ht₂, htext⟩ := keyed_text hzero (k := sockfdKey) (by decide) hdecimal
    (by rw [length_calloc, List.length_nil]; omega)
  obtain ⟨u₁, u₂, hu₁, hu₂, htext'⟩ := keyed_text hzero (k := ipKey) (by decide) hip
    (by rw [length_calloc, List.length_nil]; omega)
  obtain ⟨sockfd, hget, hstring⟩ := getStringFrom_returns htext
  obtain ⟨ip, hget', hstring'⟩ := getStringFrom_returns htext'
  rw [hd, ok_bind, ht₁, ok_bind, ht₂, ok_bind, strLen_eq htext, ok_bind, hget, ok_bind, hu₁, ok_bind,
    hu₂, ok_bind, strLen_eq htext', ok_bind, hget', ok_bind]
  -- the two pairs
  rw [List.nil_append] at hstring hstring'
  apply (addJson_returns pairs_nil hstring).bind
  intro j hj
  apply (addJson_returns hj hstring').mono
  intro json hjson
  rw [List.nil_append, List.singleton_append,
    fields_keyed (by decide) (by decide) (notMem_decimal (by decide) c.fd),
    fields_append (by decide) (Or.inl (by decide))] at hjson
  exact hjson

/-! ## Reading a descriptor back -/

/-- The pair of the descriptor is the first. -/
theorem lookup_sockfd (c : Connection) (ps : List Pair) :
    lookup sockfdKey (c.pairs ++ ps) = some (some sockfdKey, some (decimal c.fd)) :=
  lookup_cons_self sockfdKey (some (decimal c.fd)) _

theorem clientDescriptor_eq (h : Pairs json (c.pairs ++ ps)) :
    clientDescriptor json = .ok (c.fd : Int) := by
  obtain ⟨key, hkey, hkeytext⟩ := getStringFrom_returns (cstr_cstr (by decide : 0 ∉ sockfdKey))
  obtain ⟨slot, hget, hslot⟩ := getVal_returns h hkeytext (lookup_sockfd c ps)
  obtain ⟨value, rfl, hvalue⟩ := slot_written hslot
  rw [clientDescriptor, hkey, ok_bind, printS_eq hkeytext, ok_bind, hget, ok_bind, Block.written,
    ok_bind, printS_eq hvalue, ok_bind, strLen_eq hvalue.text, ok_bind,
    atoi_decimal hvalue.text c.fd_lt]

theorem finds_sockfd (h : Pairs json (c.pairs ++ ps)) :
    Finds (valueOf json sockfdKey) (decimal c.fd) :=
  (valueOf_returns h (by decide) (lookup_sockfd c ps)).mono fun _ hslot => slot_written hslot

theorem confirmConSuccessfull_returns (c : Connection) (msendlen : Int) :
    Returns (confirmConSuccessfull c.fd msendlen) fun r => r.1 = c.confirmation := by
  have hmsg : CStr (cstr (bytes "connection:true,msg:please register to server with a username"))
      (bytes "connection:true,msg:please register to server with a username") :=
    cstr_cstr (by decide)
  simp only [confirmConSuccessfull, strLen_eq hmsg, ok_bind, hmsg.loadMany_eq, pure_eq_ok,
    returns_ok]
  rfl

/-! ## The mark -/

theorem markConfirmed_returns (hreg : reg.Holds js) {k : Nat} (hk : k < js.length)
    (h : Pairs json c.pairs) :
    Returns (markConfirmed reg k json) fun reg' =>
      ∃ json', reg'.Holds (js.set k json') ∧ Pairs json' (c.pairs ++ [confirmPair]) := by
  obtain ⟨sss, hget, hsss⟩ := getStringFrom_returns
    (cstr_cstr (by decide : 0 ∉ bytes "confirm_msg_send:true"))
  obtain ⟨json', hadd, hjson'⟩ := addJson_returns h hsss
  obtain ⟨cells, hstore, hcells⟩ := hreg.store_eq hk json'
  have hfields : fields (bytes "confirm_msg_send:true") = confirmPair :=
    fields_keyed (k := confirmKey) (v := bytes "true") (by decide) (by decide) (by decide)
  rw [hfields] at hjson'
  rw [markConfirmed, hget, ok_bind, hadd, ok_bind, hstore, ok_bind, pure_eq_ok, returns_ok]
  exact ⟨json', hcells, hjson'⟩

theorem finds_confirm (h : Pairs json (c.pairs ++ [confirmPair])) :
    Finds (valueOf json confirmKey) (bytes "true") := by
  have hsockfd : (some sockfdKey : Option (List Byte)) ≠ some confirmKey := by decide
  have hip : (some ipKey : Option (List Byte)) ≠ some confirmKey := by decide
  have hlookup : lookup confirmKey (c.pairs ++ [confirmPair]) = some confirmPair := by
    rw [Connection.pairs, List.cons_append, List.cons_append, List.nil_append,
      lookup_cons_of_ne hsockfd, lookup_cons_of_ne hip]
    exact lookup_cons_self confirmKey (some (bytes "true")) []
  exact (valueOf_returns h (by decide) hlookup).mono fun _ hslot => slot_written hslot

end Records

end TelnetChat.Server
