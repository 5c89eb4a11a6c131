import Mathlib.Data.Nat.Find
import TelnetChat.Server.Registration

/-!
# The retry loop of `registerConnection`

The loop calls `recv` until it does not return `-1`, at most ten times.  Then it
registers the client with what is in the buffer.  A `recv` that returns `0`, since
the client closed the connection, is not told apart from one that received.  The
client is then registered with the memory that `malloc` returned.

So only clients that sent something are registered exactly when no `0` ends the
loop (`registerConnection_iff`).  The condition there also says what a
registration needs to return: a NUL after the received bytes, a descriptor that
fits `cc`, and room after the text that `temp` starts with.
-/

namespace TelnetChat.Server

open CRuntime TelnetChat

/-! ## The source -/

/-- The bytes one `recv` of at most 100 bytes returns. -/
structure Message where
  bytes : List Byte
  ne_nil : bytes ≠ []
  length_le : bytes.length ≤ 100

/-- What `recv` returns on the socket of a client: `-1`, `0`, or a number of
bytes. -/
inductive RecvRet where
  | error
  | closed
  | data (msg : Message)

/-- The memory at `buf` after a `recv`. -/
def recvInto (buf : Block Byte) : RecvRet → Exec (Block Byte)
  | .data msg => buf.copyInto (msg.bytes.map some) 0 msg.bytes.length
  | .error => pure buf
  | .closed => pure buf

/-- The body of the loop.  `none` is the `continue` after a `-1`. -/
def registerAttempt (confirm_reg : Registry) (client_fd : Nat) (uuid : Uuid)
    (temp buf : Block Byte) : RecvRet → Exec (Option (Registry × List Byte))
  | .error => pure none
  | .closed => do
      let r ← registerClient confirm_reg client_fd uuid temp buf
      pure (some r)
  | .data msg => do
      let buf ← recvInto buf (.data msg)
      let r ← registerClient confirm_reg client_fd uuid temp buf
      pure (some r)

/-- `registerConnection` for the descriptor `client_fd`: the new `confirm_reg`, and
the reply if one is sent.  `temp` and `buf` are the memory that the calls of
`malloc` returned, and `recv` is what each `recv` returns. -/
def registerConnection (confirm_reg : Registry) (client_fd : Nat) (uuid : Uuid)
    (temp buf : Block Byte) (recv : Nat → RecvRet) : Exec (Registry × Option (List Byte)) := do
  let f_ter := 10
  match ← findUp (fun c_ter =>
      registerAttempt confirm_reg client_fd uuid temp buf (recv c_ter)) f_ter 0 with
  | some (confirm_reg, reply) => pure (confirm_reg, some reply)
  | none => pure (confirm_reg, none)

/-! ## Which `recv` ends the loop -/

/-- Each of the ten calls returns `-1`. -/
def TimesOut (recv : Nat → RecvRet) : Prop := ∀ k < 10, recv k = .error

/-- `ret` is what the first call that does not return `-1` returns, and fewer than
ten calls were made before it. -/
def Answers (recv : Nat → RecvRet) (ret : RecvRet) : Prop :=
  ret ≠ .error ∧ ∃ k < 10, (∀ i < k, recv i = .error) ∧ recv k = ret

/-- The buffer with a received message over its first bytes. -/
def Message.over (msg : Message) (buf : Block Byte) : Block Byte :=
  msg.bytes.map some ++ buf.drop msg.bytes.length

/-- What a registration reads and writes is in bounds: the buffer holds a C string,
the descriptor fits `cc`, and the descriptor's pair fits `temp` after its text. -/
def Registrable (client_fd : Nat) (temp buf : Block Byte) : Prop :=
  (∃ w, CStr buf w) ∧ client_fd < 10 ^ 9 ∧
    ∃ t, CStr temp t ∧ t.length + (decimal client_fd).length + 14 < temp.length

/-- Exactly one record is added if the client sends something in time, and else
nothing is added and nothing is sent. -/
def RegistersSenders (confirm_reg : Registry) (js : List Json) (recv : Nat → RecvRet)
    (result : Exec (Registry × Option (List Byte))) : Prop :=
  ((∃ msg, Answers recv (.data msg)) → Returns result fun r => ∃ json, r.1.Holds (js ++ [json])) ∧
  ((¬ ∃ msg, Answers recv (.data msg)) → result = .ok (confirm_reg, none))

section Retry

variable {recv : Nat → RecvRet} {ret ret' : RecvRet} {client_fd : Nat} {uuid : Uuid}
  {temp buf : Block Byte} {confirm_reg : Registry} {js : List Json}

theorem Answers.unique (h : Answers recv ret) (h' : Answers recv ret') : ret = ret' := by
  obtain ⟨hret, k, _, hbefore, rfl⟩ := h
  obtain ⟨hret', k', _, hbefore', rfl⟩ := h'
  rcases Nat.lt_trichotomy k k' with hlt | rfl | hlt
  · exact absurd (hbefore' k hlt) hret
  · rfl
  · exact absurd (hbefore k' hlt) hret'

theorem TimesOut.not_answers (h : TimesOut recv) : ¬ Answers recv ret := by
  rintro ⟨hret, k, hk, _, rfl⟩
  exact hret (h k hk)

theorem timesOut_or_answers (recv : Nat → RecvRet) :
    TimesOut recv ∨ ∃ ret, Answers recv ret := by
  classical
  by_cases h : ∃ k, k < 10 ∧ recv k ≠ .error
  · have hbefore : ∀ i < Nat.find h, recv i = .error := by
      intro i hi
      have hmin := Nat.find_min h hi
      rw [not_and, not_not] at hmin
      exact hmin (hi.trans (Nat.find_spec h).1)
    exact Or.inr ⟨_, (Nat.find_spec h).2, Nat.find h, (Nat.find_spec h).1, hbefore, rfl⟩
  · refine Or.inl fun k hk => ?_
    by_contra hne
    exact h ⟨k, hk, hne⟩

/-! ## The loop -/

theorem registerConnection_timesOut (h : TimesOut recv) :
    registerConnection confirm_reg client_fd uuid temp buf recv = .ok (confirm_reg, none) := by
  have hskip : ∀ j < 10, registerAttempt confirm_reg client_fd uuid temp buf (recv (0 + j)) =
      .ok none := by
    intro j hj
    rw [Nat.zero_add, h j hj]
    rfl
  have hloop : findUp (fun c_ter => registerAttempt confirm_reg client_fd uuid temp buf (recv c_ter))
      (10 + 0) 0 = _ := findUp_skip 0 hskip
  rw [registerConnection, hloop]
  rfl

/-- The loop ends with the registration at the first call that does not return
`-1`. -/
theorem registerConnection_answers (h : Answers recv ret) :
    registerConnection confirm_reg client_fd uuid temp buf recv = (do
      let buf ← recvInto buf ret
      let r ← registerClient confirm_reg client_fd uuid temp buf
      pure (r.1, some r.2)) := by
  obtain ⟨hret, k, hk, hbefore, rfl⟩ := h
  have hskip : ∀ j < k, registerAttempt confirm_reg client_fd uuid temp buf (recv (0 + j)) =
      .ok none := by
    intro j hj
    rw [Nat.zero_add, hbefore j hj]
    rfl
  obtain ⟨n, hn⟩ : ∃ n, 10 = k + (n + 1) := ⟨9 - k, by omega⟩
  have hloop : findUp (fun c_ter => registerAttempt confirm_reg client_fd uuid temp buf (recv c_ter))
      (k + (n + 1)) 0 = _ := findUp_skip (n + 1) hskip
  rw [Nat.zero_add, findUp] at hloop
  rw [registerConnection, hn, hloop]
  cases hrecv : recv k with
  | error => exact absurd hrecv hret
  | closed =>
      rw [registerAttempt, recvInto]
      show _ = registerClient confirm_reg client_fd uuid temp buf >>= fun r => pure (r.1, some r.2)
      cases registerClient confirm_reg client_fd uuid temp buf <;> rfl
  | data msg =>
      rw [registerAttempt]
      cases recvInto buf (.data msg) with
      | error e => rfl
      | ok buf' =>
          rw [ok_bind, ok_bind]
          cases registerClient confirm_reg client_fd uuid temp buf' <;> rfl

theorem recvInto_data (hsize : buf.length = 100) (msg : Message) :
    recvInto buf (.data msg) = .ok (msg.over buf) := by
  have hlen := msg.length_le
  have hcopy := Block.copyInto_eq msg.bytes [] [] (buf.take msg.bytes.length)
    (buf.drop msg.bytes.length) (by rw [List.length_take]; omega)
  rw [List.nil_append, List.nil_append, List.take_append_drop, List.append_nil,
    List.length_nil] at hcopy
  exact hcopy

/-! ## A registration -/

theorem registrable_of_returns {r : Registry × List Byte}
    (h : registerClient confirm_reg client_fd uuid temp buf = .ok r) :
    Registrable client_fd temp buf := by
  have hfd := registerClient_fits h
  have hdigits : (decimal client_fd).length < (Block.malloc 10 : Block Byte).length := by
    rw [Block.length_malloc]
    exact Nat.lt_succ_of_le ((length_decimal_le_iff (by decide) client_fd).mpr hfd)
  obtain ⟨n, hprint, hrest⟩ := bind_eq_ok.mp h
  obtain ⟨json, hjson, _⟩ := bind_eq_ok.mp hrest
  obtain ⟨cc, hcc, hrest⟩ := bind_eq_ok.mp hjson
  obtain ⟨d₁, hd₁, hrest⟩ := bind_eq_ok.mp hrest
  obtain ⟨d₂, hd₂, _⟩ := bind_eq_ok.mp hrest
  refine ⟨exists_cstr_of_strLen hprint, hfd, ?_⟩
  -- the two appends to `temp`
  obtain ⟨t, key, htemp, hkey, hroom⟩ := strcat_fits hd₁
  obtain ⟨t₁, digits, ht₁, hdigitstext, hroom₁⟩ := strcat_fits hd₂
  obtain ⟨htext, hlen⟩ := (strcat_returns htemp hkey hroom).result hd₁
  obtain rfl := ht₁.unique htext
  obtain rfl : key = bytes "client_sockfd:" := hkey.unique (cstr_cstr (by decide))
  obtain rfl := hdigitstext.unique ((sprintfInt_returns hdigits).result hcc).1
  have hfourteen : (bytes "client_sockfd:").length = 14 := rfl
  rw [hlen, List.length_append, hfourteen] at hroom₁
  exact ⟨t, htemp, by omega⟩

theorem registerClient_appends (hreg : confirm_reg.Holds js)
    (h : Registrable client_fd temp buf) :
    Returns (registerClient confirm_reg client_fd uuid temp buf) fun r =>
      ∃ json, r.1.Holds (js ++ [json]) := by
  obtain ⟨⟨w, hbuf⟩, hfd, t, htemp, hroom⟩ := h
  have hrecord : Returns (newRegistration client_fd uuid temp buf) _ :=
    newRegistration_pairs htemp hroom hbuf hfd
  exact (registerClient_stores hreg hbuf hrecord).mono fun _ ⟨json, hjson, _⟩ => ⟨json, hjson⟩

/-- `registerConnection` registers only clients that sent something exactly when
all calls of `recv` fail, or the first that does not fail receives a message that
can be registered. -/
theorem registerConnection_iff (hreg : confirm_reg.Holds js) (hsize : buf.length = 100) :
    RegistersSenders confirm_reg js recv
      (registerConnection confirm_reg client_fd uuid temp buf recv) ↔
    TimesOut recv ∨
      ∃ msg, Answers recv (.data msg) ∧ Registrable client_fd temp (msg.over buf) := by
  constructor
  · rintro ⟨hsends, hnone⟩
    rcases timesOut_or_answers recv with hout | ⟨ret, hret⟩
    · exact Or.inl hout
    · cases hcase : ret with
      | error => exact absurd hcase hret.1
      | closed =>
          -- the loop registers a client that closed
          have hclosed : ¬ ∃ msg, Answers recv (.data msg) := by
            rintro ⟨msg, hmsg⟩
            have heq := hret.unique hmsg
            rw [hcase] at heq
            cases heq
          have hresult := hnone hclosed
          rw [registerConnection_answers hret, hcase, recvInto, pure_eq_ok, ok_bind] at hresult
          obtain ⟨r, _, hpure⟩ := bind_eq_ok.mp hresult
          cases hpure
      | data msg =>
          rw [hcase] at hret
          obtain ⟨r, hresult, _⟩ := hsends ⟨msg, hret⟩
          rw [registerConnection_answers hret, recvInto_data hsize, ok_bind] at hresult
          obtain ⟨r', hclient, _⟩ := bind_eq_ok.mp hresult
          exact Or.inr ⟨msg, hret, registrable_of_returns hclient⟩
  · rintro (hout | ⟨msg, hmsg, hregistrable⟩)
    · exact ⟨fun ⟨_, hmsg⟩ => absurd hmsg hout.not_answers,
        fun _ => registerConnection_timesOut hout⟩
    · refine ⟨fun _ => ?_, fun hnone => absurd ⟨msg, hmsg⟩ hnone⟩
      rw [registerConnection_answers hmsg, recvInto_data hsize, ok_bind]
      apply (registerClient_appends hreg hregistrable).bind
      intro r hr
      exact returns_ok.mpr hr

def sampleMessage : Message := ⟨bytes "username:ann" ++ [0], by decide, by decide⟩

/-- Nothing at first, then a user name. -/
def sampleRecv : Nat → RecvRet
  | 0 => .error
  | _ => .data sampleMessage

theorem registerConnection_iff_username :
    RegistersSenders createRegister [] sampleRecv
      (registerConnection createRegister 5 sampleUuid (calloc 100) (Block.malloc 100) sampleRecv) ↔
    TimesOut sampleRecv ∨ ∃ msg, Answers sampleRecv (.data msg) ∧
      Registrable 5 (calloc 100) (msg.over (Block.malloc 100)) :=
  registerConnection_iff createRegister_holds (Block.length_malloc 100)

/-- A client that closes without sending anything is registered, and is sent the
reply. -/
theorem closed_client_registered :
    (Returns (registerConnection createRegister 5 sampleUuid (calloc 100) (calloc 100)
        fun _ => .closed) fun r =>
      r.1.size = 1 ∧ r.2 = some (bytes "registeration:true" ++ [0])) ∧
    ¬ RegistersSenders createRegister [] (fun _ => .closed)
      (registerConnection createRegister 5 sampleUuid (calloc 100) (calloc 100)
        fun _ => .closed) := by
  have hanswers : Answers (fun _ => .closed) .closed :=
    ⟨nofun, 0, Nat.succ_pos 9, fun _ hi => absurd hi (Nat.not_lt_zero _), rfl⟩
  have hzero : CStr (calloc 100) [] := .of_eq (calloc 99) List.not_mem_nil rfl
  obtain ⟨r, hclient, json, hjson, _, hreply⟩ :
      Returns (registerClient createRegister 5 sampleUuid (calloc 100) (calloc 100)) _ :=
    registerClient_returns createRegister_holds hzero (length_calloc 100) hzero (by decide)
  have hresult : registerConnection createRegister 5 sampleUuid (calloc 100) (calloc 100)
      (fun _ => .closed) = .ok (r.1, some r.2) := by
    rw [registerConnection_answers hanswers, recvInto, pure_eq_ok, ok_bind, hclient, ok_bind,
      pure_eq_ok]
  refine ⟨.of_eq hresult ⟨hjson.size_eq, congrArg some hreply⟩, fun hregisters => ?_⟩
  have hnone := hregisters.2 fun ⟨msg, hmsg⟩ => by
    cases hmsg.unique hanswers
  rw [hresult, Except.ok.injEq, Prod.mk.injEq] at hnone
  cases hnone.2

end Retry

end TelnetChat.Server
