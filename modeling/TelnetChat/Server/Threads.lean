import TelnetChat.Machine.Run
import TelnetChat.Server.Connections

/-!
# The threads of the chat server (`chat_server.c`)

`acceptConnectionLoop` and `confirmConnectionLoop` run over `accept_reg`, and the
confirm loop starts a thread in `registerConnection` for each record it confirms.
A step is one of these:

* one iteration of the accept loop, which shares its record in `addReg`;
* the size check of the confirm loop, the iteration from the read of the record
  to the start of the thread, or the write-back of the record;
* the first read of `*(pkg->sockfd)` by a registration thread, or one iteration
  of its loop.

All registration threads are given the one package of the confirm loop.  Its
`sockfd` points to the `client_fd` of an iteration, and the iterations share one
stack slot for it.

A label names what moves and what its calls return, so a run is any interleaving
under any input.  A fault of one thread ends the process.
-/

namespace TelnetChat.Server

open CRuntime TelnetChat

/-! ## States -/

/-- Where `confirmConnectionLoop` is. -/
inductive ConfirmPc where
  /-- At the size check. -/
  | check
  /-- At the read of a record. -/
  | read
  /-- At the write-back of the copy `j_client`. -/
  | mark (j_client : Json)
deriving DecidableEq

/-- A thread in `registerConnection`. -/
inductive Thread where
  /-- At the read of `*(pkg->sockfd)`. -/
  | started
  /-- At the test of the loop. -/
  | waiting (client_fd : Int) (c_ter : Nat) (buf : Block Byte)
  | exited (client_fd : Int)
deriving DecidableEq

/-- The descriptor that the thread read. -/
def Thread.client_fd : Thread → Option Int
  | .started => none
  | .waiting client_fd _ _ => some client_fd
  | .exited client_fd => some client_fd

/-- The last four fields are the history. -/
structure State where
  accept_reg : Registry
  confirm_reg : Registry
  error_count : Nat
  c_reg : Nat
  pc : ConfirmPc
  /-- The stack slot that `pkg->sockfd` points to. -/
  client_fd : Option Int
  /-- The registration threads, in the order they were started. -/
  threads : List Thread
  /-- The connections, in the order they were accepted. -/
  accepted : List Connection
  /-- What `confirmConSuccessfull` sent. -/
  confirmed : List Outgoing
  /-- The threads that called `addReg`, in this order. -/
  registered : List Nat
  /-- What these threads sent. -/
  replies : List Outgoing

def State.init : State :=
  ⟨createRegister, createRegister, 0, 0, .check, none, [], [], [], [], []⟩

/-! ## Steps -/

/-- What a registration thread is given: the memory of its calls of `malloc`, the
uuid, and what `recv` returns. -/
structure Input where
  buf : Block Byte
  temp : Block Byte
  uuid : Uuid
  ret : RecvRet
  buf_length : buf.length = 100
  temp_length : temp.length = 100

/-- A call of `recv` on a negative descriptor fails. -/
def recvOn (client_fd : Int) (ret : RecvRet) : RecvRet := if client_fd < 0 then .error else ret

/-- An iteration of `acceptConnectionLoop`, up to its `addReg`. -/
def State.acceptConnectionLoop (s : State) (ret : AcceptRet) : Exec State :=
  let ter_count := 100
  let accept_ter_flag := 100
  if s.error_count < ter_count ∨ accept_ter_flag = 0 then
    match ret with
    | .error => pure { s with error_count := s.error_count + 1 }
    | .conn c => do
        let client_json ← acceptRecord c.fd (cstr c.ip)
        let accept_reg ← addReg s.accept_reg client_json
        pure { s with accept_reg := accept_reg, accepted := s.accepted ++ [c] }
  else pure s

/-- `confirmConnectionLoop` runs to its next point. -/
def State.confirmConnectionLoop (s : State) (msendlen : Int) : Exec State :=
  match s.pc with
  | .check =>
      if s.c_reg < s.accept_reg.size then pure { s with pc := .read }
      else pure s
  | .read => do
      let j_client ← s.accept_reg.cells.load s.c_reg
      let client_fd ← clientDescriptor j_client
      let (sent, _) ← confirmConSuccessfull client_fd msendlen
      pure { s with
        pc := .mark j_client
        client_fd := some client_fd
        threads := s.threads ++ [.started]
        confirmed := s.confirmed ++ [sent] }
  | .mark j_client => do
      let accept_reg ← markConfirmed s.accept_reg s.c_reg j_client
      pure { s with pc := .check, accept_reg := accept_reg, c_reg := s.c_reg + 1 }

/-- The registration thread `i` runs to its next point. -/
def State.registerConnection (s : State) (i : Nat) (input : Input) : Exec State :=
  let f_ter := 10
  match s.threads[i]? with
  | some .started => do
      let client_fd ← Block.written s.client_fd
      pure { s with threads := s.threads.set i (.waiting client_fd 0 input.buf) }
  | some (.waiting client_fd c_ter buf) =>
      if c_ter < f_ter then do
        match ← registerAttempt s.confirm_reg client_fd.toNat input.uuid input.temp buf
            (recvOn client_fd input.ret) with
        | some (confirm_reg, reply) =>
            pure { s with
              confirm_reg := confirm_reg
              threads := s.threads.set i (.exited client_fd)
              registered := s.registered ++ [i]
              replies := s.replies ++ [⟨client_fd, reply⟩] }
        | none => pure { s with threads := s.threads.set i (.waiting client_fd (c_ter + 1) buf) }
      else pure { s with threads := s.threads.set i (.exited client_fd) }
  | some (.exited _) => pure s
  | none => pure s

inductive Event where
  | accept (ret : AcceptRet)
  | confirm (msendlen : Int)
  | register (i : Nat) (input : Input)

def State.step (s : State) : Event → Exec State
  | .accept ret => s.acceptConnectionLoop ret
  | .confirm msendlen => s.confirmConnectionLoop msendlen
  | .register i input => s.registerConnection i input

def Step (s : State) (e : Event) (s' : State) : Prop := s.step e = .ok s'

/-! ## What a registration thread does -/

/-- The steps of the registration thread `i`. -/
inductive State.Moved (s : State) (i : Nat) (input : Input) : State → Prop where
  /-- The thread is not there, or has exited. -/
  | idle : (∀ t, s.threads[i]? = some t → ∃ client_fd, t = .exited client_fd) →
      s.Moved i input s
  /-- The thread reads `*(pkg->sockfd)`. -/
  | reads {client_fd : Int} : s.threads[i]? = some .started → s.client_fd = some client_fd →
      s.Moved i input { s with threads := s.threads.set i (.waiting client_fd 0 input.buf) }
  /-- The thread tries again, or gives up. -/
  | waits {client_fd : Int} {c_ter : Nat} {buf : Block Byte} {t : Thread} :
      s.threads[i]? = some (.waiting client_fd c_ter buf) → t.client_fd = some client_fd →
      s.Moved i input { s with threads := s.threads.set i t }
  | registers {client_fd c_ter : Nat} {buf buf' : Block Byte} {r : Registry × List Byte} :
      s.threads[i]? = some (.waiting client_fd c_ter buf) →
      registerClient s.confirm_reg client_fd input.uuid input.temp buf' = .ok r →
      s.Moved i input { s with
        confirm_reg := r.1
        threads := s.threads.set i (.exited client_fd)
        registered := s.registered ++ [i]
        replies := s.replies ++ [⟨client_fd, r.2⟩] }

section Moved

variable {s s' : State} {i : Nat} {input : Input}

/-- An attempt that registers was made on a descriptor, with the memory after its
`recv`. -/
theorem registerAttempt_registers {confirm_reg : Registry} {client_fd : Int} {uuid : Uuid}
    {temp buf : Block Byte} {ret : RecvRet} {r : Registry × List Byte}
    (h : registerAttempt confirm_reg client_fd.toNat uuid temp buf (recvOn client_fd ret) =
      .ok (some r)) :
    (client_fd.toNat : Int) = client_fd ∧
      ∃ buf', registerClient confirm_reg client_fd.toNat uuid temp buf' = .ok r := by
  have hpos : ¬ client_fd < 0 := by
    intro hneg
    rw [recvOn, if_pos hneg] at h
    cases h
  rw [recvOn, if_neg hpos] at h
  constructor
  · omega
  · cases ret with
    | error => cases h
    | closed =>
        obtain ⟨r', hclient, hpure⟩ := bind_eq_ok.mp h
        cases hpure
        exact ⟨buf, hclient⟩
    | data msg =>
        obtain ⟨buf', _, hrest⟩ := bind_eq_ok.mp h
        obtain ⟨r', hclient, hpure⟩ := bind_eq_ok.mp hrest
        cases hpure
        exact ⟨buf', hclient⟩

theorem registerConnection_moved (h : s.registerConnection i input = .ok s') :
    s.Moved i input s' := by
  unfold State.registerConnection at h
  cases hi : s.threads[i]? with
  | none =>
      rw [hi] at h
      cases h
      exact .idle fun t ht => by rw [hi] at ht; cases ht
  | some t =>
      rw [hi] at h
      cases t with
      | started =>
          obtain ⟨client_fd, hslot, hpure⟩ := bind_eq_ok.mp h
          cases hpure
          exact .reads hi (Block.written_eq_ok hslot)
      | waiting client_fd c_ter buf =>
          simp only at h
          split at h
          · obtain ⟨r, hattempt, hpure⟩ := bind_eq_ok.mp h
            cases r with
            | none =>
                cases hpure
                exact .waits hi rfl
            | some r =>
                cases hpure
                obtain ⟨hfd, buf', hclient⟩ := registerAttempt_registers hattempt
                rw [← hfd] at hi ⊢
                exact .registers hi hclient
          · cases h
            exact .waits hi rfl
      | exited client_fd =>
          cases h
          exact .idle fun t ht => ⟨client_fd, Option.some.inj (ht.symm.trans hi)⟩

end Moved

end TelnetChat.Server
