import TelnetChat.CRuntime.Channel
import TelnetChat.Server.Monitor

/-!
# The registration handshake (`chat_client.c`, `chat_server.c`)

A client connects and waits for the confirmation.  Then it sends a user name, and
returns when it has received an answer.  Between a client and the server are two
channels.  The threads of the server take what is in flight when they move, and
several may serve one client (`late_reads_share_client`).

All the same, a client that has returned is registered, with its descriptor and the
name that it sent, and a client that waits for its answer was confirmed, and is
answered only once its name is registered (`clients_agree`).  This holds in every interleaving if each `send` takes the whole
message or fails, each `recv` takes what is in flight, and the memory that texts are
built in starts as an empty string.
-/

namespace TelnetChat.Server

open CRuntime TelnetChat Machine

/-! ## The client -/

def userNameKey : List Byte := bytes "user_name"

/-- The name of a client. -/
def Uuid.name (uuid : Uuid) : List Byte := bytes "RSS_" ++ uuid.text

/-- The text that the client sends. -/
def Uuid.request (uuid : Uuid) : List Byte := userNameKey ++ colon :: uuid.name

/-- The memory that the calls of `malloc` in `registerToServer` return. -/
structure Memory where
  buf : Block Byte
  temp : Block Byte
  temp2 : Block Byte
  buf2 : Block Byte
  buf_length : buf.length = 100
  temp_length : temp.length = 100
  temp2_length : temp2.length = 100
  buf2_length : buf2.length = 100

/-- `registerToServer` from its first `recv`, which did not fail, to its second: what it
sends. -/
def registerName (uuid : Uuid) (mem : Memory) (ret : RecvRet) : Exec (List Byte) := do
  let buf ← recvInto mem.buf ret
  let _printed ← printC buf
  let temp ← strcat mem.temp (cstr (bytes "RSS_"))
  let temp ← strcat temp (cstr uuid.text)
  let temp2 ← strcat mem.temp2 (cstr (bytes "user_name:"))
  let temp2 ← strcat temp2 temp
  let userid ← getStringFrom temp2
  let _printed ← printC userid.string
  let leen ← strLen userid.string
  userid.string.loadMany leen 0

/-- `registerToServer` from its second `recv`, which did not fail: what it returns. -/
def registerReply (mem : Memory) (ret : RecvRet) : Exec Int := do
  let buf ← recvInto mem.buf2 ret
  let _printed ← printC buf
  pure 1

/-! ## The system -/

/-- Where a client is. -/
inductive Peer where
  /-- At its first `recv`. -/
  | waiting
  /-- At its second `recv`. -/
  | named (uuid : Uuid)
  /-- After `return` and `close`. -/
  | returned (uuid : Uuid) (ret : Int)
  /-- After the `exit` that follows a `recv` that failed. -/
  | exited

/-- The socket of the client is closed. -/
def Peer.gone : Peer → Bool
  | .returned _ _ => true
  | .exited => true
  | _ => false

/-- The threads of the server and the clients, by descriptor. -/
structure Net where
  threads : State
  /-- What was registered. -/
  registrations : List Registration
  peer : Nat → Peer
  /-- From a client to the server. -/
  up : Nat → Channel
  /-- From the server to a client. -/
  down : Nat → Channel

def Net.init : Net := ⟨.init, [], fun _ => .waiting, fun _ => .fresh, fun _ => .fresh⟩

/-- A `recv` of at most 100 bytes when the kernel has `n` bytes to give. -/
def recvMessage (ch : Channel) (n : Nat) : Option (Message × Channel) :=
  if h : ch.flight.take (min n 100) ≠ [] then
    some (⟨ch.flight.take (min n 100), h, by
      rw [List.length_take, Nat.min_assoc]
      exact Nat.le_trans (Nat.min_le_right _ _) (Nat.min_le_left _ _)⟩, ch.skip (min n 100))
  else none

/-- What a non-blocking `recv` on a descriptor returns, and the channel after it. -/
def Net.recv (s : Net) (fd n : Nat) : RecvRet × Channel :=
  match recvMessage (s.up fd) n with
  | some (msg, ch) => (.data msg, ch)
  | none => (if (s.peer fd).gone = true then .closed else .error, s.up fd)

/-- The descriptor that the registration thread `i` receives from. -/
def State.receiver (s : State) (i : Nat) : Option Nat :=
  match s.threads[i]? with
  | some (.waiting (.ofNat client_fd) c_ter _) => if c_ter < 10 then some client_fd else none
  | _ => none

/-- What a thread that receives from the descriptor gets, and the channels after it. -/
def Net.receive (s : Net) (n : Nat) : Option Nat → RecvRet × (Nat → Channel)
  | some fd => ((s.recv fd n).1, Function.update s.up fd (s.recv fd n).2)
  | none => (.error, s.up)

/-- Messages are sent to the descriptors, and `send` returns `sent`. -/
def sendOut (sent : Int) (down : Nat → Channel) : List Outgoing → Nat → Channel
  | [] => down
  | o :: out =>
      sendOut sent (Function.update down o.client_fd.toNat
        ((down o.client_fd.toNat).send o.msg (some sent.toNat))) out

/-- The registration thread `i` runs to its next point. -/
def Net.register (s : Net) (i : Nat) (input : Input) (n : Nat) (sent : Int) : Exec Net := do
  let taken := s.receive n (s.threads.receiver i)
  let input := { input with ret := taken.1 }
  let threads ← s.threads.registerConnection i input
  pure { s with
    threads := threads
    registrations := s.registrations ++ s.threads.registrations (.register i input)
    up := taken.2
    down := sendOut sent s.down (threads.replies.drop s.threads.replies.length) }

/-- The client with the descriptor `fd` runs to its next `recv`, or to its end.  Its
`recv` waits for a byte. -/
def Net.client (s : Net) (fd : Nat) (uuid : Uuid) (mem : Memory) (n : Nat) (sent : Int) :
    Exec Net :=
  match s.peer fd, recvMessage (s.down fd) n with
  | .waiting, some (msg, ch) => do
      let dd ← registerName uuid mem (.data msg)
      pure { s with
        peer := Function.update s.peer fd (.named uuid)
        up := Function.update s.up fd ((s.up fd).send dd (some sent.toNat))
        down := Function.update s.down fd ch }
  | .named uuid, some (msg, ch) => do
      let ret ← registerReply mem (.data msg)
      pure { s with
        peer := Function.update s.peer fd (.returned uuid ret)
        down := Function.update s.down fd ch }
  | _, _ => pure s

/-- A `recv` of the client fails. -/
def Net.fails (s : Net) (fd : Nat) : Net :=
  if (s.peer fd).gone = true then s
  else { s with peer := Function.update s.peer fd .exited }

inductive NetEvent where
  | accept (ret : AcceptRet)
  | confirm (msendlen : Int)
  | register (i : Nat) (input : Input) (n : Nat) (sent : Int)
  | client (fd : Nat) (uuid : Uuid) (mem : Memory) (n : Nat) (sent : Int)
  | fails (fd : Nat)

def Net.step (s : Net) : NetEvent → Exec Net
  | .accept ret => do
      let threads ← s.threads.acceptConnectionLoop ret
      pure { s with threads := threads }
  | .confirm msendlen => do
      let threads ← s.threads.confirmConnectionLoop msendlen
      pure { s with
        threads := threads
        down := sendOut msendlen s.down (threads.confirmed.drop s.threads.confirmed.length) }
  | .register i input n sent => s.register i input n sent
  | .client fd uuid mem n sent => s.client fd uuid mem n sent
  | .fails fd => pure (s.fails fd)

def NetStep (s : Net) (e : NetEvent) (s' : Net) : Prop := s.step e = .ok s'

/-- What `confirmConSuccessfull` sends. -/
def confirmText : List Byte :=
  bytes "connection:true,msg:please register to server with a username" ++ [0]

/-- What a registration thread answers. -/
def replyText : List Byte := bytes "registeration:true" ++ [0]

/-- What `send` returns when it takes the whole message, or fails. -/
def Whole (msg : List Byte) (sent : Int) : Prop := sent = msg.length ∨ sent = -1

/-- `accept` returns a descriptor that is not open, the memory that texts are built in
is an empty string, `send` takes the whole message or fails, and `recv` takes what is
in flight. -/
def Undivided (s : Net) : NetEvent → Prop
  | .accept (.conn c) => c.fd ∉ s.threads.accepted.map Connection.fd
  | .accept .error => True
  | .confirm msendlen => Whole confirmText msendlen
  | .register i input n sent =>
      EmptyTemp s.threads (.register i input) ∧ 100 ≤ n ∧ Whole replyText sent
  | .client _ uuid mem n sent =>
      CStr mem.temp [] ∧ CStr mem.temp2 [] ∧ 100 ≤ n ∧ Whole (uuid.request ++ [0]) sent
  | .fails _ => True

/-! ## The parts of a step -/

section Parts

variable {ch ch' : Channel} {msg : Message} {n : Nat} {buf : Block Byte} {w rest : List Byte}
  {uuid : Uuid} {mem : Memory}

theorem recvMessage_nil (h : ch.flight = []) : recvMessage ch n = none := by
  simp [recvMessage, h]

/-- A short message is received whole. -/
theorem recvMessage_eq_some (h : recvMessage ch n = some (msg, ch')) (hn : 100 ≤ n) :
    ch.flight ≠ [] ∧ msg.bytes = ch.flight.take 100 ∧ ch' = ch.skip 100 := by
  have hmin : min n 100 = 100 := Nat.min_eq_right hn
  rw [recvMessage] at h
  split at h
  · rename_i hne
    cases h
    exact ⟨fun hnil => hne (by rw [hnil, List.take_nil]), congrArg ch.flight.take hmin,
      congrArg ch.skip hmin⟩
  · cases h

/-- A message is in flight whole or not at all. -/
theorem send_whole {sent : Int} {text : List Byte} (h : Whole text sent)
    (hflight : ch.flight = []) :
    (ch.send text (some sent.toNat)).flight = [] ∨
      (ch.send text (some sent.toNat)).flight = text := by
  rcases h with rfl | rfl
  · simp [Channel.send, hflight]
  · simp [Channel.send, hflight]

theorem over_cstr (h : msg.bytes = w ++ 0 :: rest) (h0 : 0 ∉ w) (buf : Block Byte) :
    CStr (msg.over buf) w := by
  refine .of_eq (rest.map some ++ buf.drop msg.bytes.length) h0 ?_
  rw [Message.over, h]
  simp

/-- The client sends its user name. -/
theorem registerName_returns (htemp : CStr mem.temp []) (htemp2 : CStr mem.temp2 [])
    (hmsg : CStr (msg.over mem.buf) w) :
    registerName uuid mem (.data msg) = .ok (uuid.request ++ [0]) := by
  have huuid := uuid.length_eq
  have hrss : CStr (cstr (bytes "RSS_")) (bytes "RSS_") := cstr_cstr (by decide)
  have hfour : (bytes "RSS_").length = 4 := rfl
  have hkey : bytes "user_name:" = userNameKey ++ [colon] := rfl
  have hnine : userNameKey.length = 9 := rfl
  have hsize := mem.temp_length
  have hsize2 := mem.temp2_length
  -- the name
  obtain ⟨t₁, ht₁, htext₁, hlen₁⟩ := strcat_returns htemp hrss
    (by rw [List.length_nil, hfour, hsize]; decide)
  obtain ⟨t₂, ht₂, htext₂, _⟩ := strcat_returns htext₁ (cstr_cstr uuid.nul_free)
    (by rw [List.nil_append, hfour, huuid, hlen₁, hsize]; decide)
  rw [List.nil_append] at htext₂
  -- the request
  have hname : uuid.name.length = 40 := by
    rw [Uuid.name, List.length_append, hfour, huuid]
  obtain ⟨u₁, u₂, hu₁, hu₂, htext⟩ := keyed_text htemp2 (k := userNameKey) (by decide) htext₂
    (by rw [List.length_nil, hnine, hsize2, ← Uuid.name, hname]; decide)
  obtain ⟨userid, huserid, hholds⟩ := getStringFrom_returns htext
  rw [registerName, recvInto_data mem.buf_length, ok_bind, printC_eq hmsg, ok_bind, ht₁, ok_bind,
    ht₂, ok_bind, hkey, hu₁, ok_bind, hu₂, ok_bind, huserid, ok_bind, printC_eq hholds.text, ok_bind,
    strLen_eq hholds.text, ok_bind, hholds.text.loadMany_eq]
  rfl

theorem registerReply_returns (hmsg : CStr (msg.over mem.buf2) w) :
    registerReply mem (.data msg) = .ok 1 := by
  rw [registerReply, recvInto_data mem.buf2_length, ok_bind, printC_eq hmsg, ok_bind, pure_eq_ok]

/-- What a message is received into starts with it. -/
theorem recvInto_over {buf' : Block Byte} (h : recvInto buf (.data msg) = .ok buf') :
    buf' = msg.over buf := by
  obtain ⟨n, hn⟩ : ∃ n, msg.bytes.length = n + 1 :=
    Nat.exists_eq_succ_of_ne_zero (mt List.length_eq_zero_iff.mp msg.ne_nil)
  have hcopy : buf.copyInto (msg.bytes.map some) 0 (n + 1) = .ok buf' := by
    rw [← hn]
    exact h
  have hlt : 0 + n < buf.length := Block.copyInto_inBounds hcopy
  have hover := Block.copyInto_eq msg.bytes [] [] (buf.take msg.bytes.length)
    (buf.drop msg.bytes.length) (by rw [List.length_take]; omega)
  rw [List.nil_append, List.nil_append, List.take_append_drop, List.append_nil,
    List.length_nil] at hover
  exact Except.ok.inj (h.symm.trans hover)

theorem registerClient_reply {reg : Registry} {fd : Nat} {temp : Block Byte}
    {r : Registry × List Byte} (h : registerClient reg fd uuid temp buf = .ok r) :
    r.2 = replyText := by
  have hmsg : CStr (cstr (bytes "registeration:true")) (bytes "registeration:true") :=
    cstr_cstr (by decide)
  obtain ⟨_, _, hrest⟩ := bind_eq_ok.mp h
  obtain ⟨_, _, hrest⟩ := bind_eq_ok.mp hrest
  obtain ⟨reg', _, hrest⟩ := bind_eq_ok.mp hrest
  simp only [strLen_eq hmsg, ok_bind, hmsg.loadMany_eq] at hrest
  cases hrest
  rfl

end Parts

/-! ## The handshake with one client -/

/-- The client was sent the confirmation. -/
def Net.Confirms (s : Net) (fd : Nat) : Prop :=
  (fd : Int) ∈ s.threads.confirmed.map Outgoing.client_fd

/-- The name is registered with the descriptor. -/
def Net.Registers (s : Net) (fd : Nat) (uuid : Uuid) : Prop :=
  ∃ r ∈ s.registrations, r.client_fd = fd ∧ r.text = uuid.request

/-- How far the handshake with the client is. -/
inductive Net.At (s : Net) (fd : Nat) : Prop where
  | accepted : s.peer fd = .waiting → (s.up fd).flight = [] → (s.down fd).flight = [] →
      ¬ s.Confirms fd → s.At fd
  | confirmed : s.peer fd = .waiting → (s.up fd).flight = [] →
      ((s.down fd).flight = [] ∨ (s.down fd).flight = confirmText) → s.Confirms fd → s.At fd
  | named {uuid : Uuid} : s.peer fd = .named uuid →
      ((s.up fd).flight = [] ∨ (s.up fd).flight = uuid.request ++ [0]) →
      (s.down fd).flight = [] → s.Confirms fd → s.At fd
  | answered {uuid : Uuid} : s.peer fd = .named uuid → (s.up fd).flight = [] →
      ((s.down fd).flight = [] ∨ (s.down fd).flight = replyText) → s.Confirms fd →
      s.Registers fd uuid → s.At fd
  | returned {uuid : Uuid} : s.peer fd = .returned uuid 1 → s.Confirms fd →
      s.Registers fd uuid → s.At fd
  | exited : s.peer fd = .exited → s.At fd

/-- The step does not concern the client. -/
structure Net.Same (s s' : Net) (fd : Nat) : Prop where
  peer : s'.peer fd = s.peer fd
  up : s'.up fd = s.up fd
  down : s'.down fd = s.down fd
  confirms : s'.Confirms fd ↔ s.Confirms fd
  registers : ∀ uuid, s.Registers fd uuid → s'.Registers fd uuid

section At

variable {s s' : Net} {t : State} {fd i n : Nat} {input : Input} {uuid : Uuid}

theorem Net.At.same (h : s.At fd) (hsame : s.Same s' fd) : s'.At fd := by
  cases h with
  | accepted hpeer hup hdown hconfirms =>
      exact .accepted (hsame.peer.trans hpeer) (hsame.up ▸ hup) (hsame.down ▸ hdown)
        (mt hsame.confirms.mp hconfirms)
  | confirmed hpeer hup hdown hconfirms =>
      exact .confirmed (hsame.peer.trans hpeer) (hsame.up ▸ hup) (hsame.down ▸ hdown)
        (hsame.confirms.mpr hconfirms)
  | named hpeer hup hdown hconfirms =>
      exact .named (hsame.peer.trans hpeer) (hsame.up ▸ hup) (hsame.down ▸ hdown)
        (hsame.confirms.mpr hconfirms)
  | answered hpeer hup hdown hconfirms hregisters =>
      exact .answered (hsame.peer.trans hpeer) (hsame.up ▸ hup) (hsame.down ▸ hdown)
        (hsame.confirms.mpr hconfirms) (hsame.registers _ hregisters)
  | returned hpeer hconfirms hregisters =>
      exact .returned (hsame.peer.trans hpeer) (hsame.confirms.mpr hconfirms)
        (hsame.registers _ hregisters)
  | exited hpeer => exact .exited (hsame.peer.trans hpeer)

/-! ### The confirm loop -/

/-- The confirm loop sends to a descriptor that it did not send to before. -/
theorem confirm_out {s s' : State} {msendlen : Int} (h : Reachable Step .init s)
    (hnodup : (s.accepted.map Connection.fd).Nodup) (hs : Step s (.confirm msendlen) s') :
    s'.confirmed = s.confirmed ∨ ∃ c : Connection,
      s'.confirmed = s.confirmed ++ [c.confirmation] ∧
        (c.fd : Int) ∉ s.confirmed.map Outgoing.client_fd := by
  have hconfirmed := run_confirmed (h.step trivial hs)
  cases confirm_turn hs with
  | sleeps _ => exact Or.inl rfl
  | finds _ _ => exact Or.inl rfl
  | marks _ _ => exact Or.inl rfl
  | @starts j_client client_fd sent _ _ =>
      have hmem : sent ∈ s.confirmed ++ [sent] := List.mem_concat_self
      have hin : s.confirmed ++ [sent] = _ := hconfirmed.in_order
      rw [hin] at hmem
      obtain ⟨c, _, rfl⟩ := List.mem_map.mp hmem
      have honce := hconfirmed.once hnodup
      simp only [List.map_append, List.nodup_append] at honce
      exact Or.inr ⟨c, rfl, fun hc => honce.2.2 _ hc _ (List.mem_singleton.mpr rfl) rfl⟩

theorem confirm_at {msendlen : Int} (hsent : Whole confirmText msendlen)
    (h : Reachable Step .init s.threads)
    (hnodup : (s.threads.accepted.map Connection.fd).Nodup) (hat : s.At fd)
    (hs : NetStep s (.confirm msendlen) s') : s'.At fd := by
  obtain ⟨t, ht, hpure⟩ := bind_eq_ok.mp hs
  cases hpure
  rcases confirm_out h hnodup ht with hsame | ⟨c, hc, hfresh⟩
  · have hout : t.confirmed.drop s.threads.confirmed.length = [] := by
      rw [hsame, List.drop_length]
    refine hat.same ⟨rfl, rfl, ?_, ?_, fun _ => id⟩
    · simp only [hout]
      rfl
    · rw [Net.Confirms, Net.Confirms, hsame]
  · have hout : t.confirmed.drop s.threads.confirmed.length = [c.confirmation] := by
      rw [hc, List.drop_left]
    simp only [hout]
    by_cases hfd : fd = c.fd
    · subst hfd
      have hconfirms : ¬ s.Confirms c.fd := hfresh
      cases hat with
      | accepted hpeer hup hdown _ =>
          have hmsg : c.confirmation = ⟨c.fd, confirmText⟩ := rfl
          refine .confirmed hpeer hup ?_ ?_
          · simpa [sendOut, hmsg] using send_whole hsent hdown
          · simp [Net.Confirms, hc, Connection.confirmation]
      | confirmed _ _ _ hyes => exact absurd hyes hconfirms
      | named _ _ _ hyes => exact absurd hyes hconfirms
      | answered _ _ _ hyes _ => exact absurd hyes hconfirms
      | returned _ hyes _ => exact absurd hyes hconfirms
      | exited hpeer => exact .exited hpeer
    · refine hat.same ⟨rfl, rfl, ?_, ?_, fun _ => id⟩
      · simp [sendOut, Connection.confirmation, hfd]
      · simp [Net.Confirms, hc, Connection.confirmation, hfd]

/-! ### The registration threads -/

theorem answers_eq_false {ret : RecvRet} (h : ret.answers = false) : ret = .error := by
  cases ret with
  | error => rfl
  | closed => cases h
  | data _ => cases h

/-- A thread that does not receive from a descriptor does nothing for a client. -/
theorem register_silent {s s' : State} (hret : input.ret = .error)
    (hs : Step s (.register i input) s') :
    s'.replies = s.replies ∧ s.registrations (.register i input) = [] := by
  simp only [Step, State.step, State.registerConnection] at hs
  rw [State.registrations, State.registration, hret]
  have herror : ∀ client_fd, recvOn client_fd .error = .error := fun client_fd => ite_self _
  cases hi : s.threads[i]? with
  | none =>
      simp only [hi] at hs
      cases hs
      exact ⟨rfl, rfl⟩
  | some t =>
      simp only [hi] at hs
      cases t with
      | started =>
          obtain ⟨client_fd, _, hpure⟩ := bind_eq_ok.mp hs
          cases hpure
          exact ⟨rfl, rfl⟩
      | exited client_fd =>
          cases hs
          exact ⟨rfl, rfl⟩
      | waiting client_fd c_ter buf =>
          simp only [hret, herror, registerAttempt, pure_eq_ok, ok_bind] at hs
          refine ⟨?_, by simp [herror, RecvRet.answers]⟩
          split at hs
          · cases hs
            rfl
          · cases hs
            rfl

/-- A thread that receives from a descriptor answers, and registers what it
received. -/
theorem register_answers {s s' : State} (hfd : s.receiver i = some fd)
    (hret : input.ret.answers = true) (hs : Step s (.register i input) s') :
    s'.replies = s.replies ++ [⟨fd, replyText⟩] ∧ ∃ r,
      s.registrations (.register i input) = [r] ∧ r.client_fd = fd ∧
        ∀ msg w, input.ret = .data msg → (∀ buf, CStr (msg.over buf) w) → r.text = w := by
  rw [State.receiver] at hfd
  cases hi : s.threads[i]? with
  | none => simp [hi] at hfd
  | some t =>
      cases t with
      | started => simp [hi] at hfd
      | exited client_fd => simp [hi] at hfd
      | waiting client_fd c_ter buf =>
          cases client_fd with
          | negSucc m => simp [hi] at hfd
          | ofNat client_fd =>
              simp only [hi, Option.ite_none_right_eq_some, Option.some.injEq] at hfd
              obtain ⟨hten, rfl⟩ := hfd
              have hrecv : recvOn (Int.ofNat client_fd) input.ret = input.ret :=
                recvOn_natCast client_fd input.ret
              simp only [Step, State.step, State.registerConnection, hi, if_pos hten, hrecv] at hs
              obtain ⟨r, hattempt, hpure⟩ := bind_eq_ok.mp hs
              have hsome := registerAttempt_isSome hattempt
              rw [hret] at hsome
              obtain ⟨r, rfl⟩ := Option.isSome_iff_exists.mp hsome
              cases hpure
              have hclient := registerAttempt_received hattempt
              simp only [State.registrations, State.registration, hi, hten, hrecv, hret, and_self,
                if_true, Option.toList_some]
              refine ⟨by rw [registerClient_reply hclient]; rfl, _, rfl, rfl, ?_⟩
              intro msg w hmsg htext
              rw [hmsg] at hattempt ⊢
              obtain ⟨buf', hinto, _⟩ := bind_eq_ok.mp hattempt
              rw [received, hinto, recvInto_over hinto]
              exact bufferText_eq (htext buf)

theorem Net.Registers.append (h : s.Registers fd uuid) (rs : List Registration) :
    ∃ r ∈ s.registrations ++ rs, r.client_fd = fd ∧ r.text = uuid.request := by
  obtain ⟨r, hr, hrest⟩ := h
  exact ⟨r, List.mem_append_left rs hr, hrest⟩

theorem request_length (uuid : Uuid) : (uuid.request ++ [0]).length = 51 := by
  have hnine : userNameKey.length = 9 := rfl
  have hfour : (bytes "RSS_").length = 4 := rfl
  simp [Uuid.request, Uuid.name, hnine, hfour, uuid.length_eq]

theorem request_nul_free (uuid : Uuid) : 0 ∉ uuid.request := by
  have hkey : 0 ∉ userNameKey := by decide
  have hrss : 0 ∉ bytes "RSS_" := by decide
  have hcolon : (0 : Byte) ≠ colon := by decide
  simp [Uuid.request, Uuid.name, hkey, hrss, hcolon, uuid.nul_free]

/-- A descriptor that has nothing in flight is not answered. -/
theorem recv_error (hup : (s.up fd).flight = []) (hgone : (s.peer fd).gone = false) :
    s.recv fd n = (.error, s.up fd) := by
  rw [Net.recv, recvMessage_nil hup]
  simp [hgone]

/-- A name that is in flight is received whole. -/
theorem recv_request (hup : (s.up fd).flight = uuid.request ++ [0]) (hn : 100 ≤ n) :
    ∃ msg ch, s.recv fd n = (.data msg, ch) ∧ ch.flight = [] ∧
      ∀ buf, CStr (msg.over buf) uuid.request := by
  have hle : (uuid.request ++ [0]).length ≤ 100 := by
    rw [request_length]
    decide
  rw [Net.recv]
  cases hmsg : recvMessage (s.up fd) n with
  | none =>
      have hmin : min n 100 = 100 := Nat.min_eq_right hn
      rw [recvMessage, dif_pos] at hmsg
      · cases hmsg
      · rw [hmin, hup, List.take_of_length_le hle]
        exact List.append_ne_nil_of_right_ne_nil _ (List.cons_ne_nil _ _)
  | some r =>
      obtain ⟨msg, ch⟩ := r
      obtain ⟨_, hbytes, rfl⟩ := recvMessage_eq_some hmsg hn
      rw [hup, List.take_of_length_le hle] at hbytes
      refine ⟨msg, _, rfl, ?_, over_cstr hbytes (request_nul_free uuid)⟩
      rw [Channel.skip, hup, List.drop_eq_nil_of_le hle]

theorem register_confirmed {s s' : State} (hs : Step s (.register i input) s') :
    s'.confirmed = s.confirmed := by
  cases registerConnection_moved hs with
  | idle _ => rfl
  | reads _ _ => rfl
  | waits _ _ => rfl
  | registers _ _ => rfl

/-- A thread serves the client of the descriptor that it receives from. -/
theorem register_at {sent : Int} (hn : 100 ≤ n) (hsent : Whole replyText sent) (hat : s.At fd)
    (hs : NetStep s (.register i input n sent) s') : s'.At fd := by
  obtain ⟨t, ht, hpure⟩ := bind_eq_ok.mp hs
  have hsame : s'.threads.confirmed = s.threads.confirmed := by
    cases hpure
    exact register_confirmed ht
  have hconfirms : s'.Confirms fd ↔ s.Confirms fd := by
    rw [Net.Confirms, Net.Confirms, hsame]
  have hregisters : ∀ uuid, s.Registers fd uuid → s'.Registers fd uuid := by
    cases hpure
    exact fun _ h => h.append _
  have hpeer : s'.peer fd = s.peer fd := by
    cases hpure
    rfl
  have silent : (s.receive n (s.threads.receiver i)).1 = .error →
      (s.receive n (s.threads.receiver i)).2 fd = s.up fd → s'.At fd := by
    intro hret hup
    obtain ⟨hreplies, _⟩ := register_silent hret ht
    refine hat.same ⟨hpeer, ?_, ?_, hconfirms, hregisters⟩
    · cases hpure
      exact hup
    · cases hpure
      simp only [hreplies, List.drop_length]
      rfl
  cases hrecv : s.threads.receiver i with
  | none => exact silent (by rw [hrecv]; rfl) (by rw [hrecv]; rfl)
  | some fd' =>
      by_cases hfd : fd = fd'
      · subst hfd
        have error : (s.up fd).flight = [] → (s.peer fd).gone = false → s'.At fd := by
          intro hup hgone
          have herror := recv_error (n := n) hup hgone
          refine silent (by rw [hrecv, Net.receive, herror]) ?_
          rw [hrecv, Net.receive, herror]
          exact Function.update_self _ _ _
        cases hat with
        | accepted hwaiting hup _ _ => exact error hup (by rw [hwaiting]; rfl)
        | confirmed hwaiting hup _ _ => exact error hup (by rw [hwaiting]; rfl)
        | answered hnamed hup _ _ _ => exact error hup (by rw [hnamed]; rfl)
        | returned hreturned hyes hregister =>
            exact .returned (hpeer.trans hreturned) (hconfirms.mpr hyes) (hregisters _ hregister)
        | exited hexited => exact .exited (hpeer.trans hexited)
        | @named uuid hnamed hup hdown hyes =>
            rcases hup with hup | hup
            · exact error hup (by rw [hnamed]; rfl)
            -- the name is taken and registered, and the client is answered
            obtain ⟨msg, ch, hreceived, hflight, htext⟩ := recv_request hup hn
            rw [hrecv] at ht hpure
            simp only [Net.receive, hreceived] at ht hpure
            obtain ⟨hreplies, r, hr, hrfd, hrtext⟩ := register_answers hrecv rfl ht
            have hin : s'.Registers fd uuid := by
              cases hpure
              exact ⟨r, List.mem_append_right _ (hr ▸ List.mem_singleton.mpr rfl), hrfd,
                hrtext msg _ rfl htext⟩
            refine .answered (hpeer.trans hnamed) ?_ ?_ (hconfirms.mpr hyes) hin
            · cases hpure
              simpa using hflight
            · cases hpure
              simpa [hreplies, sendOut] using send_whole hsent hdown
      · refine hat.same ⟨hpeer, ?_, ?_, hconfirms, hregisters⟩
        · cases hpure
          simp [hrecv, Net.receive, hfd]
        · cases hans : (s.receive n (s.threads.receiver i)).1.answers with
          | false =>
              obtain ⟨hreplies, _⟩ := register_silent (answers_eq_false hans) ht
              cases hpure
              simp only [hreplies, List.drop_length]
              rfl
          | true =>
              obtain ⟨hreplies, _⟩ := register_answers hrecv hans ht
              cases hpure
              simp [hreplies, sendOut, hfd]

/-! ### The client -/

/-- The client comes to its next `recv`, whatever it received. -/
theorem client_at {fd' : Nat} {mem : Memory} {sent : Int} (htemp : CStr mem.temp [])
    (htemp2 : CStr mem.temp2 []) (hn : 100 ≤ n) (hsent : Whole (uuid.request ++ [0]) sent)
    (hat : ∀ fd, s.At fd) :
    Returns (s.client fd' uuid mem n sent) fun s' => s'.threads = s.threads ∧
      s'.registrations = s.registrations ∧ ∀ fd, s'.At fd := by
  have same : ∀ s' : Net, s'.threads = s.threads → s'.registrations = s.registrations →
      (∀ fd ≠ fd', s'.peer fd = s.peer fd ∧ s'.up fd = s.up fd ∧ s'.down fd = s.down fd) →
      s'.At fd' → ∀ fd, s'.At fd := by
    intro s' hthreads hregistrations hothers hself fd
    by_cases hfd : fd = fd'
    · exact hfd ▸ hself
    · obtain ⟨hpeer, hup, hdown⟩ := hothers fd hfd
      refine (hat fd).same ⟨hpeer, hup, hdown, ?_, ?_⟩
      · rw [Net.Confirms, Net.Confirms, hthreads]
      · intro uuid
        rw [Net.Registers, Net.Registers, hregistrations]
        exact id
  have stays : s.client fd' uuid mem n sent = pure s →
      Returns (s.client fd' uuid mem n sent) fun s' =>
      s'.threads = s.threads ∧ s'.registrations = s.registrations ∧ ∀ fd, s'.At fd :=
    fun h => h ▸ returns_ok.mpr ⟨rfl, rfl, hat⟩
  have hconfirmLen : confirmText.length ≤ 100 := by decide
  have hreplyLen : replyText.length ≤ 100 := by decide
  cases hat fd' with
  | accepted hpeer hup hdown hconfirms =>
      exact stays (by rw [Net.client, hpeer, recvMessage_nil hdown])
  | named hpeer hup hdown hconfirms =>
      exact stays (by rw [Net.client, hpeer, recvMessage_nil hdown])
  | returned hpeer hconfirms hregisters => exact stays (by rw [Net.client, hpeer])
  | exited hpeer => exact stays (by rw [Net.client, hpeer])
  | confirmed hpeer hup hdown hconfirms =>
      cases hmsg : recvMessage (s.down fd') n with
      | none => exact stays (by rw [Net.client, hpeer, hmsg])
      | some r =>
          obtain ⟨msg, ch⟩ := r
          obtain ⟨hne, hbytes, rfl⟩ := recvMessage_eq_some hmsg hn
          replace hdown := hdown.resolve_left hne
          rw [hdown, List.take_of_length_le hconfirmLen] at hbytes
          have hname : registerName uuid mem (.data msg) = .ok (uuid.request ++ [0]) :=
            registerName_returns htemp htemp2 (over_cstr hbytes (by decide) mem.buf)
          rw [Net.client, hpeer, hmsg]
          simp only [hname, ok_bind, pure_eq_ok, returns_ok]
          refine ⟨trivial, trivial, same _ rfl rfl ?_ (@Net.At.named _ _ uuid ?_ ?_ ?_ ?_)⟩
          · intro fd hfd
            simp [hfd]
          · simp
          · simpa using send_whole hsent hup
          · simp [Channel.skip, hdown, hconfirmLen]
          · exact hconfirms
  | @answered uuid' hpeer hup hdown hconfirms hregisters =>
      cases hmsg : recvMessage (s.down fd') n with
      | none => exact stays (by rw [Net.client, hpeer, hmsg])
      | some r =>
          obtain ⟨msg, ch⟩ := r
          obtain ⟨hne, hbytes, rfl⟩ := recvMessage_eq_some hmsg hn
          rw [hdown.resolve_left hne, List.take_of_length_le hreplyLen] at hbytes
          have hreply := registerReply_returns (over_cstr hbytes (by decide) mem.buf2)
          rw [Net.client, hpeer, hmsg]
          simp only [hreply, ok_bind, pure_eq_ok, returns_ok]
          refine ⟨trivial, trivial, same _ rfl rfl ?_ (@Net.At.returned _ _ uuid' ?_ ?_ ?_)⟩
          · intro fd hfd
            simp [hfd]
          · simp
          · exact hconfirms
          · exact hregisters

theorem fails_at {fd' : Nat} (hat : s.At fd) : (s.fails fd').At fd := by
  rw [Net.fails]
  split
  · exact hat
  · by_cases hfd : fd = fd'
    · exact .exited (by simp [hfd])
    · exact hat.same ⟨by simp [hfd], rfl, rfl, Iff.rfl, fun _ => id⟩

end At

/-! ## Runs -/

/-- What holds between the steps. -/
structure Net.Inv (s : Net) : Prop where
  threads : Reachable Step .init s.threads
  distinct : (s.threads.accepted.map Connection.fd).Nodup
  shows : Shows s.threads.confirm_reg (s.registrations.map Registration.pairs)
  peers : ∀ fd, s.At fd

/-- What the clients and the server agree on. -/
structure Net.Agrees (s : Net) : Prop where
  /-- A client that has returned has a record with its descriptor and its name. -/
  returned : ∀ fd uuid ret, s.peer fd = .returned uuid ret → ret = 1 ∧ ∃ k json,
    k < s.threads.confirm_reg.size ∧ s.threads.confirm_reg.cells.load k = .ok json ∧
    Finds (valueOf json sockfdKey) (decimal fd) ∧ Finds (valueOf json userNameKey) uuid.name
  /-- A client that waits for the answer to its name was accepted and confirmed, and an
  answer is in flight to it only if the name is registered. -/
  named : ∀ fd uuid, s.peer fd = .named uuid →
    (∃ c ∈ s.threads.accepted, c.fd = fd ∧ c.confirmation ∈ s.threads.confirmed) ∧
    ((s.up fd).flight = [] ∨ (s.up fd).flight = uuid.request ++ [0]) ∧
    ((s.down fd).flight = [] ∨ (s.down fd).flight = replyText ∧ s.Registers fd uuid)
  /-- The clients do not fault. -/
  steps : ∀ fd uuid mem n sent, Undivided s (.client fd uuid mem n sent) →
    ∃ s', NetStep s (.client fd uuid mem n sent) s'

section Runs

variable {s s' : Net} {e : NetEvent} {fd : Nat} {uuid : Uuid}

theorem accept_distinct {s s' : State} {ret : AcceptRet}
    (hfresh : ∀ c, ret = .conn c → c.fd ∉ s.accepted.map Connection.fd)
    (h : (s.accepted.map Connection.fd).Nodup) (hs : Step s (.accept ret) s') :
    (s'.accepted.map Connection.fd).Nodup := by
  cases accept_turn hs with
  | fails _ => exact h
  | ended _ => exact h
  | stores _ _ _ =>
      rw [List.map_append, List.map_singleton, List.nodup_append]
      refine ⟨h, List.nodup_singleton _, ?_⟩
      rintro fd hfd _ hc rfl
      rw [List.mem_singleton.mp hc] at hfd
      exact hfresh _ rfl hfd

theorem accept_confirmed {s s' : State} {ret : AcceptRet} (hs : Step s (.accept ret) s') :
    s'.confirmed = s.confirmed := by
  cases accept_turn hs with
  | fails _ => rfl
  | stores _ _ _ => rfl
  | ended _ => rfl

theorem accepted_of_not_accept {s s' : State} {e : Event} (hs : Step s e s')
    (he : e.acceptRet = none) : s'.accepted = s.accepted :=
  congrArg Prod.snd (accept_other hs he)

theorem Net.Inv.step (h : s.Inv) (hG : Undivided s e) (hs : NetStep s e s') : s'.Inv := by
  cases e with
  | accept ret =>
      obtain ⟨t, ht, hpure⟩ := bind_eq_ok.mp hs
      have ht : Step s.threads (.accept ret) t := ht
      cases hpure
      have hfresh : ∀ c, ret = .conn c → c.fd ∉ s.threads.accepted.map Connection.fd := by
        rintro c rfl
        exact hG
      refine ⟨h.threads.step trivial ht, accept_distinct hfresh h.distinct ht, ?_, ?_⟩
      · rw [(accept_starts ht).confirm_reg]
        exact h.shows
      · intro fd
        refine (h.peers fd).same ⟨rfl, rfl, rfl, ?_, fun _ => id⟩
        rw [Net.Confirms, Net.Confirms, accept_confirmed ht]
  | confirm msendlen =>
      have hat := fun fd => confirm_at hG h.threads h.distinct (h.peers fd) hs
      obtain ⟨t, ht, hpure⟩ := bind_eq_ok.mp hs
      have ht : Step s.threads (.confirm msendlen) t := ht
      cases hpure
      refine ⟨h.threads.step trivial ht, ?_, ?_, hat⟩
      · rw [accepted_of_not_accept ht rfl]
        exact h.distinct
      · rw [(confirm_starts ht).confirm_reg]
        exact h.shows
  | register i input n sent =>
      have hat := fun fd => register_at hG.2.1 hG.2.2 (h.peers fd) hs
      obtain ⟨t, ht, hpure⟩ := bind_eq_ok.mp hs
      have ht : Step s.threads (.register i _) t := ht
      cases hpure
      refine ⟨h.threads.step trivial ht, ?_, register_shows hG.1 h.shows ht, hat⟩
      rw [accepted_of_not_accept ht rfl]
      exact h.distinct
  | client fd uuid mem n sent =>
      obtain ⟨htemp, htemp2, hn, hsent⟩ := hG
      obtain ⟨hthreads, hregistrations, hat⟩ :=
        (client_at htemp htemp2 hn hsent h.peers).result hs
      constructor
      · rw [hthreads]
        exact h.threads
      · rw [hthreads]
        exact h.distinct
      · rw [hthreads, hregistrations]
        exact h.shows
      · exact hat
  | fails fd =>
      cases hs
      have hthreads : (s.fails fd).threads = s.threads := by
        rw [Net.fails]
        split <;> rfl
      have hregistrations : (s.fails fd).registrations = s.registrations := by
        rw [Net.fails]
        split <;> rfl
      constructor
      · rw [hthreads]
        exact h.threads
      · rw [hthreads]
        exact h.distinct
      · rw [hthreads, hregistrations]
        exact h.shows
      · exact fun fd => fails_at (h.peers fd)

theorem run_inv (h : Run NetStep Undivided .init s) : s.Inv := by
  refine h.invariant (I := Net.Inv) ?_ fun s e s' hG hI hs => hI.step hG hs
  exact ⟨.init, List.nodup_nil, ⟨[], createRegister_holds, .nil⟩,
    fun fd => .accepted rfl rfl rfl List.not_mem_nil⟩

/-- What is found in the record of a name. -/
theorem finds_request {json : Json} {r : Registration} (h : Pairs json r.pairs)
    (htext : r.text = uuid.request) :
    Finds (valueOf json sockfdKey) (decimal r.client_fd) ∧
      Finds (valueOf json userNameKey) uuid.name := by
  have hcolon : colon ∉ uuid.name := by
    have hrss : colon ∉ bytes "RSS_" := by decide
    simp [Uuid.name, hrss, uuid.colon_free]
  have hne : some sockfdKey ≠ some userNameKey := by decide
  have hfields : fields r.text = (some userNameKey, some uuid.name) := by
    rw [htext, Uuid.request]
    exact fields_keyed (by decide) (by decide) hcolon
  have hname : lookup userNameKey r.pairs = some (some userNameKey, some uuid.name) := by
    rw [Registration.pairs, registrationPairs, hfields,
      lookup_cons_of_ne (p := (some sockfdKey, some (decimal r.client_fd))) hne,
      lookup_cons_self]
  have hfd : lookup sockfdKey r.pairs = some (some sockfdKey, some (decimal r.client_fd)) :=
    lookup_cons_self sockfdKey (some (decimal r.client_fd)) _
  exact ⟨(valueOf_returns h (by decide) hfd).mono fun _ hslot => slot_written hslot,
    (valueOf_returns h (by decide) hname).mono fun _ hslot => slot_written hslot⟩

theorem Net.Inv.record (h : s.Inv) (hregisters : s.Registers fd uuid) : ∃ k json,
    k < s.threads.confirm_reg.size ∧ s.threads.confirm_reg.cells.load k = .ok json ∧
    Finds (valueOf json sockfdKey) (decimal fd) ∧ Finds (valueOf json userNameKey) uuid.name := by
  obtain ⟨r, hr, rfl, htext⟩ := hregisters
  obtain ⟨k, hk⟩ := List.getElem?_of_mem hr
  obtain ⟨hlt, _⟩ := List.getElem?_eq_some_iff.mp hk
  have hrow : (s.registrations.map Registration.pairs)[k]? = some r.pairs := by
    rw [List.getElem?_map, hk]
    rfl
  obtain ⟨json, hload, hpairs⟩ := h.shows.load hrow
  refine ⟨k, json, ?_, hload, finds_request hpairs htext⟩
  rw [h.shows.size_eq, List.length_map]
  exact hlt

/-- A client that was confirmed is an accepted one. -/
theorem Net.Inv.accepted (h : s.Inv) (hconfirms : s.Confirms fd) :
    ∃ c ∈ s.threads.accepted, c.fd = fd ∧ c.confirmation ∈ s.threads.confirmed := by
  obtain ⟨o, ho, hfd⟩ := List.mem_map.mp hconfirms
  have hmem := ho
  rw [(run_confirmed h.threads).in_order] at hmem
  obtain ⟨c, hc, rfl⟩ := List.mem_map.mp hmem
  exact ⟨c, List.mem_of_mem_take hc, Int.ofNat.inj hfd, ho⟩

/-- A client that has returned is registered, with its descriptor and the name that it
sent, and it sent the name after it was confirmed.  This holds in every interleaving,
whatever threads serve the client. -/
theorem clients_agree (h : Run NetStep Undivided .init s) : s.Agrees := by
  have hI := run_inv h
  constructor
  · intro fd uuid ret hreturned
    cases hI.peers fd with
    | returned hpeer _ hregisters =>
        rw [hpeer, Peer.returned.injEq] at hreturned
        obtain ⟨rfl, rfl⟩ := hreturned
        exact ⟨rfl, hI.record hregisters⟩
    | accepted hpeer _ _ _ => cases hpeer.symm.trans hreturned
    | confirmed hpeer _ _ _ => cases hpeer.symm.trans hreturned
    | named hpeer _ _ _ => cases hpeer.symm.trans hreturned
    | answered hpeer _ _ _ _ => cases hpeer.symm.trans hreturned
    | exited hpeer => cases hpeer.symm.trans hreturned
  · intro fd uuid hnamed
    cases hI.peers fd with
    | named hpeer hup hdown hconfirms =>
        rw [hpeer, Peer.named.injEq] at hnamed
        exact ⟨hI.accepted hconfirms, hnamed ▸ hup, Or.inl hdown⟩
    | answered hpeer hup hdown hconfirms hregisters =>
        rw [hpeer, Peer.named.injEq] at hnamed
        exact ⟨hI.accepted hconfirms, Or.inl hup,
          hdown.imp_right fun h => ⟨h, hnamed ▸ hregisters⟩⟩
    | accepted hpeer _ _ _ => cases hpeer.symm.trans hnamed
    | confirmed hpeer _ _ _ => cases hpeer.symm.trans hnamed
    | returned hpeer _ _ => cases hpeer.symm.trans hnamed
    | exited hpeer => cases hpeer.symm.trans hnamed
  · rintro fd uuid mem n sent ⟨htemp, htemp2, hn, hsent⟩
    obtain ⟨s', hs', _⟩ := @client_at s n uuid fd mem sent htemp htemp2 hn hsent hI.peers
    exact ⟨s', hs'⟩

/-! ### A run -/

/-- `accept` returns a descriptor that is open. -/
def Net.reopens (s : Net) : NetEvent → Bool
  | .accept (.conn c) => c.fd ∈ s.threads.accepted.map Connection.fd
  | _ => false

/-- The step function, as a schedule follows it. -/
def Net.next (s : Net) (e : NetEvent) : Option Net :=
  if s.reopens e = true then none else (s.step e).toOption

/-- What the client returned. -/
def Peer.result : Peer → Option Int
  | .returned _ ret => some ret
  | _ => none

theorem length_zeroed : (calloc 100).length = 100 := length_calloc 100

def zeroMemory : Memory :=
  ⟨calloc 100, calloc 100, calloc 100, calloc 100, length_zeroed, length_zeroed, length_zeroed,
    length_zeroed⟩

/-- A client is accepted, confirmed and registered. -/
def handshake : List NetEvent :=
  [.accept (.conn client5), .confirm 62, .confirm 62, .client 5 sampleUuid zeroMemory 100 51,
    .register 0 sampleInput 100 19, .register 0 sampleInput 100 19,
    .client 5 sampleUuid zeroMemory 100 51]

theorem clients_agree_registered : ∃ s : Net, (s.peer 5).result = some 1 ∧
    s.registrations.map Registration.text = [sampleUuid.request] ∧ s.Agrees := by
  have hview : (replay Net.next handshake .init).map (fun s =>
      ((s.peer 5).result, s.registrations.map Registration.text)) =
      some (some 1, [sampleUuid.request]) := by
    decide +kernel
  have hzero : CStr (calloc 100) [] := .of_eq (calloc 99) List.not_mem_nil rfl
  have hguard : ∀ e ∈ handshake, ∀ s : Net, s.reopens e = false → Undivided s e := by
    have hconfirm : Whole confirmText 62 := Or.inl rfl
    have hreply : Whole replyText 19 := Or.inl rfl
    have hname : Whole (sampleUuid.request ++ [0]) 51 := Or.inl rfl
    simp [handshake, Undivided, Net.reopens, EmptyTemp, sampleInput_temp, zeroMemory, hzero,
      hconfirm, hreply, hname]
  have hstep : ∀ e ∈ handshake, ∀ s s', s.next e = some s' →
      Undivided s e ∧ NetStep s e s' := by
    intro e he s s' hs
    rw [Net.next, Option.ite_none_left_eq_some, Bool.not_eq_true] at hs
    exact ⟨hguard e he s hs.1, toOption_eq_some hs.2⟩
  obtain ⟨s, hrun, hview⟩ := replay_view hstep hview
  simp only [Prod.mk.injEq] at hview
  obtain ⟨hresult, htexts⟩ := hview
  exact ⟨s, hresult, htexts, clients_agree hrun⟩

end Runs

end TelnetChat.Server
