import TelnetChat.CRuntime.Channel
import TelnetChat.Vip.Accept
import TelnetChat.Vip.Stream

/-!
# Clients and server over TCP

Any number of clients run `testchat` against the threads of the server.  Between a
client and its thread are two channels, and the kernel delivers what is in flight in
pieces of any size, from one byte to the twenty that `recv` asks for.  A client may
go away at any time.

If each `send` takes the whole message, then in every interleaving and however the
bytes are cut (`conversation_safe`):

*Safety.*  No thread of the server and no client faults.  Each `printf` of a received
buffer ends within its twenty bytes.  A piece of one byte leaves a key that was never
written, which `compareKey` takes to differ from `"msg"`.

*Entries.*  Every entry of the registry starts a text that its author sent.

*Displays.*  Every text that a client displays is a part of a message that some client
sent.
-/

namespace TelnetChat.Vip

open CRuntime TelnetChat Machine

/-! ## The system -/

/-- A client in `testchat`.  The last two fields are its history. -/
structure User where
  /-- At `recvFromSocket`. -/
  waits : Bool
  /-- The texts that it made and sent. -/
  texts : List (List Byte)
  /-- What `printf` showed of the received buffers. -/
  printed : List (List Byte)

structure World (ι : Type) where
  chat : Chat ι
  user : ι → User
  /-- From a client to its thread. -/
  up : ι → Channel
  /-- From a thread to its client. -/
  down : ι → Channel

def World.init {ι : Type} : World ι :=
  ⟨.init, fun _ => ⟨false, [], []⟩, fun _ => .fresh, fun _ => .fresh⟩

/-- A `recv` of at most 20 bytes when the kernel has `n` bytes to give, or when the
other side is gone. -/
def recvFrom (ch : Channel) : Option Nat → RecvRet × Channel
  | none => (.closed, ch)
  | some n =>
      if h : ch.flight.take (min n 20) = [] then (.error, ch)
      else (.data ⟨ch.flight.take (min n 20), h, by
        rw [List.length_take, Nat.min_assoc]
        exact Nat.le_trans (Nat.min_le_right _ _) (Nat.min_le_left _ _)⟩, ch.skip (min n 20))

/-- What `recv` returns to the thread of `c`, if it is at its `recv`. -/
def World.arrives {ι : Type} (s : World ι) (c : ι) (n : Option Nat) : RecvRet × Channel :=
  if (s.chat.client c).pc = .recv then recvFrom (s.up c) n else (.error, s.up c)

section System

variable {ι : Type} [DecidableEq ι]

/-- The thread of `c` runs to its next point. -/
def World.server (s : World ι) (c : ι) (n taken : Option Nat) : Exec (World ι) := do
  let r ← recvFromSocket (s.arrives c n).1 (calloc 20)
  let chat ← s.chat.step c r
  let sent := (framesSince (s.chat.client c) (chat.client c)).flatten
  pure { s with
    chat := chat
    up := Function.update s.up c (s.arrives c n).2
    down := Function.update s.down c ((s.down c).send sent taken) }

/-- The client `c` runs to its next `recv`, or to the end of the iteration. -/
def World.testchat (s : World ι) (c : ι) (rand : Nat → Nat) (n taken : Option Nat) :
    Exec (World ι) :=
  if (s.user c).waits = true then do
    let r ← recvFromSocket (recvFrom (s.down c) n).1 (calloc 20)
    -- `printf` reads the buffer
    let _printed ← strLen r.buf
    pure { s with
      user := Function.update s.user c { s.user c with
        waits := false
        printed := (s.user c).printed ++ [textOf r.buf] }
      down := Function.update s.down c (recvFrom (s.down c) n).2 }
  else do
    let (sendmsg, msg, sent) ← ChatClient.testchat rand 10
    let _printed ← strLen msg.string
    pure { s with
      user := Function.update s.user c { s.user c with
        waits := true
        texts := (s.user c).texts ++ [textOf sendmsg] }
      up := Function.update s.up c ((s.up c).send sent taken) }

/-- Who moves, what the kernel has for its `recv`, and how many bytes its `send`
takes, where `none` is all. -/
inductive WorldEvent (ι : Type) where
  | server (c : ι) (n taken : Option Nat)
  | client (c : ι) (rand : Nat → Nat) (n taken : Option Nat)

def World.step (s : World ι) : WorldEvent ι → Exec (World ι)
  | .server c n taken => s.server c n taken
  | .client c rand n taken => s.testchat c rand n taken

def WorldStep (s : World ι) (e : WorldEvent ι) (s' : World ι) : Prop := s.step e = .ok s'

/-- The socket takes the whole message. -/
def WorldEvent.whole : WorldEvent ι → Bool
  | .server _ _ taken => taken.isNone
  | .client _ _ _ taken => taken.isNone

end System

/-! ## The invariant -/

section Invariant

variable {ι : Type} {s s' : World ι} {c d : ι} {v w : List Byte} {chunk : Chunk}
  {vs : List (List Byte)}

/-- Some client sent a text that starts with `v`. -/
def World.Said (s : World ι) (v : List Byte) : Prop :=
  ∃ b, ∃ t ∈ (s.user b).texts, v <+: t

/-- Nothing, or a part of a message of a text that was said. -/
def World.Shown (s : World ι) (p : List Byte) : Prop := p = [] ∨ ∃ v, s.Said v ∧ p <:+: msgText v

/-- A text that `randstr` makes. -/
structure RandomText (v : List Byte) : Prop where
  length_eq : v.length = 9
  nul_free : 0 ∉ v
  colon_free : colon ∉ v

/-- The chunk is a part of the stream of the messages. -/
def PartOf (vs : List (List Byte)) (chunk : Chunk) : Prop :=
  chunk.bytes <:+: Framing.stream 0 (vs.map msgText)

structure World.Inv [DecidableEq ι] (s : World ι) : Prop where
  chat : Run Step (Receives fun buf => ∃ w, CStr buf w) .init s.chat
  texts : ∀ c, ∀ v ∈ (s.user c).texts, RandomText v
  /-- The threads received parts of what their clients sent. -/
  received : ∀ c, ∀ buf ∈ (s.chat.client c).received,
    ∃ chunk : Chunk, buf = chunk.recv.buf ∧ PartOf (s.user c).texts chunk
  up : ∀ c, (s.up c).total = Framing.stream 0 ((s.user c).texts.map msgText)
  down : ∀ c, ∃ vs : List (List Byte), (∀ v ∈ vs, s.Said v) ∧
    (s.down c).total = Framing.stream 0 (vs.map msgText)
  printed : ∀ c, ∀ p ∈ (s.user c).printed, s.Shown p

/-! ### Parts of a stream -/

/-- A part of a stream of short messages is a C string in a buffer of 20 bytes. -/
theorem PartOf.cstr (h : PartOf vs chunk) (hvs : ∀ v ∈ vs, v.length ≤ 9) :
    CStr chunk.recv.buf (chunk.bytes.takeWhile (· ≠ 0)) := by
  apply Chunk.recv_cstr
  by_cases hnul : 0 ∈ chunk.bytes
  · exact Or.inl hnul
  · rcases Framing.infix_of_stream h hnul with hnil | ⟨t, ht, hpart⟩
    · exact absurd hnil chunk.ne_nil
    · obtain ⟨v, hv, rfl⟩ := List.mem_map.mp ht
      have hlen := hvs v hv
      have hle := hpart.length_le
      have hfour : msgPrefix.length = 4 := rfl
      rw [msgText, List.length_append] at hle
      exact Or.inr (by omega)

/-- What is read of a part of the stream is a part of a message. -/
theorem PartOf.text (h : PartOf vs chunk) (hvs : ∀ v ∈ vs, v.length ≤ 9) :
    textOf chunk.recv.buf = [] ∨ ∃ v ∈ vs, textOf chunk.recv.buf <:+: msgText v := by
  rw [textOf_eq (h.cstr hvs)]
  have hstart : chunk.bytes.takeWhile (· ≠ 0) <+: chunk.bytes := List.takeWhile_prefix _
  rcases Framing.infix_of_stream (hstart.isInfix.trans h) (Text.notMem_takeWhile 0 _) with
    hnil | ⟨t, ht, hpart⟩
  · exact Or.inl hnil
  · obtain ⟨v, hv, rfl⟩ := List.mem_map.mp ht
    exact Or.inr ⟨v, hv, hpart⟩

/-- What is stored of a part of the stream starts one of its texts. -/
theorem PartOf.entry (h : PartOf vs chunk) (hvs : ∀ v ∈ vs, RandomText v)
    (hentry : chatEntry chunk.recv.buf = some w) : ∃ v ∈ vs, w <+: v := by
  rw [chatEntry] at hentry
  split at hentry
  · rename_i hstart
    cases hentry
    rcases h.text fun v hv => (hvs v hv).length_eq.le with hnil | ⟨v, hv, x, z, hpart⟩
    · rw [hnil] at hstart
      exact absurd hstart (by decide)
    · have hv' := hvs v hv
      have hx : x = [] := by
        by_contra hx
        rw [List.append_assoc] at hpart
        exact (msgText_framed hv'.colon_free hv'.nul_free).tails x _ hx hpart.symm _
          (List.prefix_append _ z).isInfix hstart
      subst hx
      have hvalue := chatValue_of_prefix ⟨z, hpart⟩ hstart hv'.colon_free
      exact ⟨v, hv, hvalue.2⟩
  · cases hentry

theorem PartOf.mono {vs' : List (List Byte)} (h : PartOf vs chunk) : PartOf (vs ++ vs') chunk := by
  have hstream : Framing.stream 0 ((vs ++ vs').map msgText) =
      Framing.stream 0 (vs.map msgText) ++ Framing.stream 0 (vs'.map msgText) := by
    simp [Framing.stream]
  rw [PartOf, hstream]
  exact h.trans (List.prefix_append _ _).isInfix

end Invariant

/-! ### Receiving and sending -/

section Step

variable {ι : Type} {s s' : World ι} {c d : ι} {n : Option Nat} {v : List Byte} {r : Recv}

/-- What a `recv` leaves in the buffer: nothing, or a part of what was sent. -/
theorem recvFrom_returns (ch : Channel) (n : Option Nat) :
    (recvFrom ch n).2.total = ch.total ∧
    Returns (recvFromSocket (recvFrom ch n).1 (calloc 20)) fun r =>
      (r.flag ≠ 0 ∧ r.buf = calloc 20) ∨
        ∃ chunk : Chunk, r = chunk.recv ∧ chunk.bytes <:+: ch.total := by
  cases n with
  | none => exact ⟨rfl, .of_eq rfl (.inl ⟨by decide, rfl⟩)⟩
  | some n =>
      rw [recvFrom]
      split
      · exact ⟨rfl, .of_eq rfl (.inl ⟨by decide, rfl⟩)⟩
      · exact ⟨Channel.total_skip,
          .of_eq (recvFromSocket_data _) (.inr ⟨_, rfl, Channel.take_infix⟩)⟩

theorem arrives_returns (s : World ι) (c : ι) (n : Option Nat) :
    (s.arrives c n).2.total = (s.up c).total ∧
    Returns (recvFromSocket (s.arrives c n).1 (calloc 20)) fun r =>
      (s.chat.client c).pc = .recv → r.flag = 0 →
        ∃ chunk : Chunk, r = chunk.recv ∧ chunk.bytes <:+: (s.up c).total := by
  rw [World.arrives]
  split
  · obtain ⟨htotal, hrecv⟩ := recvFrom_returns (s.up c) n
    refine ⟨htotal, hrecv.mono fun r hr _ hflag => ?_⟩
    rcases hr with ⟨hne, _⟩ | hchunk
    · exact absurd hflag hne
    · exact hchunk
  · exact ⟨rfl, .of_eq rfl fun hpc => absurd hpc ‹_›⟩

theorem World.Said.mono (h : s.Said v) (htexts : ∀ b, (s.user b).texts <+: (s'.user b).texts) :
    s'.Said v := by
  obtain ⟨b, t, ht, hv⟩ := h
  exact ⟨b, t, (htexts b).subset ht, hv⟩

theorem World.Shown.mono {p : List Byte} (h : s.Shown p)
    (htexts : ∀ b, (s.user b).texts <+: (s'.user b).texts) : s'.Shown p :=
  h.imp_right fun ⟨v, hv, hinfix⟩ => ⟨v, hv.mono htexts, hinfix⟩

variable [DecidableEq ι]

/-- What the thread has received after a step. -/
theorem step_received {chat chat' : Chat ι} (hs : Step chat (c, r) chat') :
    (chat'.client c).received = (chat.client c).received ∨
      (chat.client c).pc = .recv ∧ r.flag = 0 ∧
        (chat'.client c).received = (chat.client c).received ++ [r.buf] := by
  cases step_moved hs with
  | silent _ _ =>
      rw [set_client_self]
      exact Or.inl rfl
  | deliver _ _ _ =>
      rw [set_client_self]
      exact Or.inl rfl
  | receive hpc =>
      rw [set_client_self, Client.receive]
      split
      · exact Or.inl rfl
      · split
        · exact Or.inr ⟨hpc, ‹_›, rfl⟩
        · exact Or.inl rfl
  | process _ _ _ =>
      rw [set_client_self]
      exact Or.inl rfl
  | count _ =>
      rw [set_client_self]
      exact Or.inl rfl

/-- A step sends nothing, or the frame of an entry. -/
theorem step_frames {chat chat' : Chat ι} (hs : Step chat (c, r) chat') :
    framesSince (chat.client c) (chat'.client c) = [] ∨
      ∃ k frame, k < chat.reg.size ∧ syncEntry chat.reg k = .ok frame ∧
        framesSince (chat.client c) (chat'.client c) = [frame] := by
  cases step_moved hs with
  | silent _ _ =>
      rw [set_client_self]
      exact Or.inl (by simp [framesSince])
  | @deliver frame _ hlt hframe =>
      rw [set_client_self]
      exact Or.inr ⟨_, frame, hlt, hframe, by simp [framesSince, Client.deliver]⟩
  | receive _ =>
      rw [set_client_self, Client.receive]
      refine Or.inl ?_
      split
      · simp [framesSince]
      · split
        · simp [framesSince]
        · simp [framesSince]
  | process _ _ _ =>
      rw [set_client_self]
      exact Or.inl (by simp [framesSince])
  | count _ =>
      rw [set_client_self]
      exact Or.inl (by simp [framesSince, Client.count])

/-! ### What was said -/

/-- The values in the log start texts of their authors. -/
theorem World.Inv.log_said (h : s.Inv) {log : List (ι × List Byte)} (hlog : s.chat.Logs log)
    {b : ι} (hv : (b, v) ∈ log) : ∃ t ∈ (s.user b).texts, v <+: t := by
  obtain ⟨log', hlog', hstores⟩ := run_stores h.chat.reachable
  obtain rfl := hlog.unique hlog'
  have hauthored : v ∈ authored log b := by
    refine List.mem_map.mpr ⟨(b, v), List.mem_filter.mpr ⟨hv, ?_⟩, rfl⟩
    simp
  have hreceived : v ∈ (s.chat.client b).received.filterMap chatEntry := by
    rw [← hstores b]
    exact List.mem_append_left _ hauthored
  obtain ⟨buf, hbuf, hentry⟩ := List.mem_filterMap.mp hreceived
  obtain ⟨chunk, rfl, hpart⟩ := h.received b buf hbuf
  exact hpart.entry (h.texts b) hentry

/-- An entry has the frame of a value that was said. -/
theorem World.Inv.frame_said (h : s.Inv) {k : Nat} (hk : k < s.chat.reg.size) :
    ∃ b v t, s.chat.addedBy[k]? = some b ∧ t ∈ (s.user b).texts ∧ v <+: t ∧
      syncEntry s.chat.reg k = .ok (frame v) := by
  obtain ⟨a, _, hR⟩ := run_refines (H := fun _ _ => True) h.chat.reachable
    fun _ _ _ _ _ _ _ => trivial
  rw [hR.logs.size_eq] at hk
  have hget := List.getElem?_eq_getElem hk
  obtain ⟨t, ht, hv⟩ := h.log_said hR.logs (List.getElem_mem hk)
  refine ⟨_, _, t, ?_, ht, hv, hR.logs.syncEntry_eq hget⟩
  rw [hR.logs.addedBy, List.getElem?_map, hget]
  rfl

/-- A thread does not fault, whatever it receives next. -/
theorem World.Inv.moves (h : s.Inv) (c : ι) (r : Recv) : ∃ chat, Step s.chat (c, r) chat := by
  obtain ⟨a, _, hR⟩ := run_refines (H := fun _ _ => True) h.chat.reachable
    fun _ _ _ _ _ _ _ => trivial
  have hbuffers := h.chat.invariant
    (I := fun s => ∀ d buf, (s.client d).pc.buffer = some buf → ∃ w, CStr buf w)
    (by simp [Chat.init, Client.fresh, Pc.buffer])
    fun _ l _ hl ih hs => step_buffers (c := l.1) (r := l.2) ih hl hs
  exact hR.progress (hbuffers c) r

/-! ### The threads of the server -/

theorem init_inv : (World.init : World ι).Inv where
  chat := .init
  texts c v hv := by cases hv
  received c buf hbuf := by cases hbuf
  up c := rfl
  down c := ⟨[], nofun, rfl⟩
  printed c p hp := by cases hp

/-- A thread is given parts of what its client sent. -/
theorem World.Inv.receives (h : s.Inv)
    (hr : (s.chat.client c).pc = .recv → r.flag = 0 →
      ∃ chunk : Chunk, r = chunk.recv ∧ chunk.bytes <:+: (s.up c).total) :
    Receives (fun buf => ∃ w, CStr buf w) s.chat (c, r) := by
  intro hpc hflag
  obtain ⟨chunk, rfl, hinfix⟩ := hr hpc hflag
  have hpart : PartOf (s.user c).texts chunk := by
    rw [PartOf, ← h.up c]
    exact hinfix
  exact ⟨_, hpart.cstr fun v hv => (h.texts c v hv).length_eq.le⟩

theorem World.Inv.server (h : s.Inv) (n : Option Nat) (hs : s.server c n none = .ok s') :
    s'.Inv := by
  obtain ⟨htotal, r, hr, hchunk⟩ := arrives_returns s c n
  rw [World.server, hr, ok_bind] at hs
  obtain ⟨chat, hstep, hpure⟩ := bind_eq_ok.mp hs
  cases hpure
  have hstep : Step s.chat (c, r) chat := hstep
  refine ⟨h.chat.step (h.receives hchunk) hstep, h.texts, ?_, ?_, ?_, h.printed⟩
  · intro d buf hbuf
    rcases eq_or_ne d c with rfl | hne
    · rcases step_received hstep with hsame | ⟨hpc, hflag, hnew⟩
      · exact h.received d buf (hsame ▸ hbuf)
      · rw [hnew] at hbuf
        rcases List.mem_append.mp hbuf with hbuf | hbuf
        · exact h.received d buf hbuf
        · obtain ⟨chunk, rfl, hinfix⟩ := hchunk hpc hflag
          rw [List.mem_singleton.mp hbuf]
          refine ⟨chunk, rfl, ?_⟩
          rw [PartOf, ← h.up d]
          exact hinfix
    · rw [step_client_of_ne hstep hne] at hbuf
      exact h.received d buf hbuf
  · intro d
    rcases eq_or_ne d c with rfl | hne
    · simp only [Function.update_self, htotal]
      exact h.up d
    · simp only [Function.update_of_ne hne]
      exact h.up d
  · intro d
    obtain ⟨vs, hvs, hdown⟩ := h.down d
    rcases eq_or_ne d c with rfl | hne
    · simp only [Function.update_self, Channel.total_send, hdown]
      rcases step_frames hstep with hnone | ⟨k, f, hk, hf, hone⟩
      · rw [hnone]
        exact ⟨vs, hvs, List.append_nil _⟩
      · obtain ⟨b, v, t, _, ht, hv, hframe⟩ := h.frame_said hk
        obtain rfl : f = frame v := Except.ok.inj (hf.symm.trans hframe)
        refine ⟨vs ++ [v], fun u hu => ?_, ?_⟩
        · rcases List.mem_append.mp hu with hu | hu
          · exact hvs u hu
          · rw [List.mem_singleton.mp hu]
            exact ⟨b, t, ht, hv⟩
        · rw [hone]
          simp [Framing.stream, frame, msgText]
    · simp only [Function.update_of_ne hne]
      exact ⟨vs, hvs, hdown⟩

/-! ### The clients -/

/-- What an iteration of `testchat` sends is the frame of a random text. -/
theorem testchat_sends (rand : Nat → Nat) :
    Returns (ChatClient.testchat rand 10) fun (sendmsg, msg, sent) =>
      ∃ w, RandomText w ∧ textOf sendmsg = w ∧ msg.Holds (msgText w) ∧ sent = msgText w ++ [0] := by
  have hrand : Returns (ChatClient.randstr rand (calloc 10) 10) _ :=
    ChatClient.randstr_returns rand (by decide) (by rw [length_calloc])
  apply hrand.bind
  rintro str ⟨w, rfl, hlen, hnul, hcolon⟩
  have hstr : CStr (w.map some ++ some 0 :: (calloc 10).drop 10) w := .of_eq _ hnul rfl
  apply (createColonString_returns (cstr_cstr (by decide)) hstr).bind
  intro msg hmsg
  have htext : msgKey ++ colon :: w = msgText w := by
    rw [msgText, msgPrefix_eq]
    simp
  rw [htext] at hmsg
  rw [ChatClient.sendMsg, sendMsg_eq hmsg.text, ok_bind, pure_eq_ok, returns_ok]
  exact ⟨w, ⟨hlen, hnul, hcolon⟩, textOf_eq hstr, hmsg, rfl⟩

/-- What a client receives is a C string in its buffer, and a part of a message. -/
theorem World.Inv.shown (h : s.Inv) (c : ι) (n : Option Nat) :
    Returns (recvFromSocket (recvFrom (s.down c) n).1 (calloc 20)) fun r =>
      ∃ w, CStr r.buf w ∧ s.Shown w := by
  obtain ⟨vs, hvs, hdown⟩ := h.down c
  apply (recvFrom_returns (s.down c) n).2.mono
  rintro r (⟨_, hzero⟩ | ⟨chunk, rfl, hinfix⟩)
  · rw [hzero]
    exact ⟨[], .of_eq (calloc 19) List.not_mem_nil rfl, Or.inl rfl⟩
  · have hpart : PartOf vs chunk := by
      rw [PartOf, ← hdown]
      exact hinfix
    have hshort : ∀ v ∈ vs, v.length ≤ 9 := by
      intro v hv
      obtain ⟨b, t, ht, hle⟩ := hvs v hv
      rw [← (h.texts b t ht).length_eq]
      exact hle.length_le
    have hcstr := hpart.cstr hshort
    refine ⟨_, hcstr, ?_⟩
    rw [← textOf_eq hcstr]
    exact (hpart.text hshort).imp_right fun ⟨v, hv, hinfix⟩ => ⟨v, hvs v hv, hinfix⟩

/-- A client changes, and what it sent is in its channel. -/
theorem World.Inv.client (h : s.Inv) (vs : List (List Byte)) {u : User} {ups downs : ι → Channel}
    (htexts : u.texts = (s.user c).texts ++ vs)
    (hvs : ∀ v ∈ vs, RandomText v) (hprinted : ∀ p ∈ u.printed, s.Shown p)
    (hup : (ups c).total = (s.up c).total ++ Framing.stream 0 (vs.map msgText))
    (hups : ∀ d, d ≠ c → ups d = s.up d) (hdowns : ∀ d, (downs d).total = (s.down d).total) :
    World.Inv { s with user := Function.update s.user c u, up := ups, down := downs } := by
  have hself : Function.update s.user c u c = u := Function.update_self ..
  have hother : ∀ d, d ≠ c → Function.update s.user c u d = s.user d :=
    fun d hne => Function.update_of_ne hne ..
  have hmono : ∀ d, (s.user d).texts <+: (Function.update s.user c u d).texts := by
    intro d
    rcases eq_or_ne d c with rfl | hne
    · rw [hself, htexts]
      exact List.prefix_append _ _
    · rw [hother d hne]
  refine ⟨h.chat, fun d => ?_, fun d buf hbuf => ?_, fun d => ?_, fun d => ?_, fun d p hp => ?_⟩
  · rcases eq_or_ne d c with rfl | hne
    · simp only [hself, htexts]
      intro v hv
      rcases List.mem_append.mp hv with hv | hv
      · exact h.texts d v hv
      · exact hvs v hv
    · simp only [hother d hne]
      exact h.texts d
  · obtain ⟨chunk, hchunk, hpart⟩ := h.received d buf hbuf
    obtain ⟨rest, hrest⟩ := hmono d
    refine ⟨chunk, hchunk, ?_⟩
    simp only [← hrest]
    exact hpart.mono
  · rcases eq_or_ne d c with rfl | hne
    · simp only [hself, htexts, hup, h.up d]
      simp [Framing.stream]
    · simp only [hother d hne, hups d hne]
      exact h.up d
  · obtain ⟨us, hus, hdown⟩ := h.down d
    exact ⟨us, fun v hv => (hus v hv).mono hmono, (hdowns d).trans hdown⟩
  · rcases eq_or_ne d c with rfl | hne
    · simp only [hself] at hp
      exact (hprinted p hp).mono hmono
    · simp only [hother d hne] at hp
      exact (h.printed d p hp).mono hmono

/-- A client receives and displays, or sends a message. -/
theorem World.Inv.testchat (h : s.Inv) (c : ι) (rand : Nat → Nat) (n : Option Nat) :
    Returns (s.testchat c rand n none) World.Inv := by
  rw [World.testchat]
  split
  · obtain ⟨r, hr, w, hw, hshown⟩ := h.shown c n
    rw [hr, ok_bind, strLen_eq hw, ok_bind, textOf_eq hw, pure_eq_ok, returns_ok]
    refine h.client [] (List.append_nil _).symm nofun ?_ (List.append_nil _).symm
      (fun _ _ => rfl) fun d => ?_
    · intro p hp
      rcases List.mem_append.mp hp with hp | hp
      · exact h.printed c p hp
      · exact List.mem_singleton.mp hp ▸ hshown
    · rcases eq_or_ne d c with rfl | hne
      · rw [Function.update_self]
        exact (recvFrom_returns (s.down d) n).1
      · rw [Function.update_of_ne hne]
  · obtain ⟨⟨sendmsg, msg, sent⟩, hchat, w, hw, htext, hmsg, rfl⟩ := testchat_sends rand
    simp only [hchat, ok_bind, strLen_eq hmsg.text, pure_eq_ok, returns_ok, htext]
    refine h.client [w] rfl ?_ (h.printed c) ?_ ?_ fun _ => rfl
    · rintro v hv
      exact List.mem_singleton.mp hv ▸ hw
    · rw [Function.update_self, Channel.total_send]
      simp [Framing.stream]
    · intro d hne
      exact Function.update_of_ne hne ..

/-! ## Every run -/

/-- What holds of the conversation. -/
structure World.Safe (s : World ι) : Prop where
  /-- No thread and no client faults. -/
  steps : ∀ e : WorldEvent ι, e.whole = true → ∃ s', WorldStep s e s'
  /-- Every entry starts a text that its author sent. -/
  stored : ∀ k < s.chat.reg.size, ∃ b v t, s.chat.addedBy[k]? = some b ∧
    t ∈ (s.user b).texts ∧ v <+: t ∧ syncEntry s.chat.reg k = .ok (frame v)
  /-- What is displayed is a part of a message that was sent. -/
  displayed : ∀ c, ∀ p ∈ (s.user c).printed, p = [] ∨
    ∃ b, ∃ t ∈ (s.user b).texts, p <:+: msgText t

theorem run_inv (h : Run WorldStep (fun _ e => e.whole = true) .init s) : s.Inv := by
  apply h.invariant (I := World.Inv) init_inv
  intro s e s' hwhole hI hs
  cases e with
  | server c n taken =>
      obtain rfl : taken = none := Option.isNone_iff_eq_none.mp hwhole
      exact hI.server n hs
  | client c rand n taken =>
      obtain rfl : taken = none := Option.isNone_iff_eq_none.mp hwhole
      exact (hI.testchat c rand n).result hs

/-- Whatever is scheduled and however the bytes are cut, neither the server nor a
client reads past its buffer, and all that is displayed was sent. -/
theorem conversation_safe (h : Run WorldStep (fun _ e => e.whole = true) .init s) : s.Safe := by
  have hI := run_inv h
  constructor
  · intro e hwhole
    cases e with
    | server c n taken =>
        obtain ⟨_, r, hr, _⟩ := arrives_returns s c n
        obtain ⟨chat, hstep⟩ := hI.moves c r
        have hstep : s.chat.step c r = .ok chat := hstep
        simp only [WorldStep, World.step, World.server, hr, ok_bind, hstep]
        exact ⟨_, rfl⟩
    | client c rand n taken =>
        obtain rfl : taken = none := Option.isNone_iff_eq_none.mp hwhole
        obtain ⟨s', hs', _⟩ := hI.testchat c rand n
        exact ⟨s', hs'⟩
  · exact fun k hk => hI.frame_said hk
  · intro c p hp
    rcases hI.printed c p hp with hnil | ⟨v, ⟨b, t, ht, rest, rfl⟩, hinfix⟩
    · exact Or.inl hnil
    · refine Or.inr ⟨b, _, ht, ?_⟩
      rw [msgText, ← List.append_assoc]
      exact hinfix.trans (List.prefix_append _ _).isInfix

/-- A message goes from one client to the other, in pieces. -/
def relayed : List (WorldEvent Bool) :=
  .client true (fun n => n) none none :: (List.replicate 4 (.server true (some 20) none) ++
    [.server false none none, .server false none none, .client false (fun n => 7 * n) none none,
      .client false (fun n => n) (some 6) none])

theorem conversation_safe_relayed : ∃ s : World Bool, (s.user true).texts = [bytes "abcdefghi"] ∧
    (s.user false).printed = [bytes "msg:ab"] ∧ s.Safe := by
  have hview : (replay (fun (s : World Bool) e => (s.step e).toOption) relayed .init).map
      (fun s => ((s.user true).texts, (s.user false).printed)) =
      some ([bytes "abcdefghi"], [bytes "msg:ab"]) := by
    decide +kernel
  have hwhole : ∀ e ∈ relayed, e.whole = true := by simp [relayed, WorldEvent.whole]
  have hstep : ∀ e ∈ relayed, ∀ s s', (World.step s e).toOption = some s' →
      e.whole = true ∧ WorldStep s e s' :=
    fun e he _ _ hs => ⟨hwhole e he, toOption_eq_some hs⟩
  obtain ⟨s, hrun, hview⟩ := replay_view hstep hview
  obtain ⟨htexts, hprinted⟩ := Prod.mk.inj hview
  exact ⟨s, htexts, hprinted, conversation_safe hrun⟩

end Step

end TelnetChat.Vip
