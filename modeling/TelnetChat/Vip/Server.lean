import TelnetChat.Registry

/-!
# The chat server with a thread per client (`chat_server_vip.c`)

The functions a client thread runs, each under its name in the source.  The
chat registry is the only state the threads share.  Only `addReg` writes it,
so every other function here takes it as an argument and leaves it alone.

What `printf` shows is left out, but what it reads is not.  `syncEntry` reads
the strings it prints, and `manageChat` reads the received buffer.
-/

namespace TelnetChat.Vip

open CRuntime TelnetChat

/-! ## Receiving -/

/-- The bytes one `recv` of at most 20 bytes returns. -/
structure Chunk where
  bytes : List Byte
  ne_nil : bytes ≠ []
  length_le : bytes.length ≤ 20

/-- What `recv` returns on a client socket: `-1`, `0`, or a number of bytes. -/
inductive RecvRet where
  | error
  | closed
  | data (chunk : Chunk)

/-- What `recvFromSocket` hands to `manageChat`: its flag, and the memory at
`buf`. -/
structure Recv where
  flag : Int
  buf : Block Byte

def recvFromSocket (ret : RecvRet) (buf : Block Byte) : Exec Recv :=
  match ret with
  | .error => pure ⟨-1, buf⟩
  | .closed => pure ⟨1, buf⟩
  | .data chunk => do
      let buf ← buf.copyInto (chunk.bytes.map some) 0 chunk.bytes.length
      pure ⟨0, buf⟩

/-- What `manageChat` has after a `recv` that returned `chunk`. -/
def Chunk.recv (chunk : Chunk) : Recv :=
  ⟨0, chunk.bytes.map some ++ calloc (20 - chunk.bytes.length)⟩

/-- The received bytes go over the first bytes of the zeroed buffer. -/
theorem recvFromSocket_data (chunk : Chunk) :
    recvFromSocket (.data chunk) (calloc 20) = .ok chunk.recv := by
  have hsplit : calloc chunk.bytes.length ++ calloc (20 - chunk.bytes.length) = calloc 20 := by
    simp only [calloc, List.replicate_append_replicate,
      Nat.add_sub_cancel' chunk.length_le]
  have hcopy := Block.copyInto_eq chunk.bytes [] [] (calloc chunk.bytes.length)
    (calloc (20 - chunk.bytes.length)) (length_calloc _)
  rw [List.nil_append, List.nil_append, hsplit, List.append_nil, List.length_nil] at hcopy
  rw [recvFromSocket, hcopy]
  rfl

/-! ## Messages and frames -/

/-- The literal `"msg"`. -/
def msgKey : List Byte := bytes "msg"

def processMsgFromClient (chat_reg : Registry) (msg : Block Byte) : Exec Registry := do
  let res ← getStringFrom msg
  let chat ← addJson createJson res
  let key ← getStringFrom (cstr msgKey)
  let found ← jsonContainsKey chat key
  if found ≠ 0 then addReg chat_reg chat else pure chat_reg

def createColonString (key value : Block Byte) : Exec Str := do
  let keylen ← strLen key
  let valuelen ← strLen value
  let container := calloc (keylen + valuelen + 1)
  let container ← strcat container key
  let container ← strcat container (cstr [colon])
  let container ← strcat container value
  getStringFrom container

/-- The bytes `sendMsg` passes to `send`.  It returns nothing, and what `send`
returns is only printed. -/
def sendMsg (msg : Block Byte) : Exec (List Byte) := do
  let len ← strLen msg
  msg.loadMany len 0

/-! ## Sending what is new -/

/-- A frame passed to `send`, with the index of its entry and the registry size
at that moment. -/
structure Sent where
  index : Nat
  frame : List Byte
  size : Nat
deriving DecidableEq

/-- The body of the loop of `syncMsgToClient`, at the entry `msgcounter`. -/
def syncEntry (chat_reg : Registry) (msgcounter : Nat) : Exec (List Byte) := do
  let chat ← chat_reg.cells.load msgcounter
  let entry ← chat.cells.load 0
  let printedKey ← Block.written entry.key
  let printedValue ← Block.written entry.value
  let _ ← strLen printedKey.string
  let _ ← strLen printedValue.string
  let keyString ← getStringFrom (cstr msgKey)
  let slot ← getVal chat keyString
  let valueString ← Block.written slot
  let res ← createColonString keyString.string valueString.string
  sendMsg res.string

/-- The whole loop, when nothing else runs: the new `msgcounter`, and what was
sent after `sent`. -/
def syncMsgToClient (chat_reg : Registry) (msgcounter : Nat) (sent : List Sent) :
    Exec (Nat × List Sent) :=
  if chat_reg.size > msgcounter then do
    let frame ← syncEntry chat_reg msgcounter
    syncMsgToClient chat_reg (msgcounter + 1) (sent ++ [⟨msgcounter, frame, chat_reg.size⟩])
  else pure (msgcounter, sent)
termination_by chat_reg.size - msgcounter

end TelnetChat.Vip
