import Mathlib.Data.List.Forall2
import Mathlib.Data.List.Infix
import TelnetChat.CRuntime.Block

/-!
# Non-blocking sends

A non-blocking `send` of `len` bytes returns `-1` and takes nothing, or takes
some of the bytes, between none and all, and returns their number.  A `Socket`
answers its calls in turn and keeps the bytes it took.

A sequence of messages, each passed to one `send`, arrives whole exactly when
every call takes all its bytes (`sendAll_taken_iff`).  A refused message and a
short one both leave a hole, since what follows is put right after it.
-/

namespace CRuntime

/-- What a socket answers to its call number `n` when asked to take `len` bytes;
`none` is `-1`. -/
abbrev SendRets : Type := (n len : Nat) → Option (Fin (len + 1))

structure Socket where
  rets : SendRets
  /-- The number of calls made. -/
  calls : Nat
  /-- The bytes taken, in order. -/
  taken : List Byte

namespace Socket

/-- `send(sockfd, msg, len, 0)`: what it returns, and the socket after it. -/
def send (sock : Socket) (msg : List Byte) : Int × Socket :=
  match sock.rets sock.calls msg.length with
  | none => (-1, { sock with calls := sock.calls + 1 })
  | some k =>
      ((k.val : Int), { sock with calls := sock.calls + 1, taken := sock.taken ++ msg.take k.val })

/-- One `send` for each message. -/
def sendAll (sock : Socket) : List (List Byte) → Socket
  | [] => sock
  | msg :: msgs => sendAll (sock.send msg).2 msgs

/-- The call after `n` others takes all of the `len` bytes. -/
def TakesAll (sock : Socket) (n len : Nat) : Prop :=
  sock.rets (sock.calls + n) len = some (Fin.last len)

/-! ## What is taken of each message -/

/-- The bytes the next call takes of a message. -/
def part (sock : Socket) (msg : List Byte) : List Byte :=
  match sock.rets sock.calls msg.length with
  | none => []
  | some k => msg.take k.val

def parts (sock : Socket) : List (List Byte) → List (List Byte)
  | [] => []
  | msg :: msgs => sock.part msg :: parts (sock.send msg).2 msgs

section Parts

variable {sock : Socket} {msg : List Byte} {msgs : List (List Byte)}

@[simp] theorem send_rets : (sock.send msg).2.rets = sock.rets := by
  unfold send
  cases sock.rets sock.calls msg.length <;> rfl

@[simp] theorem send_calls : (sock.send msg).2.calls = sock.calls + 1 := by
  unfold send
  cases sock.rets sock.calls msg.length <;> rfl

theorem send_taken : (sock.send msg).2.taken = sock.taken ++ sock.part msg := by
  unfold send part
  cases sock.rets sock.calls msg.length with
  | none => exact (List.append_nil _).symm
  | some k => rfl

theorem part_prefix : sock.part msg <+: msg := by
  unfold part
  cases sock.rets sock.calls msg.length with
  | none => exact List.nil_prefix
  | some k => exact List.take_prefix k.val msg

theorem parts_prefix (sock : Socket) (msgs : List (List Byte)) :
    List.Forall₂ (· <+: ·) (sock.parts msgs) msgs := by
  induction msgs generalizing sock with
  | nil => exact .nil
  | cons msg msgs ih => exact .cons part_prefix (ih (sock.send msg).2)

theorem sendAll_taken (sock : Socket) (msgs : List (List Byte)) :
    (sock.sendAll msgs).taken = sock.taken ++ (sock.parts msgs).flatten := by
  induction msgs generalizing sock with
  | nil => exact (List.append_nil _).symm
  | cons msg msgs ih =>
      rw [sendAll, ih, send_taken, parts, List.flatten_cons, List.append_assoc]

theorem takesAll_send (n len : Nat) :
    (sock.send msg).2.TakesAll n len ↔ sock.TakesAll (n + 1) len := by
  rw [TakesAll, TakesAll, send_rets, send_calls, Nat.add_assoc, Nat.add_comm 1 n]

/-- A message that is not empty is taken whole exactly when the call says so. -/
theorem part_eq_iff (hmsg : msg ≠ []) : sock.part msg = msg ↔ sock.TakesAll 0 msg.length := by
  show sock.part msg = msg ↔ sock.rets sock.calls msg.length = some (Fin.last msg.length)
  unfold part
  cases sock.rets sock.calls msg.length with
  | none => exact iff_of_false (fun h => hmsg h.symm) (fun h => by cases h)
  | some k =>
      have hk : k.val ≤ msg.length := Nat.le_of_lt_succ k.isLt
      show msg.take k.val = msg ↔ some k = some (Fin.last msg.length)
      rw [List.take_eq_self_iff, Option.some.injEq, Fin.ext_iff, Fin.val_last]
      exact ⟨Nat.le_antisymm hk, Nat.le_of_eq ∘ Eq.symm⟩

theorem parts_eq_iff (hmsgs : ∀ m ∈ msgs, m ≠ []) (sock : Socket) :
    sock.parts msgs = msgs ↔ ∀ n m, msgs[n]? = some m → sock.TakesAll n m.length := by
  induction msgs generalizing sock with
  | nil => exact iff_of_true rfl fun n m h => by cases h
  | cons msg msgs ih =>
      have hrest := ih (fun m hm => hmsgs m (List.mem_cons_of_mem msg hm)) (sock.send msg).2
      rw [parts, List.cons.injEq, part_eq_iff (hmsgs msg List.mem_cons_self), hrest]
      constructor
      · rintro ⟨hfirst, htail⟩ n m hm
        cases n with
        | zero =>
            cases hm
            exact hfirst
        | succ n => exact (takesAll_send n m.length).mp (htail n m hm)
      · intro h
        exact ⟨h 0 msg rfl, fun n m hm => (takesAll_send n m.length).mpr (h (n + 1) m hm)⟩

end Parts

/-- Parts of messages join to the whole messages only if they are whole. -/
theorem flatten_eq_iff {α : Type} {ts ms : List (List α)} (h : List.Forall₂ (· <+: ·) ts ms) :
    ts.flatten = ms.flatten ↔ ts = ms := by
  have hle : ∀ {ts ms : List (List α)}, List.Forall₂ (· <+: ·) ts ms →
      ts.flatten.length ≤ ms.flatten.length := by
    intro ts ms h
    induction h with
    | nil => exact Nat.le_refl _
    | cons hp _ ih =>
        rw [List.flatten_cons, List.flatten_cons, List.length_append, List.length_append]
        exact Nat.add_le_add hp.length_le ih
  refine ⟨fun heq => ?_, congrArg List.flatten⟩
  induction h with
  | nil => rfl
  | @cons t m ts ms hp hps ih =>
      rw [List.flatten_cons, List.flatten_cons] at heq
      have hlen := congrArg List.length heq
      rw [List.length_append, List.length_append] at hlen
      have hm := hp.length_le
      have hms := hle hps
      obtain rfl : t = m := hp.eq_of_length (by omega)
      rw [ih (List.append_cancel_left heq)]

/-- The socket has the messages whole exactly when every call took all it was
asked to. -/
theorem sendAll_taken_iff {sock : Socket} {msgs : List (List Byte)} (hmsgs : ∀ m ∈ msgs, m ≠ []) :
    (sock.sendAll msgs).taken = sock.taken ++ msgs.flatten ↔
      ∀ n m, msgs[n]? = some m → sock.TakesAll n m.length := by
  rw [sendAll_taken, List.append_cancel_left_eq, flatten_eq_iff (sock.parts_prefix msgs),
    parts_eq_iff hmsgs]

end Socket

end CRuntime
