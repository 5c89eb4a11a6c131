import Mathlib.Data.List.Infix
import TelnetChat.CRuntime.Block

/-!
# Bytes in flight

A `Channel` is one direction of a TCP connection: the bytes that were received from
it, and the bytes in flight.  The kernel delivers them in order, and as many at a time
as it likes.  What was received and what is in flight is what was sent.
-/

namespace CRuntime

structure Channel where
  received : List Byte
  flight : List Byte

namespace Channel

def fresh : Channel := ⟨[], []⟩

/-- All bytes that were sent. -/
def total (ch : Channel) : List Byte := ch.received ++ ch.flight

/-- The bytes are sent; of a message that is cut short, the first `n`. -/
def send (ch : Channel) (msg : List Byte) (taken : Option Nat) : Channel :=
  { ch with flight := ch.flight ++ (match taken with | none => msg | some n => msg.take n) }

/-- The next `n` bytes are received. -/
def skip (ch : Channel) (n : Nat) : Channel :=
  ⟨ch.received ++ ch.flight.take n, ch.flight.drop n⟩

section Total

variable {ch : Channel} {msg : List Byte} {n : Nat}

@[simp] theorem total_send : (ch.send msg none).total = ch.total ++ msg := by
  simp [total, send]

@[simp] theorem total_skip : (ch.skip n).total = ch.total := by
  simp [total, skip]

/-- What is received next is a part of what was sent. -/
theorem take_infix : ch.flight.take n <:+: ch.total :=
  (List.take_prefix n ch.flight).isInfix.trans (List.suffix_append ch.received ch.flight).isInfix

end Total

end Channel

end CRuntime
