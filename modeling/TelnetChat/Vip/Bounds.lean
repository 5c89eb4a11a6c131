import TelnetChat.CRuntime.Reads
import TelnetChat.Vip.Relay

/-!
# Reads of the receive buffer

`recvFromSocket` may fill all of the 20 zeroed bytes it is given, and then no
NUL is left unless one was received.  The scan of `strLen` has no bound of its
own.  It ends in the buffer, and the copy of `appendStr` with it, exactly when a
NUL was received or the buffer was not filled (`receive_inBounds_iff`).
-/

namespace TelnetChat

open CRuntime

/-! ## What the string functions read -/

section Reads

variable {s : Str} {b : Block Byte} {w : List Byte}

/-- The loop of `appendStr` and the copy after it. -/
theorem appendBytes_readsBelow (s : Str) (b : Block Byte) (n : Nat) :
    ReadsBelow (n + 1) (fun append => appendBytes s append (n + 1)) b := by
  intro b' hb'
  have hlast : s.length + (n + 1) - 2 - (s.length - 1) ≤ n := by omega
  show appendBytes s b' (n + 1) = appendBytes s b (n + 1)
  simp only [appendBytes, hb'.copyInto_eq (Nat.le_succ_of_le hlast),
    hb'.load_eq (Nat.lt_succ_of_le hlast)]

theorem appendStr_readsBelow (hs : s.Holds w) {v : List Byte} (hb : CStr b v) :
    ReadsBelow (v.length + 1) (appendStr s) b := by
  intro b' hb'
  have happend : ∀ t, appendBytes t b' (v.length + 1) = appendBytes t b (v.length + 1) :=
    fun t => appendBytes_readsBelow t b v.length b' hb'
  rw [appendStr_eq hs hb, appendStr_eq hs (hb'.cstr (Nat.lt_succ_self _) hb)]
  simp only [happend]

theorem getStringFrom_readsBelow (hb : CStr b w) :
    ReadsBelow (w.length + 1) getStringFrom b := by
  intro b' hb'
  obtain ⟨s, hgetString, hs⟩ := getString_returns
  rw [getStringFrom, getStringFrom, hgetString, ok_bind, ok_bind]
  exact appendStr_readsBelow hs hb b' hb'

end Reads

namespace Vip

/-! ## The receive buffer -/

/-- Handling the buffer reads its 20 bytes only, and the scan for the NUL ends
in it. -/
structure InBounds (chat_reg : Registry) (buf : Block Byte) : Prop where
  scan : Returns (strLen buf) (· ≤ 20)
  reads : ReadsBelow 20 (processMsgFromClient chat_reg) buf
  returns : Returns (processMsgFromClient chat_reg buf) fun _ => True

section Bounds

variable {reg : Registry} {js : List Json} {buf : Block Byte} {w : List Byte}

theorem Chunk.length_recv (chunk : Chunk) : chunk.recv.buf.length = 20 := by
  simp [Chunk.recv, Nat.add_sub_cancel' chunk.length_le]

/-- A buffer of 20 bytes that holds a C string is handled in bounds. -/
theorem InBounds.of_cstr (hreg : reg.Holds js) (hbuf : CStr buf w) (hlen : buf.length = 20) :
    InBounds reg buf where
  scan := .of_eq (strLen_eq hbuf) (hlen ▸ hbuf.length_lt)
  reads := ((getStringFrom_readsBelow hbuf).bind _).mono (hlen ▸ hbuf.length_lt)
  returns := (processMsgFromClient_returns hreg hbuf).mono fun _ _ => trivial

/-- A buffer without a NUL is read past its end. -/
theorem strLen_overruns (h : 0 ∉ w) : strLen (w.map some) = .error .undefined := by
  have scan : ∀ (w : List Byte) (c : Nat), 0 ∉ w → strLenFrom (w.map some) c = .error .undefined := by
    intro w
    induction w with
    | nil =>
        intro c _
        rfl
    | cons x w ih =>
        intro c h0
        obtain ⟨hx, hw⟩ : ¬ 0 = x ∧ 0 ∉ w := by simpa using h0
        rw [List.map_cons, strLenFrom, if_pos (Ne.symm hx), ih (c + 1) hw]
  exact scan w 0 h

theorem Chunk.recv_full {chunk : Chunk} (h : chunk.bytes.length = 20) :
    chunk.recv.buf = chunk.bytes.map some := by
  rw [Chunk.recv, h]
  exact List.append_nil _

/-- The buffer is handled in bounds exactly when a NUL was received or the
buffer was not filled. -/
theorem receive_inBounds_iff (hreg : reg.Holds js) (chunk : Chunk) :
    (Returns (recvFromSocket (.data chunk) (calloc 20)) fun r => r.flag = 0 ∧ InBounds reg r.buf) ↔
      0 ∈ chunk.bytes ∨ chunk.bytes.length < 20 := by
  rw [recvFromSocket_data, returns_ok]
  constructor
  · rintro ⟨_, hbounds⟩
    by_contra hfull
    rw [not_or] at hfull
    have hlen : chunk.bytes.length = 20 :=
      Nat.le_antisymm chunk.length_le (Nat.le_of_not_lt hfull.2)
    obtain ⟨n, hscan, _⟩ := hbounds.scan
    rw [Chunk.recv_full hlen, strLen_overruns hfull.1] at hscan
    cases hscan
  · intro h
    exact ⟨rfl, .of_cstr hreg (Chunk.recv_cstr h) chunk.length_recv⟩

theorem receive_inBounds_iff_short :
    (Returns (recvFromSocket (.data ⟨bytes "msg:hi", by decide, by decide⟩) (calloc 20)) fun r =>
      r.flag = 0 ∧ InBounds createRegister r.buf) ↔
    0 ∈ bytes "msg:hi" ∨ (bytes "msg:hi").length < 20 :=
  receive_inBounds_iff createRegister_holds ⟨bytes "msg:hi", by decide, by decide⟩

/-- Twenty bytes without a NUL. -/
def fullChunk : Chunk := ⟨bytes "msg:aaaaaaaaaaaaaaaa", by decide, by decide⟩

/-- After a full chunk the scan leaves the buffer.  What is stored depends on the
byte after it. -/
theorem full_chunk_overruns : ∃ r, recvFromSocket (.data fullChunk) (calloc 20) = .ok r ∧
    r.flag = 0 ∧ strLen r.buf = .error .undefined ∧ ¬ InBounds createRegister r.buf ∧
    processMsgFromClient createRegister r.buf = .error .undefined ∧
    Returns (processMsgFromClient createRegister (r.buf ++ [some 0])) fun reg => reg.size = 1 := by
  have hfull : fullChunk.recv.buf = fullChunk.bytes.map some := Chunk.recv_full rfl
  have hscan : strLen fullChunk.recv.buf = .error .undefined := by
    rw [hfull]
    exact strLen_overruns (by decide)
  refine ⟨fullChunk.recv, recvFromSocket_data fullChunk, rfl, hscan, fun hbounds => ?_, ?_, ?_⟩
  · obtain ⟨n, hn, _⟩ := hbounds.scan
    rw [hscan] at hn
    cases hn
  · obtain ⟨s, hgetString, _⟩ := getString_returns
    rw [processMsgFromClient, getStringFrom, hgetString, ok_bind, appendStr, hscan]
    rfl
  · have htext : CStr (fullChunk.recv.buf ++ [some 0]) fullChunk.bytes := by
      rw [hfull]
      exact cstr_cstr (by decide)
    refine (processMsgFromClient_accepted createRegister_holds htext (by decide)).mono ?_
    exact fun reg hreg => hreg.2.1

end Bounds

end Vip

end TelnetChat
