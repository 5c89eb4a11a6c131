import Mathlib.Algebra.BigOperators.Group.Finset.Basic
import TelnetChat.Pointer.Server
import TelnetChat.Vip.Stream

/-!
# Client threads with pointers (`manageChat`)

The threads of `Vip/Chat.lean` over one memory, which they all allocate from and free to.
A thread holds the buffer of its last `recv` until its `free`.

*Refinement.*  If a key that was never written is taken to differ, the threads do what
they do without pointers, or fault where those fault (`chat_refines`).  So no thread uses
or frees memory that was freed, whatever the interleaving and the input are: no record has
a buffer that a thread holds, and no two threads hold one buffer.

*Safety.*  If every received chunk leaves a NUL in its buffer, no thread faults.  If every
received text has a separator or two bytes, this does not depend on what comparing with a
key that was never written does: no thread compares with one (`chat_safe`).

*Leaks.*  What a message leaves besides its record is never freed, and neither is what a
frame leaves.  The number of live buffers is known exactly (`chat_leaks`).
-/

namespace TelnetChat.Pointer

open CRuntime TelnetChat Vip

/-! ## The source -/

/-- Where a thread is in `manageChat`, as in `Vip/Chat.lean`. -/
inductive Pc where
  | top
  | sync
  | recv
  | process (buf : Ptr)
  | count (buf : Ptr)
  | closed
deriving DecidableEq

/-- The buffer that the thread holds. -/
def Pc.buffer : Pc → Option Ptr
  | .process buf => some buf
  | .count buf => some buf
  | _ => none

structure Client where
  pc : Pc
  msgcounter : Nat
  sent : List Sent
deriving DecidableEq

/-- The entry at `msgcounter` is sent. -/
def Client.deliver (cl : Client) (frame : List Byte) (size : Nat) : Client :=
  { cl with msgcounter := cl.msgcounter + 1, sent := cl.sent ++ [⟨cl.msgcounter, frame, size⟩] }

/-- `calloc`, `recvFromSocket`, and the branches on its flag. -/
def Client.receive (cl : Client) (ret : RecvRet) : Heaped Byte Client := do
  let buf ← Heaped.alloc (calloc 20)
  let flag ← recvFromSocket ret buf
  if flag > 0 then do
    Heaped.free buf
    pure { cl with pc := .closed }
  else if flag = 0 then pure { cl with pc := .process buf }
  else do
    Heaped.free buf
    pure { cl with pc := .top }

/-- A thread runs to its next point. -/
def manageChat (unset : Exec Int) (chat_reg : Registry) (cl : Client) (ret : RecvRet) :
    Heaped Byte (Registry × Client) :=
  match cl.pc with
  | .top =>
      if chat_reg.size > cl.msgcounter then pure (chat_reg, { cl with pc := .sync })
      else pure (chat_reg, { cl with pc := .recv })
  | .sync =>
      if chat_reg.size > cl.msgcounter then do
        let frame ← syncEntry unset chat_reg cl.msgcounter
        pure (chat_reg, cl.deliver frame chat_reg.size)
      else pure (chat_reg, { cl with pc := .recv })
  | .recv => do
      let cl ← cl.receive ret
      pure (chat_reg, cl)
  | .process buf => do
      let _printed ← strLen (.heap buf)
      let chat_reg ← processMsgFromClient unset chat_reg (.heap buf)
      pure (chat_reg, { cl with pc := .count buf })
  | .count buf => do
      Heaped.free buf
      pure (chat_reg, { cl with pc := .top, msgcounter := cl.msgcounter + 1 })
  | .closed => pure (chat_reg, cl)

structure Chat (ι : Type) where
  mem : Memory Byte
  reg : Registry
  client : ι → Client

def Chat.init {ι : Type} : Chat ι := ⟨[], createRegister, fun _ => ⟨.top, 0, []⟩⟩

section Steps

variable {ι : Type} [DecidableEq ι]

def Chat.set (s : Chat ι) (c : ι) (mem : Memory Byte) (reg : Registry) (cl : Client) : Chat ι :=
  { mem := mem, reg := reg, client := Function.update s.client c cl }

/-- The thread of `l.1` runs to its next point; `l.2` is what its `recv` would return. -/
def Chat.step (unset : Exec Int) (s : Chat ι) (l : ι × RecvRet) : Exec (Chat ι) := do
  let ((reg, cl), mem) ← (manageChat unset s.reg (s.client l.1) l.2).run s.mem
  pure (s.set l.1 mem reg cl)

/-- The same step without pointers. -/
def plainStep (v : Vip.Chat ι) (l : ι × RecvRet) : Exec (Vip.Chat ι) := do
  let r ← Vip.recvFromSocket l.2 (calloc 20)
  v.step l.1 r

end Steps

/-! ## Refinement -/

/-- The thread is where it is without pointers, and its buffer has the same bytes. -/
inductive Pc.Reads (m : Memory Byte) : Pc → Vip.Pc → Prop where
  | top : Reads m .top .top
  | sync : Reads m .sync .sync
  | recv : Reads m .recv .recv
  | process {p : Ptr} {b : Block Byte} : m.At p b → Reads m (.process p) (.process b)
  | count {p : Ptr} {b : Block Byte} : m.At p b → Reads m (.count p) (.count b)
  | closed : Reads m .closed .closed

structure Client.Reads (m : Memory Byte) (cl : Client) (vl : Vip.Client) : Prop where
  pc : cl.pc.Reads m vl.pc
  msgcounter_eq : cl.msgcounter = vl.msgcounter
  sent_eq : cl.sent = vl.sent

/-- The record has the value `v`, in buffers that satisfy `P`. -/
def Recorded (m : Memory Byte) (P : Ptr → Prop) (j : Json) (v : List Byte) : Prop :=
  ∃ key value, ChatRecord m j key value v ∧ P key.string ∧ P value.string

/-- No thread holds the buffer. -/
def Chat.Unheld {ι : Type} (s : Chat ι) (p : Ptr) : Prop :=
  ∀ c, (s.client c).pc.buffer ≠ some p

structure Chat.Refines {ι : Type} (s : Chat ι) (v : Vip.Chat ι) : Prop where
  /-- The registries have the same values, here in buffers that no thread frees. -/
  records : ∃ js log, s.reg.Holds js ∧ v.Logs log ∧
    List.Forall₂ (Recorded s.mem s.Unheld) js (log.map Prod.snd)
  client : ∀ c, (s.client c).Reads s.mem (v.client c)
  /-- No two threads hold one buffer. -/
  distinct : ∀ c d p, (s.client c).pc.buffer = some p → (s.client d).pc.buffer = some p → c = d

section Reads

variable {m m' : Memory Byte} {P Q R : Ptr → Prop} {j : Json} {v : List Byte} {p : Ptr}

theorem Recorded.keep (h : Recorded m P j v) (hm : Memory.Keeps Q m m')
    (hQ : ∀ p < m.length, P p → Q p) (hR : ∀ p < m.length, P p → R p) : Recorded m' R j v := by
  obtain ⟨key, value, ⟨hentry, hkey, hvalue⟩, hP, hP'⟩ := h
  exact ⟨key, value,
    ⟨hentry, hkey.keep hm (hQ _ hkey.lt hP), hvalue.keep hm (hQ _ hvalue.lt hP')⟩,
    hR _ hkey.lt hP, hR _ hvalue.lt hP'⟩

theorem Pc.Reads.keep {pc : Pc} {vpc : Vip.Pc} (h : pc.Reads m vpc) (hm : Memory.Keeps P m m')
    (hP : ∀ p, pc.buffer = some p → P p) : pc.Reads m' vpc := by
  cases h with
  | top => exact .top
  | sync => exact .sync
  | recv => exact .recv
  | process hb => exact .process (hm.kept _ _ (hP _ rfl) hb)
  | count hb => exact .count (hm.kept _ _ (hP _ rfl) hb)
  | closed => exact .closed

theorem Pc.Reads.lt {pc : Pc} {vpc : Vip.Pc} (h : pc.Reads m vpc) (hp : pc.buffer = some p) :
    p < m.length := by
  cases h with
  | process hb =>
      cases hp
      exact hb.lt
  | count hb =>
      cases hp
      exact hb.lt
  | _ => cases hp

end Reads

theorem init_refines {ι : Type} : (Chat.init : Chat ι).Refines .init where
  records := ⟨[], [], createRegister_holds, init_logs, .nil⟩
  client _ := ⟨.top, rfl, rfl⟩
  distinct _ _ _ hc := by cases hc

/-! ## Steps -/

section Steps

variable {ι : Type} [DecidableEq ι] {s : Chat ι} {v v₁ : Vip.Chat ι} {c : ι} {mem : Memory Byte}
  {reg : Registry} {cl : Client} {vl : Vip.Client}

theorem set_client (s : Chat ι) (c : ι) (mem : Memory Byte) (reg : Registry) (cl : Client) (d : ι) :
    (s.set c mem reg cl).client d = if d = c then cl else s.client d := by
  rw [Chat.set]
  exact Function.update_apply ..

/-- What the thread `c` may touch is its own buffer. -/
def Chat.Foreign (s : Chat ι) (c : ι) (p : Ptr) : Prop := (s.client c).pc.buffer ≠ some p

/-- After a step the thread holds the buffer it held, or a new one. -/
def Chat.Holding (s : Chat ι) (c : ι) (cl : Client) : Prop :=
  ∀ p, cl.pc.buffer = some p → (s.client c).pc.buffer = some p ∨ s.mem.length ≤ p

theorem Chat.Unheld.set {p : Ptr} (hp : s.Unheld p) (hlt : p < s.mem.length)
    (hcl : s.Holding c cl) : (s.set c mem reg cl).Unheld p := by
  intro d hd
  rw [set_client] at hd
  split at hd
  · rcases hcl p hd with hold | hnew
    · exact hp c hold
    · exact Nat.not_le_of_lt hlt hnew
  · exact hp d hd

/-- The records that were there stay. -/
theorem records_keep {js : List Json} {vs : List (List Byte)}
    (h : List.Forall₂ (Recorded s.mem s.Unheld) js vs)
    (hm : Memory.Keeps (s.Foreign c) s.mem mem) (hcl : s.Holding c cl) :
    List.Forall₂ (Recorded mem (s.set c mem reg cl).Unheld) js vs := by
  refine h.imp fun j v hj => ?_
  exact hj.keep hm (fun p _ hp => hp c) fun p hlt hp => hp.set hlt hcl

/-- The records of a registry that is left alone. -/
theorem Chat.Refines.records_set (h : s.Refines v)
    (hm : Memory.Keeps (s.Foreign c) s.mem mem) (hcl : s.Holding c cl) :
    ∃ js log, s.reg.Holds js ∧ v.Logs log ∧
      List.Forall₂ (Recorded mem (s.set c mem reg cl).Unheld) js (log.map Prod.snd) := by
  obtain ⟨js, log, hjs, hlog, hrecords⟩ := h.records
  exact ⟨js, log, hjs, hlog, records_keep hrecords hm hcl⟩

/-- The thread `c` moves, and the others stay. -/
theorem Chat.Refines.set (h : s.Refines v) (hm : Memory.Keeps (s.Foreign c) s.mem mem)
    (hcl : s.Holding c cl) (hreads : cl.Reads mem vl) (hv₁ : v₁.client = v.client)
    (hrecords : ∃ js log, reg.Holds js ∧ v₁.Logs log ∧
      List.Forall₂ (Recorded mem (s.set c mem reg cl).Unheld) js (log.map Prod.snd)) :
    (s.set c mem reg cl).Refines (v₁.set c vl) where
  records := by
    obtain ⟨js, log, hjs, hlog, hrecords⟩ := hrecords
    exact ⟨js, log, hjs, ⟨hlog.reg, hlog.addedBy⟩, hrecords⟩
  client d := by
    rw [set_client]
    split
    · rename_i hd
      rw [hd, set_client_self]
      exact hreads
    · rename_i hd
      rw [set_client_of_ne hd, hv₁]
      obtain ⟨hpc, hcounter, hsent⟩ := h.client d
      refine ⟨hpc.keep hm fun p hp hc => ?_, hcounter, hsent⟩
      exact hd (h.distinct d c p hp hc)
  distinct d e p hd he := by
    have hother : ∀ d, d ≠ c → (s.client d).pc.buffer = some p → cl.pc.buffer ≠ some p := by
      intro d hne hd hp
      rcases hcl p hp with hold | hnew
      · exact hne (h.distinct d c p hd hold)
      · exact Nat.not_le_of_lt ((h.client d).pc.lt hd) hnew
    rw [set_client] at hd he
    split at hd
    · rename_i hdc
      split at he
      · rename_i hec
        exact hdc.trans hec.symm
      · rename_i hec
        exact absurd hd (hother e hec he)
    · rename_i hdc
      split at he
      · exact absurd he (hother d hdc hd)
      · exact h.distinct d e p hd he

end Steps

/-! ## The count of live buffers -/

/-- The buffers that a processed text leaves besides those of its record. -/
def lostBlocks (w : List Byte) : Nat :=
  if msgPrefix <+: w then splitBlocks colon w else messageBlocks w

/-- A record keeps two of the buffers of its text. -/
theorem messageBlocks_eq (w : List Byte) :
    messageBlocks w = lostBlocks w + if msgPrefix <+: w then 2 else 0 := by
  rw [messageBlocks, lostBlocks]
  split
  · exact Nat.add_comm ..
  · rfl

/-- What the buffers in a list leave when they are processed. -/
def lostOf (bufs : List (Block Byte)) : Nat := (bufs.map fun b => lostBlocks (textOf b)).sum

/-- The buffers that a thread holds or has left, once its last message is processed. -/
def leftBy (vl : Vip.Client) : Nat :=
  vl.pc.buffer.toList.length + 3 * vl.sent.length + lostOf vl.received

/-- A step of the thread `c`. -/
structure Moves {ι : Type} (s : Chat ι) (v : Vip.Chat ι) (c : ι) (s' : Chat ι) (v' : Vip.Chat ι) :
    Prop where
  refines : s'.Refines v'
  balance : s'.mem.live + lostOf (v'.client c).pc.unprocessed + 2 * s.reg.size +
      leftBy (v.client c) =
    s.mem.live + lostOf (v.client c).pc.unprocessed + 2 * s'.reg.size + leftBy (v'.client c)

theorem Chat.Refines.size_eq {ι : Type} {s : Chat ι} {v : Vip.Chat ι} (h : s.Refines v) :
    s.reg.size = v.reg.size := by
  obtain ⟨js, log, hjs, hlog, hrecords⟩ := h.records
  rw [hjs.size_eq, hlog.size_eq, hrecords.length_eq, List.length_map]

/-- The record at an index of the registry. -/
theorem Chat.Refines.record_at {ι : Type} {s : Chat ι} {v : Vip.Chat ι} (h : s.Refines v)
    {i : Nat} (hi : i < s.reg.size) :
    ∃ js log j key value a w, s.reg.Holds js ∧ v.Logs log ∧ js[i]? = some j ∧
      log[i]? = some (a, w) ∧ ChatRecord s.mem j key value w := by
  obtain ⟨js, log, hjs, hlog, hrecords⟩ := h.records
  rw [hjs.size_eq] at hi
  have hlen := hrecords.length_eq
  rw [List.length_map] at hlen
  have hi' : i < log.length := hlen ▸ hi
  obtain ⟨key, value, hrecord, _, _⟩ := hrecords.get hi (by rwa [List.length_map])
  rw [List.get_eq_getElem, List.get_eq_getElem, List.getElem_map] at hrecord
  exact ⟨js, log, js[i], key, value, log[i].1, log[i].2, hjs, hlog, List.getElem?_eq_getElem hi,
    List.getElem?_eq_getElem hi', hrecord⟩

section Moves

variable {ι : Type} [DecidableEq ι] {s : Chat ι} {v : Vip.Chat ι} {c : ι} {ret : RecvRet}
  {unset : Exec Int}

theorem step_eq {mem : Memory Byte} {reg : Registry} {cl : Client}
    (h : (manageChat unset s.reg (s.client c) ret).run s.mem = .ok ((reg, cl), mem)) :
    s.step unset (c, ret) = .ok (s.set c mem reg cl) := by
  rw [Chat.step, h]
  rfl

/-- A thread that holds no buffer goes to another point without one. -/
theorem Chat.Refines.silent (h : s.Refines v) {mem : Memory Byte} {pc : Pc} {vpc : Vip.Pc}
    (hm : Memory.Grows (s.Foreign c) 0 s.mem mem) (hbefore : (v.client c).pc.buffer = none)
    (hpc : pc.Reads mem vpc) (hbuf : pc.buffer = none) (hvbuf : vpc.buffer = none) :
    Moves s v c (s.set c mem s.reg { s.client c with pc := pc })
      (v.set c { v.client c with pc := vpc }) := by
  have hcl : s.Holding c { s.client c with pc := pc } := by
    intro p hp
    rw [show pc.buffer = some p from hp] at hbuf
    cases hbuf
  obtain ⟨_, hcounter, hsent⟩ := h.client c
  refine ⟨h.set hm.toKeeps hcl ⟨hpc, hcounter, hsent⟩ rfl (h.records_set hm.toKeeps hcl), ?_⟩
  have hlive := hm.live_eq
  rw [set_client_self, leftBy, leftBy]
  simp only [unprocessed_of_buffer hbefore, unprocessed_of_buffer hvbuf, hbefore, hvbuf, Chat.set]
  omega

/-- A thread sends the next entry. -/
theorem Chat.Refines.sync_moves (h : s.Refines v) (hpc : (s.client c).pc = .sync)
    (hvpc : (v.client c).pc = .sync) (hlt : (s.client c).msgcounter < s.reg.size) :
    ∃ frame mem, (syncEntry unset s.reg (s.client c).msgcounter).run s.mem = .ok (frame, mem) ∧
      Vip.syncEntry v.reg (v.client c).msgcounter = .ok frame ∧
      Moves s v c (s.set c mem s.reg ((s.client c).deliver frame s.reg.size))
        (v.set c ((v.client c).deliver frame v.reg.size)) := by
  obtain ⟨_, hcounter, hsent⟩ := h.client c
  obtain ⟨js, log, j, key, value, a, w, hjs, hlog, hj, ha, hrecord⟩ := h.record_at hlt
  obtain ⟨_, mem, hrun, rfl, hm⟩ := syncEntry_yields hjs hj hrecord
  have hframe := hlog.syncEntry_eq ha
  rw [hcounter] at hframe
  have hcl : s.Holding c ((s.client c).deliver (frame w) s.reg.size) := fun p hp => .inl hp
  have hm' := (hm (s.Foreign c)).toKeeps
  refine ⟨_, mem, hrun, hframe, h.set hm' hcl ⟨?_, ?_, ?_⟩ rfl (h.records_set hm' hcl), ?_⟩
  · rw [Client.deliver, Vip.Client.deliver, hpc, hvpc]
    exact .sync
  · rw [Client.deliver, Vip.Client.deliver, hcounter]
  · rw [Client.deliver, Vip.Client.deliver, hsent, hcounter, h.size_eq]
  · have hlive := (hm fun _ => True).live_eq
    rw [set_client_self]
    simp only [leftBy, Vip.Client.deliver, Chat.set, List.length_append, List.length_singleton]
    omega

/-- A thread receives. -/
theorem Chat.Refines.recv_moves (h : s.Refines v) (hvpc : (v.client c).pc = .recv)
    (ret : RecvRet) :
    ∃ r cl mem, Vip.recvFromSocket ret (calloc 20) = .ok r ∧
      ((s.client c).receive ret).run s.mem = .ok (cl, mem) ∧
      Moves s v c (s.set c mem s.reg cl) (v.set c ((v.client c).receive r)) := by
  have hbuf := Memory.at_concat s.mem (calloc 20)
  have hm := Memory.grows_concat (s.Foreign c) s.mem (calloc 20)
  have hbefore : (v.client c).pc.buffer = none := by
    rw [hvpc]
    rfl
  rw [Client.receive, Heaped.bind_run (Heaped.alloc_run _ _)]
  cases ret with
  | error =>
      have hflag : (recvFromSocket .error s.mem.length).run (s.mem ++ [some (calloc 20)]) =
          .ok (-1, s.mem ++ [some (calloc 20)]) := rfl
      have hfree := hm.free hbuf fun q hq _ => Nat.ne_of_lt hq
      rw [Heaped.bind_run hflag, if_neg (by decide), if_neg (by decide),
        Heaped.bind_run (Heaped.free_run hbuf)]
      exact ⟨_, _, _, rfl, rfl, h.silent hfree hbefore .top rfl rfl⟩
  | closed =>
      have hflag : (recvFromSocket .closed s.mem.length).run (s.mem ++ [some (calloc 20)]) =
          .ok (1, s.mem ++ [some (calloc 20)]) := rfl
      have hfree := hm.free hbuf fun q hq _ => Nat.ne_of_lt hq
      rw [Heaped.bind_run hflag, if_pos (by decide), Heaped.bind_run (Heaped.free_run hbuf)]
      exact ⟨_, _, _, rfl, rfl, h.silent hfree hbefore .closed rfl rfl⟩
  | data chunk =>
      obtain ⟨_, hcounter, hsent⟩ := h.client c
      obtain ⟨buf, hcopy, hpure⟩ := bind_eq_ok.mp (recvFromSocket_data chunk)
      have hchunk : chunk.recv = ⟨0, buf⟩ := (Except.ok.inj hpure).symm
      have hflag : (recvFromSocket (.data chunk) s.mem.length).run (s.mem ++ [some (calloc 20)]) =
          .ok (0, List.set (s.mem ++ [some (calloc 20)]) s.mem.length (some buf)) :=
        Heaped.bind_run (Heaped.copy_run (Memory.source_literal _ _) hbuf
          (Memory.literal_ne_heap _ _) hcopy)
      have hset := hm.set hbuf (Nat.le_refl _) buf
      have hcl : s.Holding c { s.client c with pc := .process s.mem.length } := by
        intro p hp
        cases hp
        exact .inr (Nat.le_refl _)
      rw [Heaped.bind_run hflag, if_neg (by decide), if_pos rfl]
      refine ⟨_, _, _, recvFromSocket_data chunk, rfl, h.set hset.toKeeps hcl ⟨?_, hcounter, hsent⟩
        rfl (h.records_set hset.toKeeps hcl), ?_⟩
      · rw [hchunk]
        exact .process (hbuf.set buf)
      · have hlive := hset.live_eq
        have hreceive : (v.client c).receive ⟨0, buf⟩ = { v.client c with
            pc := .process buf
            received := (v.client c).received ++ [buf] } := rfl
        rw [set_client_self, hchunk, hreceive, leftBy, leftBy, hbefore, hvpc]
        simp only [Chat.set, lostOf, List.map_append, List.sum_append, List.map_singleton,
          List.sum_singleton, Vip.Pc.unprocessed, Vip.Pc.buffer, Option.toList, List.length_nil,
          List.length_singleton, List.map_nil, List.sum_nil]
        omega

/-- A buffer that is newer than the memory is not the one the thread goes on with. -/
theorem Chat.Refines.unheld_new (h : s.Refines v) {mem : Memory Byte} {reg : Registry} {cl : Client}
    (hcl : ∀ p, cl.pc.buffer = some p → (s.client c).pc.buffer = some p) {q : Ptr}
    (hq : s.mem.length ≤ q) : (s.set c mem reg cl).Unheld q := by
  intro d hd
  rw [set_client] at hd
  split at hd
  · exact Nat.not_le_of_lt ((h.client c).pc.lt (hcl q hd)) hq
  · exact Nat.not_le_of_lt ((h.client d).pc.lt hd) hq

/-- A thread processes its buffer. -/
theorem Chat.Refines.process_moves (h : s.Refines v) {p : Ptr} {b : Block Byte}
    (hpc : (s.client c).pc = .process p) (hvpc : (v.client c).pc = .process b)
    (hb : s.mem.At p b) {w : List Byte} (hw : CStr b w) (hunset : Compared unset [fields w]) :
    ∃ reg mem v₁, (processMsgFromClient unset s.reg (.heap p)).run s.mem = .ok (reg, mem) ∧
      v.register c b = .ok v₁ ∧
      Moves s v c (s.set c mem reg { s.client c with pc := .count p })
        (v₁.set c { v.client c with pc := .count b }) := by
  obtain ⟨_, hcounter, hsent⟩ := h.client c
  obtain ⟨js, log, hjs, hlog, hrecords⟩ := h.records
  obtain ⟨reg, mem, hrun, hreg, hm⟩ := processMsgFromClient_yields hjs hb.source hw hunset
  obtain ⟨js', hjs', _⟩ := hlog.reg
  obtain ⟨reg', hprocess, _⟩ := processMsgFromClient_returns hjs' hw
  obtain ⟨v₁, hregister⟩ : ∃ v₁, v.register c b = .ok v₁ := by
    rw [Vip.Chat.register, hprocess, ok_bind]
    exact ⟨_, rfl⟩
  have hlog₁ := hlog.register hw hregister
  have hbuffer : ∀ q, (Pc.count p).buffer = some q → (s.client c).pc.buffer = some q := by
    intro q hq
    rw [hpc]
    exact hq
  have hcl : s.Holding c { s.client c with pc := .count p } := fun q hq => .inl (hbuffer q hq)
  have hkeeps := (hm (s.Foreign c)).toKeeps
  have hreads : Client.Reads mem { s.client c with pc := .count p }
      { v.client c with pc := .count b } :=
    ⟨.count ((hm fun _ => True).kept _ _ trivial hb), hcounter, hsent⟩
  have hlive := (hm fun _ => True).live_eq
  have hlost : lostOf [b] = lostBlocks w := by
    rw [lostOf, List.map_singleton, List.sum_singleton, textOf_eq hw]
  have hkept : messageBlocks w + 2 * s.reg.size = lostBlocks w + 2 * reg.size := by
    rw [messageBlocks_eq]
    split at hreg
    · rename_i haccept
      obtain ⟨j, key, value, hreg, _⟩ := hreg
      rw [if_pos haccept, hreg.size_eq, hjs.size_eq, List.length_append, List.length_singleton]
      omega
    · rename_i hreject
      rw [if_neg hreject, hreg, Nat.add_zero]
  refine ⟨reg, mem, v₁, hrun, hregister, h.set hkeeps hcl hreads (register_client hregister) ?_, ?_⟩
  · split at hreg
    · rename_i haccept
      obtain ⟨j, key, value, hreg, hrecord, _, hkey, hvalue⟩ := hreg
      rw [if_pos haccept] at hlog₁
      have hnew : Recorded mem
          (s.set c mem reg { s.client c with pc := .count p }).Unheld j (chatValue w) :=
        ⟨key, value, hrecord, h.unheld_new hbuffer hkey, h.unheld_new hbuffer hvalue⟩
      refine ⟨js ++ [j], _, hreg, hlog₁, ?_⟩
      rw [List.map_append]
      exact List.rel_append (records_keep hrecords hkeeps hcl) (.cons hnew .nil)
    · rename_i hreject
      rw [if_neg hreject] at hlog₁
      rw [hlog₁, hreg]
      exact h.records_set hkeeps hcl
  · rw [set_client_self, leftBy, leftBy, hvpc]
    simp only [Chat.set, Vip.Pc.unprocessed, Vip.Pc.buffer, Option.toList, List.length_singleton,
      hlost, hlive]
    rw [lostOf, List.map_nil, List.sum_nil]
    omega

/-- A thread frees its buffer. -/
theorem Chat.Refines.count_moves (h : s.Refines v) {p : Ptr} {b : Block Byte}
    (hpc : (s.client c).pc = .count p) (hvpc : (v.client c).pc = .count b) (hb : s.mem.At p b) :
    Moves s v c (s.set c (s.mem.set p none) s.reg
        { s.client c with pc := .top, msgcounter := (s.client c).msgcounter + 1 })
      (v.set c (v.client c).count) := by
  obtain ⟨_, hcounter, hsent⟩ := h.client c
  have hm : Memory.Keeps (s.Foreign c) s.mem (s.mem.set p none) :=
    (Memory.keeps_free s.mem p).mono fun q _ hq heq => hq (by rw [hpc, heq]; rfl)
  have hcl : s.Holding c
      { s.client c with pc := .top, msgcounter := (s.client c).msgcounter + 1 } := by
    intro q hq
    cases hq
  refine ⟨h.set hm hcl ⟨.top, ?_, hsent⟩ rfl (h.records_set hm hcl), ?_⟩
  · show (s.client c).msgcounter + 1 = (v.client c).msgcounter + 1
    rw [hcounter]
  · have hlive := Memory.live_free hb
    rw [set_client_self, leftBy, leftBy, hvpc]
    simp only [Chat.set, Vip.Client.count, Vip.Pc.unprocessed, Vip.Pc.buffer, Option.toList,
      List.length_nil, List.length_singleton]
    omega

theorem recv_returns (ret : RecvRet) : ∃ r, Vip.recvFromSocket ret (calloc 20) = .ok r := by
  cases ret with
  | error => exact ⟨_, rfl⟩
  | closed => exact ⟨_, rfl⟩
  | data chunk => exact ⟨_, recvFromSocket_data chunk⟩

/-- A thread at a test of the registry goes to `recv`. -/
theorem Chat.Refines.waits (h : s.Refines v) (hbefore : (v.client c).pc.buffer = none) :
    Moves s v c (s.set c s.mem s.reg { s.client c with pc := .recv })
      (v.set c { v.client c with pc := .recv }) :=
  h.silent (.refl _ _) hbefore .recv rfl rfl

/-- A step does what it does without pointers, or faults as it does there. -/
theorem Chat.Refines.step_agrees (h : s.Refines v)
    (hunset : ∀ b, (v.client c).pc.buffer = some b → Compared unset [fields (textOf b)])
    (ret : RecvRet) : Alike (Moves s v c) (s.step unset (c, ret)) (plainStep v (c, ret)) := by
  obtain ⟨r, hr⟩ := recv_returns ret
  have hplain : plainStep v (c, ret) = v.step c r := by
    rw [plainStep, hr]
    rfl
  rw [hplain]
  obtain ⟨hpc, hcounter, _⟩ := h.client c
  have hsize : v.reg.size > (v.client c).msgcounter ↔ s.reg.size > (s.client c).msgcounter := by
    rw [h.size_eq, hcounter]
  generalize hp : (s.client c).pc = pc at hpc
  generalize hvp : (v.client c).pc = vpc at hpc
  have hbefore : (v.client c).pc.buffer = vpc.buffer := by rw [hvp]
  cases hpc with
  | top =>
      by_cases hlt : s.reg.size > (s.client c).msgcounter
      · have hrun : (manageChat unset s.reg (s.client c) ret).run s.mem =
            .ok ((s.reg, { s.client c with pc := .sync }), s.mem) := by
          simp only [manageChat, hp, if_pos hlt]
          rfl
        have hvrun : v.step c r = .ok (v.set c { v.client c with pc := .sync }) := by
          simp only [Vip.Chat.step, hvp, if_pos (hsize.mpr hlt)]
          rfl
        exact .of_eq (step_eq hrun) hvrun (h.silent (.refl _ _) hbefore .sync rfl rfl)
      · have hrun : (manageChat unset s.reg (s.client c) ret).run s.mem =
            .ok ((s.reg, { s.client c with pc := .recv }), s.mem) := by
          simp only [manageChat, hp, if_neg hlt]
          rfl
        have hvrun : v.step c r = .ok (v.set c { v.client c with pc := .recv }) := by
          simp only [Vip.Chat.step, hvp, if_neg (mt hsize.mp hlt)]
          rfl
        exact .of_eq (step_eq hrun) hvrun (h.waits hbefore)
  | sync =>
      by_cases hlt : s.reg.size > (s.client c).msgcounter
      · obtain ⟨frame, mem, hsync, hvsync, hmoves⟩ := h.sync_moves hp hvp hlt
        have hrun : (manageChat unset s.reg (s.client c) ret).run s.mem =
            .ok ((s.reg, (s.client c).deliver frame s.reg.size), mem) := by
          simp only [manageChat, hp, if_pos hlt]
          rw [Heaped.bind_run hsync]
          rfl
        have hvrun : v.step c r = .ok (v.set c ((v.client c).deliver frame v.reg.size)) := by
          simp only [Vip.Chat.step, hvp, if_pos (hsize.mpr hlt)]
          rw [hvsync]
          rfl
        exact .of_eq (step_eq hrun) hvrun hmoves
      · have hrun : (manageChat unset s.reg (s.client c) ret).run s.mem =
            .ok ((s.reg, { s.client c with pc := .recv }), s.mem) := by
          simp only [manageChat, hp, if_neg hlt]
          rfl
        have hvrun : v.step c r = .ok (v.set c { v.client c with pc := .recv }) := by
          simp only [Vip.Chat.step, hvp, if_neg (mt hsize.mp hlt)]
          rfl
        exact .of_eq (step_eq hrun) hvrun (h.waits hbefore)
  | recv =>
      obtain ⟨r', cl, mem, hr', hrecv, hmoves⟩ := h.recv_moves hvp ret
      obtain rfl : r' = r := Except.ok.inj (hr'.symm.trans hr)
      have hrun : (manageChat unset s.reg (s.client c) ret).run s.mem = .ok ((s.reg, cl), mem) := by
        simp only [manageChat, hp]
        rw [Heaped.bind_run hrecv]
        rfl
      have hvrun : v.step c r' = .ok (v.set c ((v.client c).receive r')) := by
        simp only [Vip.Chat.step, hvp]
        rfl
      exact .of_eq (step_eq hrun) hvrun hmoves
  | @process p b hb =>
      cases hlen : TelnetChat.strLen b with
      | error e =>
          -- `printf` faults at both levels
          have hrun : (manageChat unset s.reg (s.client c) ret).run s.mem = .error e := by
            simp only [manageChat, hp]
            exact Heaped.bind_run_error (strLen_run_error hb.source hlen)
          have hstep : s.step unset (c, ret) = .error e := by
            rw [Chat.step, hrun]
            rfl
          have hvstep : v.step c r = .error e := by
            simp only [Vip.Chat.step, hvp, hlen]
            rfl
          rw [hstep, hvstep]
          exact .error e
      | ok n =>
          obtain ⟨w, hw⟩ := exists_cstr_of_strLen hlen
          have hkey : Compared unset [fields w] := by
            rw [← textOf_eq hw]
            exact hunset b hbefore
          obtain ⟨reg, mem, v₁, hprocess, hregister, hmoves⟩ := h.process_moves hp hvp hb hw hkey
          have hrun : (manageChat unset s.reg (s.client c) ret).run s.mem =
              .ok ((reg, { s.client c with pc := .count p }), mem) := by
            simp only [manageChat, hp]
            rw [Heaped.bind_run (strLen_run hb.source hlen), Heaped.bind_run hprocess]
            rfl
          have hvrun : v.step c r = .ok (v₁.set c { v.client c with pc := .count b }) := by
            simp only [Vip.Chat.step, hvp, hlen, ok_bind, hregister]
            rfl
          exact .of_eq (step_eq hrun) hvrun hmoves
  | @count p b hb =>
      have hrun : (manageChat unset s.reg (s.client c) ret).run s.mem =
          .ok ((s.reg, { s.client c with pc := .top, msgcounter := (s.client c).msgcounter + 1 }),
            s.mem.set p none) := by
        simp only [manageChat, hp]
        rw [Heaped.bind_run (Heaped.free_run hb)]
        rfl
      have hvrun : v.step c r = .ok (v.set c (v.client c).count) := by
        simp only [Vip.Chat.step, hvp]
        rfl
      exact .of_eq (step_eq hrun) hvrun (h.count_moves hp hvp hb)
  | closed =>
      have hrun : (manageChat unset s.reg (s.client c) ret).run s.mem =
          .ok ((s.reg, { s.client c with pc := .closed }), s.mem) := by
        simp only [manageChat, hp]
        rw [← hp]
        rfl
      have hvrun : v.step c r = .ok (v.set c { v.client c with pc := .closed }) := by
        simp only [Vip.Chat.step, hvp]
        rw [← hvp, set_client_eq]
        rfl
      exact .of_eq (step_eq hrun) hvrun (h.silent (.refl _ _) hbefore .closed rfl rfl)

end Moves

/-! ## Runs -/

/-- The received buffers that were processed. -/
def processed (vl : Vip.Client) : List (Block Byte) :=
  match vl.pc with
  | .process _ => vl.received.dropLast
  | _ => vl.received

/-- The one that was not is in the hands of the thread. -/
def Accounted (vl : Vip.Client) : Prop := processed vl ++ vl.pc.unprocessed = vl.received

/-- The live buffers of a thread: the one it holds, and those that its frames and its
processed messages left. -/
def left (vl : Vip.Client) : Nat :=
  vl.pc.buffer.toList.length + 3 * vl.sent.length + lostOf (processed vl)

theorem processed_of_buffer {vl : Vip.Client} (h : vl.pc.buffer = none) :
    processed vl = vl.received := by
  unfold processed
  split
  · rename_i hpc
    rw [hpc] at h
    cases h
  · rfl

theorem Accounted.leftBy_eq {vl : Vip.Client} (h : Accounted vl) :
    leftBy vl = left vl + lostOf vl.pc.unprocessed := by
  have hlost : lostOf (processed vl) + lostOf vl.pc.unprocessed = lostOf vl.received := by
    rw [← h, lostOf, lostOf, lostOf, List.map_append, List.sum_append]
  rw [leftBy, left]
  omega

/-- The registry has two live buffers for each record, and the others are the threads'. -/
structure Chat.Ledger {ι : Type} (unset : Exec Int) (S : Finset ι) (s : Chat ι)
    (v : Vip.Chat ι) : Prop where
  refines : s.Refines v
  compared : ∀ c b, (v.client c).pc.buffer = some b → Compared unset [fields (textOf b)]
  accounted : ∀ c, Accounted (v.client c)
  balance : s.mem.live = 2 * s.reg.size + ∑ c ∈ S, left (v.client c)

theorem init_ledger {ι : Type} (unset : Exec Int) (S : Finset ι) :
    (Chat.init : Chat ι).Ledger unset S .init where
  refines := init_refines
  compared _ _ hb := by cases hb
  accounted _ := rfl
  balance := by
    have hleft : ∀ c ∈ S, left ((Vip.Chat.init : Vip.Chat ι).client c) = 0 := fun _ _ => rfl
    rw [Finset.sum_eq_zero hleft]
    rfl

section Runs

variable {ι : Type} [DecidableEq ι] {s : Chat ι} {v v' : Vip.Chat ι} {S : Finset ι}
  {unset : Exec Int} {ret : RecvRet}

/-- What holds of the buffer of a chunk holds of the one that is received. -/
theorem received_buf {P : Block Byte → Prop} {r : Recv}
    (h : ∀ chunk, ret = .data chunk → P chunk.recv.buf)
    (hr : Vip.recvFromSocket ret (calloc 20) = .ok r) (hflag : r.flag = 0) : P r.buf := by
  cases ret with
  | error =>
      cases hr
      cases hflag
  | closed =>
      cases hr
      cases hflag
  | data chunk =>
      obtain rfl : chunk.recv = r := Except.ok.inj ((recvFromSocket_data chunk).symm.trans hr)
      exact h chunk rfl

theorem step_accounted {c : ι} {r : Recv} (h : ∀ d, Accounted (v.client d))
    (hs : Step v (c, r) v') : ∀ d, Accounted (v'.client d) := by
  apply step_forall (P := fun _ => Accounted) h hs
  cases step_moved hs with
  | @silent pc _ hafter =>
      rw [set_client_self, Accounted, processed_of_buffer hafter, unprocessed_of_buffer hafter,
        List.append_nil]
  | deliver hpc =>
      rw [set_client_self]
      exact h c
  | receive hpc =>
      rw [set_client_self, Vip.Client.receive]
      split
      · exact List.append_nil _
      · split
        · rw [Accounted, processed, List.dropLast_concat]
          rfl
        · exact List.append_nil _
  | process hpc =>
      rw [set_client_self]
      exact List.append_nil _
  | count hpc =>
      rw [set_client_self]
      exact List.append_nil _

/-- A sum in which one term changes. -/
theorem sum_change {f g : ι → Nat} {c : ι} (hc : c ∈ S) (h : ∀ d, d ≠ c → g d = f d) :
    ∑ d ∈ S, g d + f c = ∑ d ∈ S, f d + g c := by
  have hothers : ∑ d ∈ S.erase c, g d = ∑ d ∈ S.erase c, f d :=
    Finset.sum_congr rfl fun d hd => h d (Finset.ne_of_mem_erase hd)
  rw [← Finset.add_sum_erase S f hc, ← Finset.add_sum_erase S g hc, hothers]
  omega

/-- A received text has a key, or one that was never written is taken to differ. -/
def Comparable (unset : Exec Int) (ret : RecvRet) : Prop :=
  ∀ chunk, ret = .data chunk → Compared unset [fields (textOf chunk.recv.buf)]

theorem Chat.Ledger.step_agrees (h : s.Ledger unset S v) {c : ι} (hc : c ∈ S)
    (hret : Comparable unset ret) :
    Alike (Chat.Ledger unset S) (s.step unset (c, ret)) (plainStep v (c, ret)) := by
  apply (h.refines.step_agrees (h.compared c) ret).mono
  intro s' v' _ hplain hmoves
  obtain ⟨r, hr, hs⟩ := bind_eq_ok.mp hplain
  have haccounted := step_accounted h.accounted hs
  have hreceived : r.flag = 0 → Compared unset [fields (textOf r.buf)] :=
    received_buf (P := fun b => Compared unset [fields (textOf b)]) hret hr
  refine ⟨hmoves.refines, step_buffers h.compared (fun _ => hreceived) hs, haccounted, ?_⟩
  have hmoved := hmoves.balance
  have hsum := sum_change (f := fun d => left (v.client d)) (g := fun d => left (v'.client d)) hc
    fun d hd => by rw [step_client_of_ne hs hd]
  rw [(h.accounted c).leftBy_eq, (haccounted c).leftBy_eq] at hmoved
  have hbalance := h.balance
  omega

/-- A run does what it does without pointers, or faults as it does there. -/
theorem run_ledger {tr : List (ι × RecvRet)} (h : ∀ l ∈ tr, Comparable unset l.2) :
    Alike (Chat.Ledger unset (tr.map Prod.fst).toFinset) (tr.foldlM (Chat.step unset) .init)
      (tr.foldlM plainStep .init) := by
  apply Alike.foldlM (init_ledger unset _)
  intro l hl s v hledger
  exact hledger.step_agrees (List.mem_toFinset.mpr (List.mem_map_of_mem hl)) (h l hl)

theorem comparable_differs (ret : RecvRet) : Comparable differs ret := fun _ _ _ _ _ => rfl

/-- With this convention the threads refine those without pointers, for every input. -/
theorem chat_refines (tr : List (ι × RecvRet)) :
    Alike Chat.Refines (tr.foldlM (Chat.step differs) .init) (tr.foldlM plainStep .init) :=
  (run_ledger fun l _ => comparable_differs l.2).mono fun _ _ _ _ h => h.refines

/-! ### Safety -/

/-- What `recv` returned leaves a NUL in the buffer. -/
def Terminated (ret : RecvRet) : Prop :=
  ∀ chunk, ret = .data chunk → 0 ∈ chunk.bytes ∨ chunk.bytes.length < 20

/-- The text that `recv` returned has a separator or two bytes, so `split` stores a string. -/
def Keyed (ret : RecvRet) : Prop :=
  ∀ chunk, ret = .data chunk → colon ∈ chunk.bytes.takeWhile (· ≠ 0) ∨
    2 ≤ (chunk.bytes.takeWhile (· ≠ 0)).length

theorem fields_key_none {w : List Byte} (h : (fields w).1 = none) : colon ∉ w ∧ w.length < 2 := by
  have hnil : segments colon w = [] :=
    List.length_eq_zero_iff.mp (Nat.le_zero.mp (List.getElem?_eq_none_iff.mp h))
  rw [segments] at hnil
  split at hnil
  · rename_i hcolon
    rcases List.take_eq_nil_iff.mp hnil with hlen | hsplit
    · exact absurd (List.length_eq_zero_iff.mp hlen) (List.ne_nil_of_mem hcolon)
    · have hlen := (Text.isSplit_splitOn colon w).length_eq
      rw [hsplit, List.length_nil] at hlen
      exact absurd hlen (Nat.succ_ne_zero _).symm
  · rename_i hcolon
    rcases List.take_eq_nil_iff.mp hnil with hlen | hsingle
    · exact ⟨hcolon, by omega⟩
    · cases hsingle

theorem Terminated.comparable (h : Terminated ret) (hkey : Keyed ret) : Comparable unset ret := by
  intro chunk hchunk p hp hnone
  rw [List.mem_singleton.mp hp, textOf_eq (Chunk.recv_cstr (h chunk hchunk))] at hnone
  obtain ⟨hcolon, hlen⟩ := fields_key_none hnone
  rcases hkey chunk hchunk with hmem | hlong
  · exact absurd hmem hcolon
  · exact absurd hlen (Nat.not_lt_of_le hlong)

/-- The threads refine the broadcast, and hold C strings. -/
def Sound (v : Vip.Chat ι) : Prop :=
  (∃ a, Vip.Chat.Refines v a) ∧ ∀ d buf, (v.client d).pc.buffer = some buf → ∃ w, CStr buf w

theorem plainStep_returns {l : ι × RecvRet} (h : Sound v) (hl : Terminated l.2) :
    Returns (plainStep v l) Sound := by
  obtain ⟨c, ret⟩ := l
  obtain ⟨⟨a, ha⟩, hbufs⟩ := h
  obtain ⟨r, hr⟩ := recv_returns ret
  obtain ⟨v', hs⟩ := ha.progress (hbufs c) r
  obtain ⟨a', _, ha'⟩ := step_refines ha hs
  have hrun : plainStep v (c, ret) = .ok v' := by
    rw [plainStep, hr]
    exact hs
  have hreceived : r.flag = 0 → ∃ w, CStr r.buf w :=
    received_buf (P := fun b => ∃ w, CStr b w)
      (fun chunk hchunk => ⟨_, Chunk.recv_cstr (hl chunk hchunk)⟩) hr
  exact .of_eq hrun ⟨⟨a', ha'⟩, step_buffers hbufs (fun _ => hreceived) hs⟩

theorem plainRun_returns {tr : List (ι × RecvRet)} (h : Sound v) (htr : ∀ l ∈ tr, Terminated l.2) :
    Returns (tr.foldlM plainStep v) Sound := by
  induction tr generalizing v with
  | nil => exact .of_eq rfl h
  | cons l tr ih =>
      rw [List.foldlM_cons]
      apply (plainStep_returns h (htr l List.mem_cons_self)).bind
      exact fun v' h' => ih h' fun l' hl' => htr l' (List.mem_cons_of_mem l hl')

/-- If every received chunk leaves a NUL in its buffer, no thread faults.  A key that was
never written is taken to differ, or no text has one. -/
theorem chat_safe (unset : Exec Int) (tr : List (ι × RecvRet)) (h : ∀ l ∈ tr, Terminated l.2)
    (hkeys : unset = differs ∨ ∀ l ∈ tr, Keyed l.2) :
    ∃ s v, tr.foldlM (Chat.step unset) .init = .ok s ∧ tr.foldlM plainStep .init = .ok v ∧
      s.Refines v := by
  have hinit : Sound (.init : Vip.Chat ι) :=
    ⟨⟨_, Vip.init_refines⟩, by simp [Vip.Chat.init, Client.fresh, Vip.Pc.buffer]⟩
  have hcomparable : ∀ l ∈ tr, Comparable unset l.2 := by
    intro l hl
    rcases hkeys with rfl | hkeys
    · exact comparable_differs l.2
    · exact (h l hl).comparable (hkeys l hl)
  obtain ⟨v, hv, _⟩ := plainRun_returns hinit h
  obtain ⟨s, hs, hledger⟩ := (run_ledger hcomparable).origin hv
  exact ⟨s, v, hs, hv, hledger.refines⟩

/-- The first client sends `"msg:hello"`, which the second one is sent. -/
def exchange : List (Bool × RecvRet) :=
  [(false, .error), (false, .data ⟨bytes "msg:hello" ++ [0], by decide, by decide⟩),
    (false, .error), (false, .error), (true, .error), (true, .error), (true, .error)]

theorem chat_safe_exchange : ∃ s v, exchange.foldlM (Chat.step (.error .undefined)) .init = .ok s ∧
    exchange.foldlM plainStep .init = .ok v ∧ s.Refines v := by
  have hbytes : ∀ l ∈ exchange, ∀ chunk, l.2 = .data chunk →
      chunk.bytes = bytes "msg:hello" ++ [0] := by
    simp [exchange]
  refine chat_safe (.error .undefined) exchange (fun l hl chunk hchunk => .inl ?_)
    (.inr fun l hl chunk hchunk => .inl ?_)
  · rw [hbytes l hl chunk hchunk]
    decide
  · rw [hbytes l hl chunk hchunk]
    decide

/-! ### Leaks -/

/-- The live buffers are two for each record, and those the threads hold or left. -/
theorem chat_leaks (tr : List (ι × RecvRet)) (h : tr.foldlM (Chat.step differs) .init = .ok s) :
    ∃ v, tr.foldlM plainStep .init = .ok v ∧ (∀ c, Accounted (v.client c)) ∧
      s.mem.live = 2 * s.reg.size + ∑ c ∈ (tr.map Prod.fst).toFinset, left (v.client c) := by
  obtain ⟨v, hv, hledger⟩ := (run_ledger fun l _ => comparable_differs l.2).result h
  exact ⟨v, hv, hledger.accounted, hledger.balance⟩

theorem chat_leaks_exchange : ∃ s v, exchange.foldlM (Chat.step differs) .init = .ok s ∧
    exchange.foldlM plainStep .init = .ok v ∧ s.mem.live = 16 ∧ s.reg.size = 1 ∧
    (∀ c, Accounted (v.client c)) ∧
    s.mem.live = 2 * s.reg.size + ∑ c ∈ (exchange.map Prod.fst).toFinset, left (v.client c) := by
  have hview : (exchange.foldlM (Chat.step differs) .init).toOption.map
      (fun s => (s.mem.live, s.reg.size)) = some (16, 1) := by
    decide +kernel
  obtain ⟨s, hs, hview⟩ := Option.map_eq_some_iff.mp hview
  simp only [Prod.mk.injEq] at hview
  obtain ⟨v, hv, hleaks⟩ := chat_leaks exchange (toOption_eq_some hs)
  exact ⟨s, v, toOption_eq_some hs, hv, hview.1, hview.2, hleaks⟩

end Runs

end TelnetChat.Pointer
