import Mathlib.Logic.Function.Basic
import TelnetChat.Machine.Run
import TelnetChat.Vip.Codec

/-!
# Client threads (`manageChat`)

Any number of clients run `manageChat` over one chat registry.  A thread is at
one of the points `Pc`, and `Chat.step` runs it to the next one.  A step makes
at most one access to the shared registry:

* the test before the sync;
* one pass of the loop of `syncMsgToClient`, with its test;
* one `recv`;
* `processMsgFromClient`, which only shares the registry in `addReg`;
* one `msgcounter++`.

A label names the thread that moves and what its `recv` would return, so a run
is any interleaving under any input.  A fault of one thread ends the process.
-/

namespace TelnetChat.Vip

open CRuntime TelnetChat Machine

/-! ## States -/

/-- Where a thread is in `manageChat`. -/
inductive Pc where
  /-- At the test before `syncMsgToClient`. -/
  | top
  /-- At the test of the loop of `syncMsgToClient`. -/
  | sync
  /-- At `recvFromSocket`. -/
  | recv
  /-- At `processMsgFromClient`. -/
  | process (buf : Block Byte)
  /-- At `msgcounter++`. -/
  | count (buf : Block Byte)
  /-- After `return`. -/
  | closed
deriving DecidableEq

/-- The received buffer, between `recv` and `free`. -/
def Pc.buffer : Pc → Option (Block Byte)
  | .process buf => some buf
  | .count buf => some buf
  | _ => none

/-- One thread.  The last three fields are its history. -/
structure Client where
  pc : Pc
  msgcounter : Nat
  sent : List Sent
  /-- The `msgcounter++` made after a `recv`. -/
  counted : Nat
  /-- The buffers received with flag 0. -/
  received : List (Block Byte)
deriving DecidableEq

namespace Client

/-- The indices sent, oldest first. -/
def indices (cl : Client) : List Nat := cl.sent.map Sent.index

def fresh : Client := ⟨.top, 0, [], 0, []⟩

/-- The entry at `msgcounter` is sent. -/
def deliver (cl : Client) (frame : List Byte) (size : Nat) : Client :=
  { cl with msgcounter := cl.msgcounter + 1, sent := cl.sent ++ [⟨cl.msgcounter, frame, size⟩] }

/-- The branches on `flag` after `recvFromSocket`. -/
def receive (cl : Client) (r : Recv) : Client :=
  if r.flag > 0 then { cl with pc := .closed }
  else if r.flag = 0 then { cl with pc := .process r.buf, received := cl.received ++ [r.buf] }
  else { cl with pc := .top }

/-- `msgcounter++`. -/
def count (cl : Client) : Client :=
  { cl with pc := .top, msgcounter := cl.msgcounter + 1, counted := cl.counted + 1 }

end Client

structure Chat (ι : Type) where
  reg : Registry
  client : ι → Client
  /-- Who added each entry. -/
  addedBy : List ι

def Chat.init {ι : Type} : Chat ι := ⟨createRegister, fun _ => .fresh, []⟩

/-- `processMsgFromClient` by `c`. -/
def Chat.register {ι : Type} (s : Chat ι) (c : ι) (buf : Block Byte) : Exec (Chat ι) := do
  let reg ← processMsgFromClient s.reg buf
  pure { s with
    reg := reg
    addedBy := if reg.size > s.reg.size then s.addedBy ++ [c] else s.addedBy }

theorem register_client {ι : Type} {s s' : Chat ι} {c : ι} {buf : Block Byte}
    (h : s.register c buf = .ok s') : s'.client = s.client := by
  obtain ⟨reg, _, hpure⟩ := bind_eq_ok.mp h
  cases hpure
  rfl

/-! ## Steps -/

section Step

variable {ι : Type} [DecidableEq ι]

def Chat.set (s : Chat ι) (c : ι) (cl : Client) : Chat ι :=
  { s with client := Function.update s.client c cl }

/-- The thread of `c` runs to its next point. -/
def Chat.step (s : Chat ι) (c : ι) (r : Recv) : Exec (Chat ι) :=
  match (s.client c).pc with
  | .top =>
      if s.reg.size > (s.client c).msgcounter then pure (s.set c { s.client c with pc := .sync })
      else pure (s.set c { s.client c with pc := .recv })
  | .sync =>
      if s.reg.size > (s.client c).msgcounter then do
        let frame ← syncEntry s.reg (s.client c).msgcounter
        pure (s.set c ((s.client c).deliver frame s.reg.size))
      else pure (s.set c { s.client c with pc := .recv })
  | .recv => pure (s.set c ((s.client c).receive r))
  | .process buf => do
      -- `printf` reads the buffer
      let _printed ← strLen buf
      let s' ← s.register c buf
      pure (s'.set c { s.client c with pc := .count buf })
  | .count _ => pure (s.set c (s.client c).count)
  | .closed => pure s

/-- A step of the system: which thread moves, and what `recv` returns to it. -/
def Step (s : Chat ι) (l : ι × Recv) (s' : Chat ι) : Prop := s.step l.1 l.2 = .ok s'

variable {s s' : Chat ι} {c d : ι} {cl : Client} {r : Recv} {buf : Block Byte}

@[simp] theorem set_reg : (s.set c cl).reg = s.reg := rfl

@[simp] theorem set_addedBy : (s.set c cl).addedBy = s.addedBy := rfl

@[simp] theorem set_client_self : (s.set c cl).client c = cl := Function.update_self ..

@[simp] theorem set_client_of_ne (h : d ≠ c) : (s.set c cl).client d = s.client d :=
  Function.update_of_ne h ..

@[simp] theorem set_set {cl' : Client} : (s.set c cl).set c cl' = s.set c cl' := by
  simp [Chat.set]

/-- A property of each client survives the move of one of them. -/
theorem forall_client_set {P : ι → Client → Prop} (h : ∀ d, P d (s.client d)) (hcl : P c cl)
    (d : ι) : P d ((s.set c cl).client d) := by
  rcases eq_or_ne d c with rfl | hd
  · rwa [set_client_self]
  · rw [set_client_of_ne hd]
    exact h d

@[simp] theorem set_client_eq : s.set c (s.client c) = s := by
  simp [Chat.set]

/-- What a step can do. -/
inductive Moved (s : Chat ι) (c : ι) (r : Recv) : Chat ι → Prop where
  | silent {pc : Pc} : (s.client c).pc.buffer = none → pc.buffer = none →
      Moved s c r (s.set c { s.client c with pc := pc })
  | deliver {frame : List Byte} : (s.client c).pc = .sync → (s.client c).msgcounter < s.reg.size →
      syncEntry s.reg (s.client c).msgcounter = .ok frame →
      Moved s c r (s.set c ((s.client c).deliver frame s.reg.size))
  | receive : (s.client c).pc = .recv → Moved s c r (s.set c ((s.client c).receive r))
  | process {buf : Block Byte} {n : Nat} {s₁ : Chat ι} : (s.client c).pc = .process buf →
      strLen buf = .ok n → s.register c buf = .ok s₁ →
      Moved s c r (s₁.set c { s.client c with pc := .count buf })
  | count {buf : Block Byte} : (s.client c).pc = .count buf →
      Moved s c r (s.set c (s.client c).count)

theorem step_moved (h : Step s (c, r) s') : Moved s c r s' := by
  unfold Step Chat.step at h
  cases hpc : (s.client c).pc with
  | top =>
      simp only [hpc] at h
      split at h <;> cases h <;> exact .silent (by rw [hpc]; rfl) rfl
  | sync =>
      simp only [hpc] at h
      split at h
      · obtain ⟨frame, hframe, hpure⟩ := bind_eq_ok.mp h
        cases hpure
        exact .deliver hpc ‹_› hframe
      · cases h
        exact .silent (by rw [hpc]; rfl) rfl
  | recv =>
      simp only [hpc] at h
      cases h
      exact .receive hpc
  | process buf =>
      simp only [hpc] at h
      obtain ⟨n, hprint, hrest⟩ := bind_eq_ok.mp h
      obtain ⟨s₁, hregister, hpure⟩ := bind_eq_ok.mp hrest
      cases hpure
      exact .process hpc hprint hregister
  | count buf =>
      simp only [hpc] at h
      cases h
      exact .count hpc
  | closed =>
      simp only [hpc] at h
      cases h
      have hsilent : Moved s c r (s.set c { s.client c with pc := (s.client c).pc }) :=
        .silent (by rw [hpc]; rfl) (by rw [hpc]; rfl)
      rwa [set_client_eq] at hsilent

/-- The step of a thread at `processMsgFromClient`. -/
theorem process_step (hpc : (s.client c).pc = .process buf) (hs : Step s (c, r) s') :
    ∃ t, s.register c buf = .ok t ∧ s' = t.set c { s.client c with pc := .count buf } := by
  simp only [Step, Chat.step, hpc] at hs
  obtain ⟨n, _, hrest⟩ := bind_eq_ok.mp hs
  obtain ⟨t, hregister, hpure⟩ := bind_eq_ok.mp hrest
  cases hpure
  exact ⟨t, hregister, rfl⟩

/-- The step of a thread at `msgcounter++`. -/
theorem count_step (hpc : (s.client c).pc = .count buf) (hs : Step s (c, r) s') :
    s' = s.set c (s.client c).count := by
  simp only [Step, Chat.step, hpc] at hs
  cases hs
  rfl

/-- A step of one thread leaves the others alone. -/
theorem step_client_of_ne (hs : Step s (c, r) s') (hd : d ≠ c) : s'.client d = s.client d := by
  cases step_moved hs with
  | silent => exact set_client_of_ne hd
  | deliver => exact set_client_of_ne hd
  | receive => exact set_client_of_ne hd
  | process _ _ hregister => rw [set_client_of_ne hd, register_client hregister]
  | count => exact set_client_of_ne hd

/-- A property of each client survives a step that keeps it for its own. -/
theorem step_forall {P : ι → Client → Prop} (h : ∀ d, P d (s.client d)) (hs : Step s (c, r) s')
    (hc : P c (s'.client c)) : ∀ d, P d (s'.client d) := by
  intro d
  rcases eq_or_ne d c with rfl | hd
  · exact hc
  · rw [step_client_of_ne hs hd]
    exact h d

/-- A registration does not read the threads. -/
theorem register_set (h : s.register d buf = .ok s') :
    (s.set c cl).register d buf = .ok (s'.set c cl) := by
  obtain ⟨reg, hreg, hpure⟩ := bind_eq_ok.mp h
  cases hpure
  rw [Chat.register, set_reg, hreg]
  rfl

/-! ### Received buffers -/

/-- Every buffer received with flag 0 satisfies `P`. -/
def Receives (P : Block Byte → Prop) (s : Chat ι) (l : ι × Recv) : Prop :=
  (s.client l.1).pc = .recv → l.2.flag = 0 → P l.2.buf

theorem step_buffers {P : Block Byte → Prop}
    (h : ∀ d buf, (s.client d).pc.buffer = some buf → P buf) (hG : Receives P s (c, r))
    (hs : Step s (c, r) s') : ∀ d buf, (s'.client d).pc.buffer = some buf → P buf := by
  apply step_forall (P := fun _ cl => ∀ buf, cl.pc.buffer = some buf → P buf) h hs
  intro buf hbuf
  cases step_moved hs with
  | silent _ hafter =>
      rw [set_client_self, hafter] at hbuf
      cases hbuf
  | deliver =>
      rw [set_client_self] at hbuf
      exact h c buf hbuf
  | receive hpc =>
      rw [set_client_self, Client.receive] at hbuf
      split at hbuf
      · cases hbuf
      · split at hbuf
        · cases hbuf
          exact hG hpc ‹_›
        · cases hbuf
  | process hpc =>
      rw [set_client_self] at hbuf
      cases hbuf
      exact h c _ (by rw [hpc]; rfl)
  | count =>
      rw [set_client_self] at hbuf
      cases hbuf

/-- In a run that receives only `P`, only `P` is processed. -/
theorem run_buffers {P : Block Byte → Prop} {G : Chat ι → ι × Recv → Prop}
    (h : Run Step G .init s) (hG : ∀ s l, G s l → Receives P s l) :
    Run Step (fun s l => G s l ∧ ∀ d buf, (s.client d).pc.buffer = some buf → P buf) .init s :=
  h.strengthen (by simp [Chat.init, Client.fresh, Pc.buffer])
    fun _ l _ hl ih hs => step_buffers (c := l.1) (r := l.2) ih (hG _ _ hl) hs

/-- Every received buffer was counted, or is in the hands of its thread. -/
def Client.Counts (cl : Client) : Prop :=
  cl.counted + cl.pc.buffer.toList.length = cl.received.length

theorem step_counts (h : ∀ d, (s.client d).Counts) (hs : Step s (c, r) s') :
    ∀ d, (s'.client d).Counts := by
  apply step_forall (P := fun _ => Client.Counts) h hs
  have hc := h c
  unfold Client.Counts at hc
  cases step_moved hs with
  | silent hbefore hafter =>
      rw [set_client_self, Client.Counts, hafter]
      rwa [hbefore] at hc
  | deliver => rwa [set_client_self]
  | receive hpc =>
      rw [hpc] at hc
      rw [set_client_self, Client.receive]
      split
      · exact hc
      · split
        · rw [Client.Counts, List.length_append, ← hc]
          rfl
        · exact hc
  | process hpc =>
      rw [hpc] at hc
      rw [set_client_self]
      exact hc
  | count hpc =>
      rw [hpc] at hc
      rw [set_client_self]
      exact hc

theorem run_counts (h : Reachable Step .init s) (c : ι) : (s.client c).Counts :=
  h.invariant (I := fun s => ∀ c, (s.client c).Counts) (fun _ => rfl)
    (fun _ l _ _ ih hs => step_counts (c := l.1) (r := l.2) ih hs) c

end Step

end TelnetChat.Vip
