import TelnetChat.CRuntime.Heap
import TelnetChat.Vip.Delivery

/-!
# A thread for each client (`chat_server_vip.c`)

`vip_accept` allocates a `struct package` for each connection and starts a thread in
`vip_reg`.  The thread copies the package, frees it, and runs `manageChat` on the
descriptor in its copy.

The kernel has a table of the open descriptors, and `accept` may return any other
one, also one that a thread closed.  So may `malloc` with an address.  A label says
what these calls return, and what `recv` would return on each connection.

*Packages.*  No thread uses or frees a package that is not its own, and each is freed
by its thread.  The package of a thread that could not be started is never freed.

*Connections.*  Each thread receives from, sends to and closes its own connection
(`clients_served`).

*Chat.*  The clients of the server run the chat of `Vip/Chat.lean`, so what is proved
of the chat holds of the server.
-/

namespace TelnetChat.Vip

open CRuntime TelnetChat Machine

/-! ## The source -/

/-- `struct package`.  The registry and its mutex are the same in all. -/
structure Package where
  sockfd : Nat
deriving DecidableEq

/-- Where the thread of a connection is. -/
inductive TaskPc where
  /-- `pthread_create` failed: there is no thread. -/
  | lost (pkg : Nat)
  /-- At the copy of the package. -/
  | start (pkg : Nat)
  /-- At `free`. -/
  | copied (pkg : Nat) (p : Package)
  /-- In `manageChat`. -/
  | chat (p : Package)
  | exited
deriving DecidableEq

/-- The connection `i` has the task `i`. -/
structure Task where
  /-- What `accept` returned. -/
  sockfd : Nat
  pc : TaskPc
deriving DecidableEq

/-- The last field is the history: what was passed to `send` on each connection. -/
structure Server where
  heap : Heap Package
  /-- The connections of the open descriptors. -/
  kernel : Heap Nat
  tasks : List Task
  chat : Chat Nat
  passed : Nat → List (List Byte)

def Server.init : Server := ⟨.empty, .empty, [], .init, fun _ => []⟩

/-- What the calls in an iteration of `vip_accept` return. -/
structure Arrival where
  client_sockfd : Nat
  pkg : Nat
  /-- `pthread_create` succeeds. -/
  created : Bool

/-- An iteration of `vip_accept`, up to `pthread_create`.  `none` is an `accept` that
returned `-1`. -/
def Server.vip_accept (s : Server) : Option Arrival → Exec Server
  | none => pure s
  | some a => pure { s with
      heap := s.heap.malloc a.pkg ⟨a.client_sockfd⟩
      kernel := s.kernel.malloc a.client_sockfd s.tasks.length
      tasks := s.tasks ++
        [⟨a.client_sockfd, if a.created = true then .start a.pkg else .lost a.pkg⟩] }

/-- What `recv` returns on a descriptor. -/
def Server.recv (s : Server) (sockfd : Nat) (input : Nat → RecvRet) : RecvRet :=
  match s.kernel sockfd with
  | some k => input k
  | none => .error

/-- Frames are passed to `send` on a descriptor. -/
def Server.send (s : Server) (sockfd : Nat) (frames : List (List Byte)) :
    Nat → List (List Byte) :=
  match s.kernel sockfd with
  | some k => Function.update s.passed k (s.passed k ++ frames)
  | none => s.passed

/-- The frames sent between two states of a thread. -/
def framesSince (cl cl' : Client) : List (List Byte) :=
  (cl'.sent.drop cl.sent.length).map Sent.frame

/-- `manageChat` of the task `i` runs to its next point.  It closes its descriptor when
it returns. -/
def Server.manageChat (s : Server) (i : Nat) (t : Task) (p : Package) (input : Nat → RecvRet) :
    Exec Server := do
  let r ← recvFromSocket (s.recv p.sockfd input) (calloc 20)
  let chat ← s.chat.step i r
  let passed := s.send p.sockfd (framesSince (s.chat.client i) (chat.client i))
  if (chat.client i).pc = .closed then
    pure { s with
      chat := chat
      passed := passed
      kernel := Function.update s.kernel p.sockfd none
      tasks := s.tasks.set i { t with pc := .exited } }
  else pure { s with chat := chat, passed := passed }

/-- `vip_reg` of the task `i` runs to its next point. -/
def Server.vip_reg (s : Server) (i : Nat) (t : Task) (input : Nat → RecvRet) : Exec Server :=
  match t.pc with
  | .lost _ => pure s
  | .start pkg => do
      let p ← s.heap.load pkg
      pure { s with tasks := s.tasks.set i { t with pc := .copied pkg p } }
  | .copied pkg p => do
      let heap ← s.heap.free pkg
      pure { s with heap := heap, tasks := s.tasks.set i { t with pc := .chat p } }
  | .chat p => s.manageChat i t p input
  | .exited => pure s

inductive ServerEvent where
  | accept (ret : Option Arrival)
  | thread (i : Nat) (input : Nat → RecvRet)

def Server.step (s : Server) : ServerEvent → Exec Server
  | .accept ret => s.vip_accept ret
  | .thread i input =>
      match s.tasks[i]? with
      | some t => s.vip_reg i t input
      | none => pure s

def ServerStep (s : Server) (e : ServerEvent) (s' : Server) : Prop := s.step e = .ok s'

/-- `accept` returns a descriptor that is not open, and `malloc` memory that is not in
use. -/
def Unused (s : Server) : ServerEvent → Prop
  | .accept (some a) => s.kernel a.client_sockfd = none ∧ s.heap a.pkg = none
  | _ => True

/-! ## Who owns what -/

/-- The package that the task has still to free. -/
def Task.package (_ : Nat) (t : Task) : Option (Nat × Package) :=
  match t.pc with
  | .lost pkg => some (pkg, ⟨t.sockfd⟩)
  | .start pkg => some (pkg, ⟨t.sockfd⟩)
  | .copied pkg _ => some (pkg, ⟨t.sockfd⟩)
  | _ => none

/-- The descriptor that the task `i` has still to close, with its connection. -/
def Task.socket (i : Nat) (t : Task) : Option (Nat × Nat) :=
  if t.pc = .exited then none else some (t.sockfd, i)

/-- The package that the task has copied. -/
def TaskPc.copy : TaskPc → Option Package
  | .copied _ p => some p
  | .chat p => some p
  | _ => none

/-- The task runs `manageChat`, or has returned from it. -/
def TaskPc.chats : TaskPc → Bool
  | .chat _ => true
  | .exited => true
  | _ => false

structure Server.Owns (s : Server) : Prop where
  heap : s.heap.Owned (Heap.owners Task.package s.tasks)
  kernel : s.kernel.Owned (Heap.owners Task.socket s.tasks)
  copies : ∀ (i : Nat) t p, s.tasks[i]? = some t → t.pc.copy = some p → p.sockfd = t.sockfd
  /-- The thread of a client that does not chat has done nothing in the chat. -/
  fresh : ∀ i : Nat, (∀ t, s.tasks[i]? = some t → t.pc.chats = false) →
    s.chat.client i = .fresh
  closed : ∀ (i : Nat) t, s.tasks[i]? = some t → t.pc.chats = true →
    ((s.chat.client i).pc = .closed ↔ t.pc = .exited)
  passed : ∀ i, s.passed i = (s.chat.client i).sent.map Sent.frame

/-! ## Steps -/

/-- The steps of the server. -/
inductive Server.Turn (s : Server) : ServerEvent → Server → Prop where
  | idle {e : ServerEvent} : s.Turn e s
  | arrives {a : Arrival} {s' : Server} : s.vip_accept (some a) = .ok s' →
      s.Turn (.accept (some a)) s'
  | copies {i pkg : Nat} {t : Task} {p : Package} {input : Nat → RecvRet} :
      s.tasks[i]? = some t → t.pc = .start pkg → s.heap.load pkg = .ok p →
      s.Turn (.thread i input) { s with tasks := s.tasks.set i { t with pc := .copied pkg p } }
  | frees {i pkg : Nat} {t : Task} {p : Package} {heap : Heap Package} {input : Nat → RecvRet} :
      s.tasks[i]? = some t → t.pc = .copied pkg p → s.heap.free pkg = .ok heap →
      s.Turn (.thread i input)
        { s with heap := heap, tasks := s.tasks.set i { t with pc := .chat p } }
  | chats {i : Nat} {t : Task} {p : Package} {input : Nat → RecvRet} {s' : Server} :
      s.tasks[i]? = some t → t.pc = .chat p → s.manageChat i t p input = .ok s' →
      s.Turn (.thread i input) s'

section Turns

variable {s s' : Server} {e : ServerEvent} {i : Nat} {t : Task} {p : Package}
  {input : Nat → RecvRet} {a : Arrival}

theorem server_turn (hs : ServerStep s e s') : s.Turn e s' := by
  cases e with
  | accept ret =>
      cases ret with
      | none =>
          cases hs
          exact .idle
      | some a => exact .arrives hs
  | thread i input =>
      simp only [ServerStep, Server.step] at hs
      cases hi : s.tasks[i]? with
      | none =>
          simp only [hi] at hs
          cases hs
          exact .idle
      | some t =>
          simp only [hi, Server.vip_reg] at hs
          cases hpc : t.pc with
          | lost pkg =>
              simp only [hpc] at hs
              cases hs
              exact .idle
          | start pkg =>
              simp only [hpc] at hs
              obtain ⟨p, hload, hpure⟩ := bind_eq_ok.mp hs
              cases hpure
              exact .copies hi hpc hload
          | copied pkg p =>
              simp only [hpc] at hs
              obtain ⟨heap, hfree, hpure⟩ := bind_eq_ok.mp hs
              cases hpure
              exact .frees hi hpc hfree
          | chat p =>
              simp only [hpc] at hs
              exact .chats hi hpc hs
          | exited =>
              simp only [hpc] at hs
              cases hs
              exact .idle

/-! ### The accept loop -/

theorem init_owns : Server.init.Owns where
  heap := Heap.owned_empty
  kernel := Heap.owned_empty
  copies i t p hi := by cases hi
  fresh i _ := rfl
  closed i t hi := by cases hi
  passed i := rfl

theorem Server.Owns.arrives (h : s.Owns) (hG : Unused s (.accept (some a)))
    (hs : s.vip_accept (some a) = .ok s') : s'.Owns := by
  cases hs
  have hpackage : ∀ i, Task.package i
      ⟨a.client_sockfd, if a.created = true then .start a.pkg else .lost a.pkg⟩ =
        some (a.pkg, ⟨a.client_sockfd⟩) := by
    intro i
    by_cases hcreated : a.created = true
    · simp [Task.package, hcreated]
    · simp [Task.package, hcreated]
  have hpc : ∀ pc, pc = (if a.created = true then .start a.pkg else .lost a.pkg) →
      pc ≠ TaskPc.exited ∧ pc.copy = none ∧ pc.chats = false := by
    rintro pc rfl
    by_cases hcreated : a.created = true
    · simp [hcreated, TaskPc.copy, TaskPc.chats]
    · simp [hcreated, TaskPc.copy, TaskPc.chats]
  obtain ⟨hexited, hcopy, hchats⟩ := hpc _ rfl
  constructor
  · rw [Heap.owners_concat, hpackage]
    exact h.heap.malloc hG.2 Heap.owners_length _
  · rw [Heap.owners_concat, Task.socket, if_neg hexited]
    exact h.kernel.malloc hG.1 Heap.owners_length _
  · intro i t p hi ht
    rcases getElem?_append_singleton hi with hi | ⟨_, rfl⟩
    · exact h.copies i t p hi ht
    · rw [hcopy] at ht
      cases ht
  · exact fun i hi => h.fresh i fun t ht => hi t (getElem?_append_of_some ht)
  · intro i t hi ht
    rcases getElem?_append_singleton hi with hi | ⟨_, rfl⟩
    · exact h.closed i t hi ht
    · rw [hchats] at ht
      cases ht
  · exact h.passed

/-! ### The threads -/

/-- A thread that does not chat yet moves. -/
theorem Server.Owns.moves (h : s.Owns) {pc : TaskPc} {heap : Heap Package}
    (hi : s.tasks[i]? = some t) (ht : t.pc.chats = false) (hpc : pc ≠ .exited)
    (hheap : heap.Owned (Heap.owners Task.package (s.tasks.set i { t with pc := pc })))
    (hcopy : ∀ p, pc.copy = some p → p.sockfd = t.sockfd) :
    Server.Owns { s with heap := heap, tasks := s.tasks.set i { t with pc := pc } } := by
  obtain ⟨hlt, _⟩ := List.getElem?_eq_some_iff.mp hi
  have hexited : t.pc ≠ .exited := by
    intro hexited
    rw [hexited] at ht
    cases ht
  have hfresh : s.chat.client i = .fresh := by
    apply h.fresh i
    intro t' ht'
    rw [hi, Option.some.injEq] at ht'
    exact ht' ▸ ht
  constructor
  · exact hheap
  · rw [Heap.owners_set_of_eq hi (by rw [Task.socket, Task.socket, if_neg hpc, if_neg hexited])]
    exact h.kernel
  · intro j t' p hj hp
    rcases getElem?_set_of_some hj with ⟨_, rfl⟩ | ⟨_, hj⟩
    · exact hcopy p hp
    · exact h.copies j t' p hj hp
  · intro j hj
    rcases eq_or_ne j i with rfl | hne
    · exact hfresh
    · exact h.fresh j fun t' ht' => hj t' ((List.getElem?_set_ne hne.symm).trans ht')
  · intro j t' hj hchats
    rcases getElem?_set_of_some hj with ⟨rfl, rfl⟩ | ⟨_, hj⟩
    · rw [hfresh]
      exact iff_of_false nofun hpc
    · exact h.closed j t' hj hchats
  · exact h.passed

/-- A thread copies its package. -/
theorem Server.Owns.copies_package (h : s.Owns) {pkg : Nat} (hi : s.tasks[i]? = some t)
    (hpc : t.pc = .start pkg) : s.heap.load pkg = .ok ⟨t.sockfd⟩ ∧
      Server.Owns { s with tasks := s.tasks.set i { t with pc := .copied pkg ⟨t.sockfd⟩ } } := by
  have howner : Task.package i t = some (pkg, ⟨t.sockfd⟩) := by rw [Task.package, hpc]
  refine ⟨h.heap.load_eq ((Heap.owners_eq hi).trans howner), ?_⟩
  refine @Server.Owns.moves s i t h _ s.heap hi (by rw [hpc]; rfl) nofun ?_ ?_
  · rw [Heap.owners_set_of_eq hi howner.symm]
    exact h.heap
  · rintro p ⟨⟩
    rfl

/-- A thread frees its package. -/
theorem Server.Owns.frees_package (h : s.Owns) {pkg : Nat} (hi : s.tasks[i]? = some t)
    (hpc : t.pc = .copied pkg p) : Returns (s.heap.free pkg) fun heap =>
      Server.Owns { s with heap := heap, tasks := s.tasks.set i { t with pc := .chat p } } := by
  have howner : Task.package i t = some (pkg, ⟨t.sockfd⟩) := by rw [Task.package, hpc]
  apply (h.heap.free ((Heap.owners_eq hi).trans howner)).mono
  intro heap hheap
  refine h.moves hi (by rw [hpc]; rfl) nofun ?_ ?_
  · rw [Heap.owners_set hi]
    exact hheap
  · rintro p' ⟨⟩
    exact h.copies i t p hi (by rw [hpc]; rfl)

/-! ### The chat -/

/-- What a step sends comes after what was sent before. -/
theorem step_sent {ι : Type} [DecidableEq ι] {c c' : Chat ι} {i : ι} {r : Recv}
    (hs : Step c (i, r) c') : (c.client i).sent <+: (c'.client i).sent := by
  cases step_moved hs with
  | silent _ _ => simp [set_client_self]
  | deliver _ _ _ =>
      rw [set_client_self]
      exact List.prefix_append _ _
  | receive _ =>
      rw [set_client_self, Client.receive]
      split
      · exact List.prefix_refl _
      · split
        · exact List.prefix_refl _
        · exact List.prefix_refl _
  | process _ _ _ => simp [set_client_self]
  | count _ =>
      rw [set_client_self]
      exact List.prefix_refl _

theorem append_framesSince {cl cl' : Client} (h : cl.sent <+: cl'.sent) :
    cl.sent.map Sent.frame ++ framesSince cl cl' = cl'.sent.map Sent.frame := by
  obtain ⟨rest, hrest⟩ := h
  rw [framesSince, ← hrest]
  simp

/-- The descriptor of a thread that chats is open, and of its connection. -/
theorem Server.Owns.kernel_eq (h : s.Owns) (hi : s.tasks[i]? = some t) (hpc : t.pc = .chat p) :
    Heap.owners Task.socket s.tasks i = some (p.sockfd, i) ∧ s.kernel p.sockfd = some i := by
  have howner : Heap.owners Task.socket s.tasks i = some (p.sockfd, i) := by
    rw [Heap.owners_eq hi, Task.socket, if_neg (by simp [hpc]), h.copies i t p hi (by rw [hpc]; rfl)]
  exact ⟨howner, h.kernel.stored i _ _ howner⟩

/-- A step of `manageChat` is a step of the chat with what came in on its own
connection. -/
theorem Server.Owns.chat_step (h : s.Owns) (hi : s.tasks[i]? = some t) (hpc : t.pc = .chat p)
    (hs : s.manageChat i t p input = .ok s') :
    ∃ r, recvFromSocket (input i) (calloc 20) = .ok r ∧ Step s.chat (i, r) s'.chat := by
  rw [Server.manageChat, Server.recv, (h.kernel_eq hi hpc).2] at hs
  obtain ⟨r, hr, hrest⟩ := bind_eq_ok.mp hs
  obtain ⟨chat, hstep, hpure⟩ := bind_eq_ok.mp hrest
  refine ⟨r, hr, ?_⟩
  simp only at hpure
  split at hpure
  · cases hpure
    exact hstep
  · cases hpure
    exact hstep

/-- What the thread sent was passed to `send` on its own connection. -/
theorem Server.Owns.send_eq (h : s.Owns) {chat : Chat Nat} {r : Recv}
    (hi : s.tasks[i]? = some t) (hpc : t.pc = .chat p) (hs : Step s.chat (i, r) chat) (j : Nat) :
    s.send p.sockfd (framesSince (s.chat.client i) (chat.client i)) j =
      (chat.client j).sent.map Sent.frame := by
  rw [Server.send, (h.kernel_eq hi hpc).2]
  simp only
  rcases eq_or_ne j i with rfl | hne
  · rw [Function.update_self, h.passed, append_framesSince (step_sent hs)]
  · rw [Function.update_of_ne hne, h.passed, step_client_of_ne hs hne]

/-- The chat leaves the threads alone that do not chat. -/
theorem Server.Owns.fresh_step (h : s.Owns) {chat : Chat Nat} {r : Recv}
    (hi : s.tasks[i]? = some t) (hpc : t.pc = .chat p) (hs : Step s.chat (i, r) chat) {j : Nat}
    (hj : ∀ t, s.tasks[j]? = some t → t.pc.chats = false) : chat.client j = .fresh := by
  have hne : j ≠ i := by
    rintro rfl
    have hchats := hj t hi
    rw [hpc] at hchats
    cases hchats
  rw [step_client_of_ne hs hne]
  exact h.fresh j hj

/-- The thread goes on. -/
theorem Server.Owns.stays (h : s.Owns) {chat : Chat Nat} {r : Recv} (hi : s.tasks[i]? = some t)
    (hpc : t.pc = .chat p) (hs : Step s.chat (i, r) chat)
    (hopen : ¬ (chat.client i).pc = .closed) :
    Server.Owns { s with
      chat := chat
      passed := s.send p.sockfd (framesSince (s.chat.client i) (chat.client i)) } := by
  refine ⟨h.heap, h.kernel, h.copies, fun j => h.fresh_step hi hpc hs, ?_, h.send_eq hi hpc hs⟩
  intro j t' hj hchats
  rcases eq_or_ne j i with rfl | hne
  · rw [hi, Option.some.injEq] at hj
    refine iff_of_false hopen ?_
    rw [← hj, hpc]
    exact nofun
  · simp only
    rw [step_client_of_ne hs hne]
    exact h.closed j t' hj hchats

/-- The thread closes its descriptor and returns. -/
theorem Server.Owns.returns (h : s.Owns) {chat : Chat Nat} {r : Recv} (hi : s.tasks[i]? = some t)
    (hpc : t.pc = .chat p) (hs : Step s.chat (i, r) chat)
    (hclosed : (chat.client i).pc = .closed) :
    Server.Owns { s with
      chat := chat
      passed := s.send p.sockfd (framesSince (s.chat.client i) (chat.client i))
      kernel := Function.update s.kernel p.sockfd none
      tasks := s.tasks.set i { t with pc := .exited } } := by
  obtain ⟨hlt, _⟩ := List.getElem?_eq_some_iff.mp hi
  refine ⟨?_, ?_, ?_, ?_, ?_, h.send_eq hi hpc hs⟩
  · rw [Heap.owners_set_of_eq hi (by simp [Task.package, hpc])]
    exact h.heap
  · rw [Heap.owners_set hi]
    exact h.kernel.remove (h.kernel_eq hi hpc).1
  · intro j t' p' hj hp'
    rcases getElem?_set_of_some hj with ⟨_, rfl⟩ | ⟨_, hj⟩
    · cases hp'
    · exact h.copies j t' p' hj hp'
  · intro j hj
    rcases eq_or_ne j i with rfl | hne
    · exact absurd (hj _ (List.getElem?_set_self hlt)) nofun
    · exact h.fresh_step hi hpc hs fun t' ht' => hj t' ((List.getElem?_set_ne hne.symm).trans ht')
  · intro j t' hj hchats
    rcases getElem?_set_of_some hj with ⟨rfl, rfl⟩ | ⟨hne, hj⟩
    · exact iff_of_true hclosed rfl
    · simp only
      rw [step_client_of_ne hs hne]
      exact h.closed j t' hj hchats

theorem Server.Owns.manages (h : s.Owns) (hi : s.tasks[i]? = some t) (hpc : t.pc = .chat p)
    (hs : s.manageChat i t p input = .ok s') : s'.Owns := by
  obtain ⟨r, _, hrest⟩ := bind_eq_ok.mp hs
  obtain ⟨chat, hstep, hpure⟩ := bind_eq_ok.mp hrest
  simp only at hpure
  split at hpure
  · cases hpure
    exact h.returns (r := r) hi hpc hstep ‹_›
  · cases hpure
    exact h.stays (r := r) hi hpc hstep ‹_›

/-! ### Runs -/

/-- The server has come to a chat that its clients can come to. -/
structure Server.Chats (s : Server) : Prop where
  owns : s.Owns
  chat : Reachable Step .init s.chat

theorem Server.Chats.step (h : s.Chats) (hG : Unused s e) (hs : ServerStep s e s') : s'.Chats := by
  cases server_turn hs with
  | idle => exact h
  | @arrives a _ hs =>
      refine ⟨h.owns.arrives hG hs, ?_⟩
      cases hs
      exact h.chat
  | copies hi hpc hload =>
      obtain ⟨hload', howns⟩ := h.owns.copies_package hi hpc
      rw [hload', Except.ok.injEq] at hload
      subst hload
      exact ⟨howns, h.chat⟩
  | frees hi hpc hfree => exact ⟨(h.owns.frees_package hi hpc).result hfree, h.chat⟩
  | chats hi hpc hs =>
      obtain ⟨r, _, hstep⟩ := h.owns.chat_step hi hpc hs
      exact ⟨h.owns.manages hi hpc hs, h.chat.step trivial hstep⟩

theorem run_chats (h : Run ServerStep Unused .init s) : s.Chats :=
  h.invariant (I := Server.Chats) ⟨init_owns, .init⟩ fun _ _ _ hG hI hs => hI.step hG hs

/-- Each thread serves its connection. -/
structure Server.Serves (s : Server) : Prop where
  /-- The clients have come to the chat by its own steps. -/
  chat : Reachable Step .init s.chat
  passed : ∀ i, s.passed i = (s.chat.client i).sent.map Sent.frame
  /-- A descriptor is open until the thread of its connection returns. -/
  descriptors : ∀ sockfd i, s.kernel sockfd = some i ↔
    ∃ t, s.tasks[i]? = some t ∧ t.pc ≠ .exited ∧ t.sockfd = sockfd
  /-- A package is in use until its thread frees it. -/
  packages : ∀ a x, s.heap a = some x ↔
    ∃ i t, s.tasks[i]? = some t ∧ Task.package i t = some (a, x)
  /-- A thread uses and frees its package without a fault. -/
  starts : ∀ (i : Nat) t input, s.tasks[i]? = some t → t.pc.chats = false →
    ∃ s', ServerStep s (.thread i input) s'
  /-- A thread that chats steps as its client, with what came in on its connection. -/
  chats : ∀ (i : Nat) t p input, s.tasks[i]? = some t → t.pc = .chat p →
    s.kernel p.sockfd = some i ∧
    ((∃ s', ServerStep s (.thread i input) s') ↔
      ∃ r chat, recvFromSocket (input i) (calloc 20) = .ok r ∧ Step s.chat (i, r) chat)

theorem Server.Owns.starts (h : s.Owns) (hi : s.tasks[i]? = some t) (ht : t.pc.chats = false)
    (input : Nat → RecvRet) : ∃ s', ServerStep s (.thread i input) s' := by
  simp only [ServerStep, Server.step, hi, Server.vip_reg]
  cases hpc : t.pc with
  | lost pkg => exact ⟨s, rfl⟩
  | start pkg =>
      simp only [(h.copies_package hi hpc).1, ok_bind]
      exact ⟨_, rfl⟩
  | copied pkg p =>
      obtain ⟨heap, hfree, _⟩ := h.frees_package hi hpc
      simp only [hfree, ok_bind]
      exact ⟨_, rfl⟩
  | chat p =>
      rw [hpc] at ht
      cases ht
  | exited => exact ⟨s, rfl⟩

/-- A thread that chats faults exactly when its client does. -/
theorem Server.Owns.chats_iff (h : s.Owns) (hi : s.tasks[i]? = some t) (hpc : t.pc = .chat p) :
    (∃ s', ServerStep s (.thread i input) s') ↔
      ∃ r chat, recvFromSocket (input i) (calloc 20) = .ok r ∧ Step s.chat (i, r) chat := by
  simp only [ServerStep, Server.step, hi, Server.vip_reg, hpc]
  constructor
  · rintro ⟨s', hs⟩
    obtain ⟨r, hr, hstep⟩ := h.chat_step hi hpc hs
    exact ⟨r, _, hr, hstep⟩
  · rintro ⟨r, chat, hr, hstep⟩
    have hstep : s.chat.step i r = .ok chat := hstep
    rw [Server.manageChat, Server.recv, (h.kernel_eq hi hpc).2]
    simp only [hr, ok_bind, hstep]
    split
    · exact ⟨_, rfl⟩
    · exact ⟨_, rfl⟩

/-- Whatever addresses and descriptors are used again, and in any interleaving, no
thread uses or frees the package of another, and each receives from, sends to and
closes its own connection. -/
theorem clients_served (h : Run ServerStep Unused .init s) : s.Serves := by
  obtain ⟨howns, hchat⟩ := run_chats h
  refine ⟨hchat, howns.passed, ?_, ?_, fun i t input hi ht => howns.starts hi ht input,
    fun i t p input hi hpc => ⟨(howns.kernel_eq hi hpc).2, howns.chats_iff hi hpc⟩⟩
  · intro sockfd i
    constructor
    · intro hk
      obtain ⟨j, hj⟩ := howns.kernel.used sockfd i hk
      obtain ⟨t, ht, hsocket⟩ := Option.bind_eq_some_iff.mp hj
      rw [Task.socket] at hsocket
      split at hsocket
      · cases hsocket
      · cases hsocket
        exact ⟨t, ht, ‹_›, rfl⟩
    · rintro ⟨t, ht, hopen, rfl⟩
      apply howns.kernel.stored i
      rw [Heap.owners_eq ht, Task.socket, if_neg hopen]
  · intro a x
    constructor
    · intro ha
      obtain ⟨i, hi⟩ := howns.heap.used a x ha
      obtain ⟨t, ht, hpackage⟩ := Option.bind_eq_some_iff.mp hi
      exact ⟨i, t, ht, hpackage⟩
    · rintro ⟨i, t, ht, hpackage⟩
      exact howns.heap.stored i a x ((Heap.owners_eq ht).trans hpackage)

instance (s : Server) (e : ServerEvent) : Decidable (Unused s e) :=
  match e with
  | .accept (some a) =>
      inferInstanceAs (Decidable (s.kernel a.client_sockfd = none ∧ s.heap a.pkg = none))
  | .accept none => .isTrue trivial
  | .thread _ _ => .isTrue trivial

/-- One step, if the kernel and `malloc` may do so. -/
def stepUnused (s : Server) (e : ServerEvent) : Option Server :=
  if Unused s e then (s.step e).toOption else none

/-- A client comes and goes, and the next is given its descriptor and its address. -/
def reuse : List ServerEvent :=
  .accept (some ⟨5, 100, true⟩) :: (List.replicate 4 (.thread 0 fun _ => .closed) ++
    [.accept (some ⟨5, 100, true⟩), .thread 1 fun _ => .error])

theorem clients_served_reuse : ∃ s : Server, s.tasks = [⟨5, .exited⟩, ⟨5, .copied 100 ⟨5⟩⟩] ∧
    s.Serves := by
  have hview : (replay stepUnused reuse .init).map Server.tasks =
      some [⟨5, .exited⟩, ⟨5, .copied 100 ⟨5⟩⟩] := by
    decide +kernel
  have hstep : ∀ e ∈ reuse, ∀ s s', stepUnused s e = some s' → Unused s e ∧ ServerStep s e s' := by
    intro e _ s s' hs
    rw [stepUnused] at hs
    split at hs
    · exact ⟨‹_›, toOption_eq_some hs⟩
    · cases hs
  obtain ⟨s, hrun, htasks⟩ := replay_view hstep hview
  exact ⟨s, htasks, clients_served hrun⟩

end Turns

end TelnetChat.Vip
