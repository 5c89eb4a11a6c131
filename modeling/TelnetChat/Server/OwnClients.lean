import TelnetChat.Server.Pipeline

/-!
# Which client a registration thread serves

The confirm loop gives every registration thread the same package, with the
address of its `client_fd`.  A thread reads the descriptor when it comes to it,
and a later iteration may have stored its own by then.

*Own clients.*  If no thread is started while another has still to read, every
thread has the descriptor of its own client.  So has the record that it adds, if
the memory it builds the text in starts as an empty string (`own_clients`).

*Shared clients.*  A thread that has still to read when the next is started is
given the client of that one (`late_reads_share_client`).
-/

namespace TelnetChat.Server

open CRuntime TelnetChat Machine

/-! ## Properties of a state -/

/-- What each thread read is the descriptor of the client it was started for. -/
def State.ReadsOwn (s : State) : Prop :=
  ∀ (i : Nat) t client_fd, s.threads[i]? = some t → t.client_fd = some client_fd →
    ∃ c, s.accepted[i]? = some c ∧ client_fd = c.fd

/-- Each registration thread serves its client. -/
structure State.OwnClients (s : State) : Prop where
  reads : s.ReadsOwn
  /-- A thread adds at most one record. -/
  once : s.registered.Nodup
  /-- The record of a thread bears the descriptor of its client. -/
  records : ∃ js, s.confirm_reg.Holds js ∧ List.Forall₂ (fun (i : Nat) json =>
    ∃ c, s.accepted[i]? = some c ∧ Finds (valueOf json sockfdKey) (decimal c.fd)) s.registered js
  /-- The reply of a thread is sent to its client. -/
  replies : List.Forall₂ (fun (i : Nat) reply => ∃ c, s.accepted[i]? = some c ∧
    reply = ⟨c.fd, bytes "registeration:true" ++ [0]⟩) s.registered s.replies
  /-- No client is served by two threads. -/
  distinct : (s.accepted.map Connection.fd).Nodup → ∀ (i j : Nat) t t' client_fd,
    s.threads[i]? = some t → s.threads[j]? = some t' → t.client_fd = some client_fd →
    t'.client_fd = some client_fd → i = j

/-- No thread is started while another has still to read. -/
def ReadFirst (s : State) : Event → Prop
  | .confirm _ => s.pc = .read → .started ∉ s.threads
  | _ => True

/-- The memory that a registration starts with is an empty string. -/
def EmptyTemp (s : State) : Event → Prop
  | .register i input => ∀ client_fd c_ter buf,
      s.threads[i]? = some (.waiting client_fd c_ter buf) → CStr input.temp []
  | _ => True

/-! ## The records of `confirm_reg` -/

/-- The thread `i` has exited, with a descriptor that satisfies `P`. -/
def Exited (ts : List Thread) (P : Nat → Prop) (i : Nat) : Prop :=
  ∃ client_fd : Nat, ts[i]? = some (.exited client_fd) ∧ P client_fd

/-- Each thread that registered has a record and a reply for the descriptor it
read. -/
structure State.Registered (s : State) : Prop where
  exited : ∀ i ∈ s.registered, Exited s.threads (fun _ => True) i
  once : s.registered.Nodup
  records : ∃ js, s.confirm_reg.Holds js ∧ List.Forall₂ (fun i json =>
    Exited s.threads (fun fd => Finds (valueOf json sockfdKey) (decimal fd)) i) s.registered js
  replies : List.Forall₂ (fun i reply =>
    Exited s.threads (fun fd => reply = ⟨fd, bytes "registeration:true" ++ [0]⟩) i)
      s.registered s.replies

/-- The loops of the server start threads, and leave the registrations alone. -/
structure State.Starts (s s' : State) : Prop where
  threads : ∃ ts, s'.threads = s.threads ++ ts
  confirm_reg : s'.confirm_reg = s.confirm_reg
  registered : s'.registered = s.registered
  replies : s'.replies = s.replies

section Registered

variable {s s' : State} {e : Event} {ts : List Thread} {P : Nat → Prop} {i : Nat}

theorem Exited.append (h : Exited ts P i) (ts' : List Thread) : Exited (ts ++ ts') P i := by
  obtain ⟨fd, hi, hfd⟩ := h
  exact ⟨fd, getElem?_append_of_some hi, hfd⟩

/-- A thread that has not exited is another. -/
theorem Exited.ne (h : Exited ts P i) {j : Nat} {t : Thread} (hj : ts[j]? = some t)
    (ht : ∀ fd, t ≠ .exited fd) : j ≠ i := by
  rintro rfl
  obtain ⟨fd, hi, _⟩ := h
  exact ht fd (Option.some.inj (hj.symm.trans hi))

theorem Exited.set (h : Exited ts P i) {j : Nat} {t : Thread} (hj : ts[j]? = some t)
    (ht : ∀ fd, t ≠ .exited fd) (t' : Thread) : Exited (ts.set j t') P i := by
  have hne := h.ne hj ht
  obtain ⟨fd, hi, hfd⟩ := h
  exact ⟨fd, (List.getElem?_set_ne hne).trans hi, hfd⟩

theorem accept_starts {ret : AcceptRet} (h : s.acceptConnectionLoop ret = .ok s') :
    s.Starts s' := by
  have same : s.Starts s := ⟨⟨[], (List.append_nil _).symm⟩, rfl, rfl, rfl⟩
  cases ret with
  | error =>
      rw [State.acceptConnectionLoop] at h
      split at h
      · cases h
        exact ⟨same.threads, rfl, rfl, rfl⟩
      · cases h
        exact same
  | conn c =>
      rw [State.acceptConnectionLoop] at h
      split at h
      · obtain ⟨json, _, hrest⟩ := bind_eq_ok.mp h
        obtain ⟨reg, _, hpure⟩ := bind_eq_ok.mp hrest
        cases hpure
        exact ⟨same.threads, rfl, rfl, rfl⟩
      · cases h
        exact same

theorem confirm_starts {msendlen : Int} (h : s.confirmConnectionLoop msendlen = .ok s') :
    s.Starts s' := by
  have same : s.Starts s := ⟨⟨[], (List.append_nil _).symm⟩, rfl, rfl, rfl⟩
  cases hpc : s.pc with
  | check =>
      simp only [State.confirmConnectionLoop, hpc] at h
      split at h
      · cases h
        exact ⟨same.threads, rfl, rfl, rfl⟩
      · cases h
        exact same
  | read =>
      simp only [State.confirmConnectionLoop, hpc] at h
      obtain ⟨j_client, _, hrest⟩ := bind_eq_ok.mp h
      obtain ⟨client_fd, _, hrest⟩ := bind_eq_ok.mp hrest
      obtain ⟨⟨sent, ret⟩, _, hpure⟩ := bind_eq_ok.mp hrest
      cases hpure
      exact ⟨⟨[.started], rfl⟩, rfl, rfl, rfl⟩
  | mark j_client =>
      simp only [State.confirmConnectionLoop, hpc] at h
      obtain ⟨reg, _, hpure⟩ := bind_eq_ok.mp h
      cases hpure
      exact ⟨same.threads, rfl, rfl, rfl⟩

theorem State.Registered.starts (h : s.Registered) (hs : s.Starts s') : s'.Registered := by
  obtain ⟨ts, hts⟩ := hs.threads
  obtain ⟨js, hjs, hrecords⟩ := h.records
  constructor
  · rw [hs.registered, hts]
    exact fun i hi => (h.exited i hi).append ts
  · rw [hs.registered]
    exact h.once
  · rw [hs.registered, hs.confirm_reg, hts]
    exact ⟨js, hjs, hrecords.imp fun _ _ hi => hi.append ts⟩
  · rw [hs.registered, hs.replies, hts]
    exact h.replies.imp fun _ _ hi => hi.append ts

/-- A thread that does not register moves. -/
theorem State.Registered.set (h : s.Registered) {t : Thread} (hi : s.threads[i]? = some t)
    (ht : ∀ fd, t ≠ .exited fd) (t' : Thread) :
    State.Registered { s with threads := s.threads.set i t' } := by
  obtain ⟨js, hjs, hrecords⟩ := h.records
  exact ⟨fun j hj => (h.exited j hj).set hi ht t', h.once,
    ⟨js, hjs, hrecords.imp fun _ _ hj => hj.set hi ht t'⟩,
    h.replies.imp fun _ _ hj => hj.set hi ht t'⟩

theorem register_registered {input : Input} (h : s.Registered)
    (htemp : EmptyTemp s (.register i input)) (hs : s.registerConnection i input = .ok s') :
    s'.Registered := by
  cases registerConnection_moved hs with
  | idle _ => exact h
  | reads hi _ => exact h.set hi nofun _
  | waits hi _ => exact h.set hi nofun _
  | @registers fd _ _ _ r hi hclient =>
      obtain ⟨js, hjs, hrecords⟩ := h.records
      obtain ⟨⟨w, hbuf⟩, hfd, _⟩ := registrable_of_returns hclient
      obtain ⟨json, hreg, hpairs, hreply⟩ :=
        (registerClient_returns hjs (htemp _ _ _ hi) input.temp_length hbuf hfd).result hclient
      have hset := h.set hi nofun (.exited fd)
      obtain ⟨hlt, _⟩ := List.getElem?_eq_some_iff.mp hi
      have hself : (s.threads.set i (.exited fd))[i]? = some (.exited fd) :=
        List.getElem?_set_self hlt
      have hfinds : Finds (valueOf json sockfdKey) (decimal fd) :=
        (valueOf_returns hpairs (by decide) (lookup_cons_self sockfdKey _ _)).mono
          fun _ hslot => slot_written hslot
      constructor
      · intro j hj
        rcases List.mem_append.mp hj with hj | hj
        · exact hset.exited j hj
        · obtain rfl := List.mem_singleton.mp hj
          exact ⟨fd, hself, trivial⟩
      · apply List.nodup_append.mpr
        refine ⟨h.once, List.nodup_singleton i, fun j hj k hk => ?_⟩
        obtain rfl := List.mem_singleton.mp hk
        exact ((h.exited j hj).ne hi nofun).symm
      · refine ⟨js ++ [json], hreg, List.rel_append ?_ (.cons ⟨fd, hself, hfinds⟩ .nil)⟩
        exact hrecords.imp fun _ _ hj => hj.set hi nofun _
      · refine List.rel_append hset.replies (.cons ⟨fd, hself, ?_⟩ .nil)
        rw [hreply]

theorem run_registered (h : Run Step EmptyTemp .init s) : s.Registered := by
  apply h.invariant
  · exact ⟨fun i hi => absurd hi List.not_mem_nil, List.nodup_nil,
      ⟨[], createRegister_holds, .nil⟩, .nil⟩
  · intro s e s' htemp ih hs
    cases e with
    | accept ret => exact ih.starts (accept_starts hs)
    | confirm msendlen => exact ih.starts (confirm_starts hs)
    | register i input => exact register_registered ih htemp hs

end Registered

/-! ## The clients of the threads -/

section OwnClients

variable {s s₁ s₂ : State} {a : Handoff.State Connection} {i j : Nat}

/-- A descriptor is of one connection. -/
theorem index_unique {cs : List Connection} {c d : Connection}
    (h : (cs.map Connection.fd).Nodup) (hi : cs[i]? = some c) (hj : cs[j]? = some d)
    (heq : c.fd = d.fd) : i = j := by
  obtain ⟨hlt, _⟩ := List.getElem?_eq_some_iff.mp hi
  have hlt' : i < (cs.map Connection.fd).length := by
    rw [List.length_map]
    exact hlt
  apply (List.getElem?_inj hlt' h).mp
  rw [List.getElem?_map, List.getElem?_map, hi, hj]
  exact congrArg some heq

/-- The threads have the descriptors of their clients, if the readers have their own
items. -/
theorem State.Refines.reads_own (h : s.Refines a) (ha : a.Served) : s.ReadsOwn := by
  intro i t client_fd hi ht
  obtain ⟨x, hx, hfd⟩ := h.thread_at hi
  rw [ht] at hfd
  obtain ⟨c, rfl, hc⟩ := Option.map_eq_some_iff.mp hfd.symm
  exact ⟨c, h.accepted ▸ ha i c hx, hc.symm⟩

/-- With different descriptors the converse holds too. -/
theorem State.OwnClients.served (h : s.OwnClients) (hR : s.Refines a) (ha : a.Ordered)
    (hnodup : (a.items.map Connection.fd).Nodup) : a.Served := by
  intro i c hc
  obtain ⟨t, hi, ht⟩ := hR.reader_at hc
  obtain ⟨d, hd, hfd⟩ := h.reads i t _ hi ht
  obtain ⟨j, _, _, hj⟩ := ha.later i c hc
  rw [hR.accepted] at hd
  obtain rfl := index_unique hnodup hd hj (Int.ofNat.inj hfd).symm
  exact hj

/-- What a thread registered, it registered for its client. -/
theorem Exited.own {P : Nat → Prop} (h : Exited s.threads P i) (hreads : s.ReadsOwn) :
    ∃ c, s.accepted[i]? = some c ∧ P c.fd := by
  obtain ⟨fd, hi, hfd⟩ := h
  obtain ⟨c, hc, heq⟩ := hreads i _ _ hi rfl
  exact ⟨c, hc, Int.ofNat.inj heq ▸ hfd⟩

theorem State.Refines.own_clients_of_served (h : s.Refines a) (ha : a.Served)
    (hs : s.Registered) : s.OwnClients := by
  have hreads := h.reads_own ha
  obtain ⟨js, hjs, hrecords⟩ := hs.records
  constructor
  · exact hreads
  · exact hs.once
  · exact ⟨js, hjs, hrecords.imp fun _ _ hi => hi.own hreads⟩
  · exact hs.replies.imp fun _ _ hi => hi.own hreads
  · intro hnodup i j t t' client_fd hi hj ht ht'
    obtain ⟨c, hc, hfd⟩ := hreads i t client_fd hi ht
    obtain ⟨d, hd, hfd'⟩ := hreads j t' client_fd hj ht'
    exact index_unique hnodup hc hd (Int.ofNat.inj (hfd.symm.trans hfd'))

/-- A thread that has still to read when the next is started does not read the
descriptor of its client. -/
theorem late_read_not_own (hR : s.Refines a) (ha : a.Ordered) {msendlen : Int} {input : Input}
    (hpc : s.pc = .read) (hi : s.threads[i]? = some .started)
    (hnodup : (s.accepted.map Connection.fd).Nodup) (hs₁ : Step s (.confirm msendlen) s₁)
    (hs₂ : Step s₁ (.register i input) s₂) : ¬ s₂.OwnClients := by
  intro hown
  obtain ⟨a₁, hstart, hR₁⟩ := (start_refines hR hpc msendlen).result hs₁
  obtain ⟨ts, hts⟩ := (confirm_starts hs₁).threads
  have hi₁ : s₁.threads[i]? = some .started := by
    rw [hts]
    exact getElem?_append_of_some hi
  obtain ⟨x, hx, hnone⟩ := hR.thread_at hi
  obtain rfl : x = none := Option.map_eq_none_iff.mp hnone.symm
  rw [hR.accepted] at hnodup
  -- the thread can only read now
  cases registerConnection_moved hs₂ with
  | idle hexited =>
      obtain ⟨fd, hfd⟩ := hexited _ hi₁
      cases hfd
  | reads _ hcell =>
      obtain ⟨a₂, hread, hR₂⟩ := read_refines hR₁ hi₁ hcell input.buf
      have hitems : a₂.items = a.items := by
        cases hstart
        cases hread
        rfl
      rw [← hitems] at hnodup
      have hserved := hown.served hR₂ (hread.ordered (hstart.ordered ha)) hnodup
      rw [hitems] at hnodup
      exact Handoff.late_read_not_served ha hx hstart hread (.of_map _ hnodup) hserved
  | waits hwaiting _ =>
      rw [hi₁] at hwaiting
      cases hwaiting
  | registers hwaiting _ =>
      rw [hi₁] at hwaiting
      cases hwaiting

/-- In every run in which each thread reads before the next is started, each
thread serves its own client.  A thread that reads after the next was started
does not. -/
theorem own_clients (h : Run Step (fun s e => ReadFirst s e ∧ EmptyTemp s e) .init s) :
    s.OwnClients ∧
    ∀ i msendlen input s₁ s₂, s.pc = .read → s.threads[i]? = some .started →
      (s.accepted.map Connection.fd).Nodup → Step s (.confirm msendlen) s₁ →
      Step s₁ (.register i input) s₂ → ¬ s₂.OwnClients := by
  have hguard : ∀ s a e e', ReadFirst s e ∧ EmptyTemp s e → s.Refines a → s.Allows e e' →
      Handoff.NoneWaiting a e' := by
    rintro s a e e' ⟨hfirst, _⟩ hR hallows
    cases hallows with
    | start hpc => exact fun hwaiting => hfirst hpc (hR.started_of_waiting hwaiting)
    | arrive => trivial
    | mark => trivial
    | read => trivial
  obtain ⟨a, hrun, hR⟩ := run_refines h hguard
  have hregistered := run_registered (h.mono fun _ _ hG => hG.2)
  have hordered := Handoff.run_ordered hrun
  constructor
  · exact hR.own_clients_of_served (Handoff.run_served hrun) hregistered
  · intro i msendlen input s₁ s₂ hpc hi hnodup hs₁ hs₂
    exact late_read_not_own hR hordered hpc hi hnodup hs₁ hs₂

/-! ## Two schedules -/

/-- A registration with a user name, from zeroed memory. -/
def sampleInput : Input :=
  ⟨Block.malloc 100, calloc 100, sampleUuid, .data sampleMessage, Block.length_malloc 100,
    length_calloc 100⟩

/-- The first client is registered before the second is confirmed, whose thread
has still to read when the third is found. -/
def prompt : List Event :=
  [.accept (.conn client5), .accept (.conn client6), .accept (.conn client7), .confirm 62,
    .confirm 62, .register 0 sampleInput, .register 0 sampleInput, .confirm 62, .confirm 62,
    .confirm 62, .confirm 62, .confirm 62]

/-- Two clients are confirmed before the thread of the first has read. -/
def hasty : List Event :=
  [.accept (.conn client5), .accept (.conn client6), .confirm 62, .confirm 62, .confirm 62,
    .confirm 62, .confirm 62, .register 0 sampleInput, .register 1 sampleInput,
    .register 0 sampleInput, .register 1 sampleInput]

theorem sampleInput_temp : CStr sampleInput.temp [] := .of_eq (calloc 99) List.not_mem_nil rfl

instance (s : State) (e : Event) : Decidable (ReadFirst s e) :=
  match e with
  | .accept _ => .isTrue trivial
  | .register _ _ => .isTrue trivial
  | .confirm _ => inferInstanceAs (Decidable (s.pc = .read → .started ∉ s.threads))

/-- One step, if it starts no thread while another has still to read. -/
def stepReadFirst (s : State) (e : Event) : Option State :=
  if ReadFirst s e then (s.step e).toOption else none

theorem own_clients_prompt : ∃ s : State, s.pc = .read ∧ s.threads = [.exited 5, .started] ∧
    s.registered = [0] ∧ s.OwnClients ∧
    ∀ i msendlen input s₁ s₂, s.pc = .read → s.threads[i]? = some .started →
      (s.accepted.map Connection.fd).Nodup → Step s (.confirm msendlen) s₁ →
      Step s₁ (.register i input) s₂ → ¬ s₂.OwnClients := by
  have hview : (replay stepReadFirst prompt .init).map (fun s => (s.pc, s.threads, s.registered)) =
      some (.read, [.exited 5, .started], [0]) := by
    decide +kernel
  have htemp : ∀ e ∈ prompt, ∀ s, EmptyTemp s e := by
    simp [prompt, EmptyTemp, sampleInput_temp]
  have hstep : ∀ e ∈ prompt, ∀ s s', stepReadFirst s e = some s' →
      (ReadFirst s e ∧ EmptyTemp s e) ∧ Step s e s' := by
    intro e he s s' hs
    rw [stepReadFirst] at hs
    split at hs
    · exact ⟨⟨‹_›, htemp e he s⟩, toOption_eq_some hs⟩
    · cases hs
  obtain ⟨s, hrun, hview⟩ := replay_view hstep hview
  simp only [Prod.mk.injEq] at hview
  obtain ⟨hpc, hthreads, hregistered⟩ := hview
  exact ⟨s, hpc, hthreads, hregistered, own_clients hrun⟩

/-- Both threads read the descriptor of the second client.  There are two records
with it and none with the one of the first client. -/
theorem late_reads_share_client : ∃ s : State, Reachable Step .init s ∧
    s.accepted.map Connection.fd = [5, 6] ∧ s.threads = [.exited 6, .exited 6] ∧
    (∃ js, s.confirm_reg.Holds js ∧ js.length = 2 ∧
      ∀ json ∈ js, Finds (valueOf json sockfdKey) (bytes "6")) ∧ ¬ s.OwnClients := by
  have hview : (replay (fun (s : State) e => (s.step e).toOption) hasty .init).map (fun s =>
      (s.accepted.map Connection.fd, s.threads, s.registered)) =
      some ([5, 6], [.exited 6, .exited 6], [0, 1]) := by
    decide +kernel
  have htemp : ∀ e ∈ hasty, ∀ s, EmptyTemp s e := by
    simp [hasty, EmptyTemp, sampleInput_temp]
  have hstep : ∀ e ∈ hasty, ∀ s s', (State.step s e).toOption = some s' →
      EmptyTemp s e ∧ Step s e s' :=
    fun e he s s' hs => ⟨htemp e he s, toOption_eq_some hs⟩
  obtain ⟨s, hrun, hview⟩ := replay_view hstep hview
  simp only [Prod.mk.injEq] at hview
  obtain ⟨haccepted, hthreads, hids⟩ := hview
  obtain ⟨js, hjs, hrecords⟩ := (run_registered hrun).records
  rw [hids, hthreads] at hrecords
  refine ⟨s, hrun.reachable, haccepted, hthreads, ⟨js, hjs, hrecords.length_eq.symm, ?_⟩,
    fun hown => ?_⟩
  · intro json hjson
    obtain ⟨k, hk, rfl⟩ := List.getElem_of_mem hjson
    obtain ⟨fd, hi, hfinds⟩ := hrecords.get (hrecords.length_eq.symm ▸ hk) hk
    have hmem := List.mem_of_getElem? hi
    have hfd : (fd : Int) = 6 := by simpa using hmem
    obtain rfl : fd = 6 := Int.ofNat.inj hfd
    exact hfinds
  · have hnodup : (s.accepted.map Connection.fd).Nodup := by
      rw [haccepted]
      decide
    have hsame := hown.distinct hnodup 0 1 (.exited 6) (.exited 6) 6
    rw [hthreads] at hsame
    exact absurd (hsame rfl rfl rfl rfl) (by decide)

end OwnClients

end TelnetChat.Server
