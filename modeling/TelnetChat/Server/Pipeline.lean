import TelnetChat.Machine.Handoff
import TelnetChat.Server.Threads

/-!
# From `accept` to the confirmation

The accept loop appends to `accept_reg` while the confirm loop rewrites its
records in place.  A state of the threads refines a `Handoff` of connections
(`State.Refines`): a connection arrives with its `addReg`, a reader is started
with its thread, and an item is marked with the write-back of its record.

*Order.*  The clients are sent the confirmation in the order they were accepted,
each once.

*Records.*  A record at or above `c_reg` is as it was accepted.  A record below
`c_reg` has the mark, and the descriptor of its connection.

*Safety.*  No step of the two loops faults, and no lookup exits.

All three hold in every reachable state (`confirmed_in_order`).
-/

namespace TelnetChat.Server

open CRuntime TelnetChat Machine

/-! ## The registry of connections -/

/-- The record of a connection at the index `k`, when those below `marked` are
marked. -/
structure Recorded (marked k : Nat) (c : Connection) (json : Json) : Prop where
  below : k < marked → Pairs json (c.pairs ++ [confirmPair])
  above : marked ≤ k → acceptRecord c.fd (cstr c.ip) = .ok json

/-- The registry holds a record of each connection. -/
structure Records (reg : Registry) (marked : Nat) (cs : List Connection) (js : List Json) :
    Prop where
  holds : reg.Holds js
  length_eq : js.length = cs.length
  marked_le : marked ≤ cs.length
  recorded : ∀ (k : Nat) (c : Connection) (json : Json), cs[k]? = some c → js[k]? = some json →
    Recorded marked k c json

section Records

variable {reg : Registry} {m k : Nat} {cs : List Connection} {js : List Json} {c : Connection}
  {json : Json}

theorem Records.size_eq (h : Records reg m cs js) : reg.size = cs.length :=
  h.holds.size_eq.trans h.length_eq

theorem Records.load (h : Records reg m cs js) (hk : cs[k]? = some c) :
    ∃ json, reg.cells.load k = .ok json ∧ Recorded m k c json := by
  obtain ⟨hlt, _⟩ := List.getElem?_eq_some_iff.mp hk
  have hlt' : k < js.length := h.length_eq.symm ▸ hlt
  exact ⟨js[k], h.holds.load_eq hlt', h.recorded k c _ hk (List.getElem?_eq_getElem hlt')⟩

theorem Records.add (h : Records reg m cs js) (hc : acceptRecord c.fd (cstr c.ip) = .ok json) :
    Returns (addReg reg json) fun reg' => Records reg' m (cs ++ [c]) (js ++ [json]) := by
  apply (addReg_returns h.holds json).mono
  intro reg' hreg'
  constructor
  · exact hreg'
  · rw [List.length_append, List.length_append, h.length_eq]
    rfl
  · rw [List.length_append]
    exact Nat.le_add_right_of_le h.marked_le
  · intro k d j hk hj
    rcases getElem?_append_singleton hk with hk | ⟨rfl, rfl⟩
    · obtain ⟨hlt, _⟩ := List.getElem?_eq_some_iff.mp hk
      rw [List.getElem?_append_left (h.length_eq.symm ▸ hlt)] at hj
      exact h.recorded k d j hk hj
    · rw [← h.length_eq, List.getElem?_concat_length] at hj
      cases hj
      exact ⟨fun hlt => absurd h.marked_le (Nat.not_le.mpr hlt), fun _ => hc⟩

theorem Records.mark (h : Records reg m cs js) (hm : cs[m]? = some c)
    (hc : acceptRecord c.fd (cstr c.ip) = .ok json) :
    Returns (markConfirmed reg m json) fun reg' => ∃ js', Records reg' (m + 1) cs js' := by
  obtain ⟨hlt, _⟩ := List.getElem?_eq_some_iff.mp hm
  apply (markConfirmed_returns h.holds (h.length_eq.symm ▸ hlt)
    ((acceptRecord_returns c).result hc)).mono
  rintro reg' ⟨json', hreg', hjson'⟩
  refine ⟨js.set m json', hreg', List.length_set.trans h.length_eq, hlt, ?_⟩
  intro k d j hk hj
  rcases getElem?_set_of_some hj with ⟨rfl, rfl⟩ | ⟨hne, hj⟩
  · rw [hm, Option.some.injEq] at hk
    exact ⟨fun _ => hk ▸ hjson', fun hle => absurd hle (Nat.not_succ_le_self _)⟩
  · have hold := h.recorded k d j hk hj
    exact ⟨fun hlt => hold.below (by omega), fun hle => hold.above (by omega)⟩

end Records

/-! ## The refinement -/

/-- Where the confirm loop is, by its handoff. -/
inductive ConfirmPc.At (a : Handoff.State Connection) : ConfirmPc → Prop where
  | check : a.readers.length = a.marked → ConfirmPc.At a .check
  | read {c : Connection} : a.readers.length = a.marked → a.items[a.marked]? = some c →
      ConfirmPc.At a .read
  | mark {c : Connection} {j_client : Json} : a.readers.length = a.marked + 1 →
      a.items[a.marked]? = some c → acceptRecord c.fd (cstr c.ip) = .ok j_client →
      ConfirmPc.At a (.mark j_client)

/-- A thread has read the descriptor of the connection its reader was given. -/
structure State.Refines (s : State) (a : Handoff.State Connection) : Prop where
  accepted : s.accepted = a.items
  cursor : s.c_reg = a.marked
  pc : s.pc.At a
  records : ∃ js, Records s.accept_reg a.marked a.items js
  cell : s.client_fd = a.cell.map fun c => (c.fd : Int)
  threads : s.threads.map Thread.client_fd = a.readers.map (Option.map fun c => (c.fd : Int))
  confirmed : s.confirmed = (a.items.take a.readers.length).map Connection.confirmation

/-- The events that a step may make. -/
inductive State.Allows (s : State) : Event → Handoff.Event Connection → Prop where
  | arrive {c : Connection} : s.Allows (.accept (.conn c)) (.arrive c)
  | start {msendlen : Int} : s.pc = .read → s.Allows (.confirm msendlen) .start
  | mark {msendlen : Int} : s.Allows (.confirm msendlen) .mark
  | read {i : Nat} {input : Input} : s.Allows (.register i input) (.read i)

/-- A step to `s'` is answered by events that it may make. -/
def State.Answered (s : State) (a : Handoff.State Connection) (e : Event) (s' : State) : Prop :=
  ∃ a', Run Handoff.Step (fun b e' => b = a ∧ s.Allows e e') a a' ∧ s'.Refines a'

section Refines

variable {s s' : State} {a : Handoff.State Connection} {e : Event} {i : Nat} {input : Input}

theorem init_refines : State.init.Refines .fresh where
  accepted := rfl
  cursor := rfl
  pc := .check rfl
  records := ⟨[], createRegister_holds, rfl, Nat.le_refl 0, fun k c json hk => by cases hk⟩
  cell := rfl
  threads := rfl
  confirmed := rfl

theorem ConfirmPc.At.started_le {pc : ConfirmPc} (h : pc.At a) (hle : a.marked ≤ a.items.length) :
    a.readers.length ≤ a.items.length := by
  cases h with
  | check hready => exact hready ▸ hle
  | read hready _ => exact hready ▸ hle
  | mark hready hc _ =>
      obtain ⟨hlt, _⟩ := List.getElem?_eq_some_iff.mp hc
      exact hready ▸ hlt

/-- A thread is started for an accepted connection. -/
theorem State.Refines.started_le (h : s.Refines a) : a.readers.length ≤ a.items.length := by
  obtain ⟨js, hjs⟩ := h.records
  exact h.pc.started_le hjs.marked_le

/-! ### The accept loop -/

theorem ConfirmPc.At.arrive {pc : ConfirmPc} (h : pc.At a) (c : Connection) :
    pc.At { a with items := a.items ++ [c] } := by
  cases h with
  | check hready => exact .check hready
  | read hready hc => exact .read hready (getElem?_append_of_some hc)
  | mark hready hc hj => exact .mark hready (getElem?_append_of_some hc) hj

theorem accept_refines (h : s.Refines a) (ret : AcceptRet) :
    Returns (s.acceptConnectionLoop ret) (s.Answered a (.accept ret)) := by
  cases ret with
  | error =>
      rw [State.acceptConnectionLoop]
      split
      · exact returns_ok.mpr ⟨a, .init, h.accepted, h.cursor, h.pc, h.records, h.cell, h.threads,
          h.confirmed⟩
      · exact returns_ok.mpr ⟨a, .init, h⟩
  | conn c =>
      rw [State.acceptConnectionLoop]
      split
      · obtain ⟨js, hjs⟩ := h.records
        obtain ⟨json, hc, _⟩ := acceptRecord_returns c
        obtain ⟨reg, hadd, hreg⟩ := hjs.add hc
        rw [hc, ok_bind, hadd, ok_bind, pure_eq_ok, returns_ok]
        refine ⟨_, .single ⟨rfl, .arrive⟩ .arrive, ?_, h.cursor, h.pc.arrive c, ⟨_, hreg⟩, h.cell,
          h.threads, ?_⟩
        · exact congrArg (· ++ [c]) h.accepted
        · rw [List.take_append_of_le_length h.started_le]
          exact h.confirmed
      · exact returns_ok.mpr ⟨a, .init, h⟩

/-! ### The confirm loop -/

/-- A thread is started for the next connection. -/
theorem start_refines (h : s.Refines a) (hpc : s.pc = .read) (msendlen : Int) :
    Returns (s.confirmConnectionLoop msendlen) fun s' =>
      ∃ a', Handoff.Step a .start a' ∧ s'.Refines a' := by
  obtain ⟨js, hjs⟩ := h.records
  have hat := h.pc
  rw [hpc] at hat
  cases hat with
  | @read c hready hc =>
      obtain ⟨json, hload, hrecord⟩ := hjs.load hc
      have haccept := hrecord.above (Nat.le_refl _)
      have hpairs : Pairs json (c.pairs ++ []) := (acceptRecord_returns c).result haccept
      obtain ⟨⟨sent, ret⟩, hsend, hsent⟩ := confirmConSuccessfull_returns c msendlen
      obtain rfl : sent = c.confirmation := hsent
      have hlen : (a.readers ++ [none]).length = a.marked + 1 :=
        List.length_append.trans (congrArg (· + 1) hready)
      simp only [State.confirmConnectionLoop, hpc, h.cursor, hload, ok_bind,
        clientDescriptor_eq hpairs, hsend, pure_eq_ok, returns_ok]
      refine ⟨_, .start hready (hready.symm ▸ hc), h.accepted, rfl, .mark hlen hc haccept,
        h.records, rfl, ?_, ?_⟩
      · rw [List.map_append, List.map_append, h.threads]
        rfl
      · show s.confirmed ++ [c.confirmation] = (a.items.take (a.readers ++ [none]).length).map _
        rw [hlen, List.take_add_one, hc, List.map_append, h.confirmed, hready]
        rfl

theorem confirm_refines (h : s.Refines a) (msendlen : Int) :
    Returns (s.confirmConnectionLoop msendlen) (s.Answered a (.confirm msendlen)) := by
  cases hpc : s.pc with
  | read =>
      apply (start_refines h hpc msendlen).mono
      rintro s' ⟨a', hstart, hR⟩
      exact ⟨a', .single ⟨rfl, .start hpc⟩ hstart, hR⟩
  | check =>
      obtain ⟨js, hjs⟩ := h.records
      have hat := h.pc
      rw [hpc] at hat
      simp only [State.confirmConnectionLoop, hpc]
      split
      · rename_i hlt
        rw [h.cursor, hjs.size_eq] at hlt
        cases hat with
        | check hready =>
            exact returns_ok.mpr ⟨a, .init, h.accepted, h.cursor,
              .read hready (List.getElem?_eq_getElem hlt), h.records, h.cell, h.threads,
              h.confirmed⟩
      · exact returns_ok.mpr ⟨a, .init, h⟩
  | mark j_client =>
      obtain ⟨js, hjs⟩ := h.records
      have hat := h.pc
      rw [hpc] at hat
      cases hat with
      | mark hready hc hj =>
          obtain ⟨reg, hmark, hreg⟩ := hjs.mark hc hj
          simp only [State.confirmConnectionLoop, hpc, h.cursor, hmark, ok_bind, pure_eq_ok,
            returns_ok]
          exact ⟨_, .single ⟨rfl, .mark⟩ (.mark hready), h.accepted, rfl, .check hready, hreg,
            h.cell, h.threads, h.confirmed⟩

/-! ### The registration threads -/

theorem ConfirmPc.At.read_reader {pc : ConfirmPc} (h : pc.At a) (i : Nat) (x : Option Connection) :
    pc.At { a with readers := a.readers.set i x } := by
  have hlen : (a.readers.set i x).length = a.readers.length := List.length_set
  cases h with
  | check hready => exact .check (hlen.trans hready)
  | read hready hc => exact .read (hlen.trans hready) hc
  | mark hready hc hj => exact .mark (hlen.trans hready) hc hj

/-- What a thread has read, by its reader. -/
theorem State.Refines.thread_at (h : s.Refines a) {t : Thread} (hi : s.threads[i]? = some t) :
    ∃ x, a.readers[i]? = some x ∧ t.client_fd = x.map fun c => (c.fd : Int) := by
  have hget : (s.threads.map Thread.client_fd)[i]? = some t.client_fd := by
    rw [List.getElem?_map, hi]
    rfl
  rw [h.threads, List.getElem?_map] at hget
  obtain ⟨x, hx, heq⟩ := Option.map_eq_some_iff.mp hget
  exact ⟨x, hx, heq.symm⟩

theorem State.Refines.reader_at (h : s.Refines a) {x : Option Connection}
    (hi : a.readers[i]? = some x) :
    ∃ t, s.threads[i]? = some t ∧ t.client_fd = x.map fun c => (c.fd : Int) := by
  have hget : (s.threads.map Thread.client_fd)[i]? = some (x.map fun c => (c.fd : Int)) := by
    rw [h.threads, List.getElem?_map, hi]
    rfl
  rw [List.getElem?_map] at hget
  exact Option.map_eq_some_iff.mp hget

/-- A reader that waits is a thread that has still to read. -/
theorem State.Refines.started_of_waiting (h : s.Refines a) (hwaiting : none ∈ a.readers) :
    .started ∈ s.threads := by
  obtain ⟨i, hi⟩ := List.getElem?_of_mem hwaiting
  obtain ⟨t, ht, hfd⟩ := h.reader_at hi
  cases t with
  | started => exact List.mem_of_getElem? ht
  | waiting => cases hfd
  | exited => cases hfd

/-- A thread reads what the last iteration left. -/
theorem read_refines (h : s.Refines a) {client_fd : Int} (hi : s.threads[i]? = some .started)
    (hcell : s.client_fd = some client_fd) (buf : Block Byte) :
    ∃ a', Handoff.Step a (.read i) a' ∧
      State.Refines { s with threads := s.threads.set i (.waiting client_fd 0 buf) } a' := by
  obtain ⟨x, hx, hfd⟩ := h.thread_at hi
  obtain rfl : x = none := Option.map_eq_none_iff.mp hfd.symm
  rw [h.cell] at hcell
  obtain ⟨c, hc, rfl⟩ := Option.map_eq_some_iff.mp hcell
  refine ⟨_, .read hx hc, h.accepted, h.cursor, h.pc.read_reader i _, h.records, h.cell, ?_, ?_⟩
  · rw [List.map_set, List.map_set, h.threads]
    rfl
  · rw [List.length_set]
    exact h.confirmed

theorem register_refines (h : s.Refines a) (hs : s.registerConnection i input = .ok s') :
    s.Answered a (.register i input) s' := by
  cases registerConnection_moved hs with
  | idle _ => exact ⟨a, .init, h⟩
  | @reads client_fd hi hcell =>
      obtain ⟨a', hread, hR⟩ := read_refines h hi hcell input.buf
      exact ⟨a', .single ⟨rfl, .read⟩ hread, hR⟩
  | waits hi ht =>
      exact ⟨a, .init, h.accepted, h.cursor, h.pc, h.records, h.cell,
        (map_set_of_eq hi ht).trans h.threads, h.confirmed⟩
  | @registers client_fd _ _ _ _ hi hclient =>
      have hsame : (s.threads.set i (.exited client_fd)).map Thread.client_fd =
          s.threads.map Thread.client_fd := map_set_of_eq hi rfl
      exact ⟨a, .init, h.accepted, h.cursor, h.pc, h.records, h.cell, hsame.trans h.threads,
        h.confirmed⟩

/-! ### Runs -/

theorem step_refines (h : s.Refines a) (hs : Step s e s') : s.Answered a e s' := by
  cases e with
  | accept ret => exact (accept_refines h ret).result hs
  | confirm msendlen => exact (confirm_refines h msendlen).result hs
  | register i input => exact register_refines h hs

/-- A guarded run of the threads is answered by a guarded run of the handoff. -/
theorem run_refines {G : State → Event → Prop}
    {H : Handoff.State Connection → Handoff.Event Connection → Prop} (h : Run Step G .init s)
    (hG : ∀ s a e e', G s e → s.Refines a → s.Allows e e' → H a e') :
    ∃ a, Run Handoff.Step H .fresh a ∧ s.Refines a := by
  apply h.simulate (R := State.Refines) init_refines
  intro s e s' a he hR hs
  obtain ⟨a', hrun, hR'⟩ := step_refines hR hs
  refine ⟨a', hrun.mono ?_, hR'⟩
  rintro b e' ⟨rfl, hallows⟩
  exact hG s b e e' he hR hallows

/-! ## What is confirmed -/

/-- What the loops have made of the accepted connections. -/
structure State.Confirmed (s : State) : Prop where
  /-- The confirmations, by the descriptors read from the records, are those of the
  first connections. -/
  in_order : s.confirmed = (s.accepted.take s.confirmed.length).map Connection.confirmation
  /-- The confirmed connections are those below `c_reg`, and at most one more. -/
  cursor : s.c_reg ≤ s.confirmed.length ∧ s.confirmed.length ≤ s.c_reg + 1 ∧
    s.confirmed.length ≤ s.accepted.length
  once : (s.accepted.map Connection.fd).Nodup → (s.confirmed.map Outgoing.client_fd).Nodup
  size_eq : s.accept_reg.size = s.accepted.length
  below : ∀ k < s.c_reg, ∃ c json, s.accepted[k]? = some c ∧
    s.accept_reg.cells.load k = .ok json ∧ Finds (valueOf json confirmKey) (bytes "true") ∧
    Finds (valueOf json sockfdKey) (decimal c.fd)
  above : ∀ k, s.c_reg ≤ k → k < s.accept_reg.size → ∃ c json, s.accepted[k]? = some c ∧
    s.accept_reg.cells.load k = .ok json ∧ acceptRecord c.fd (cstr c.ip) = .ok json
  accepts : ∀ ret, ∃ s', Step s (.accept ret) s'
  confirms : ∀ msendlen, ∃ s', Step s (.confirm msendlen) s'

/-- Connections with different descriptors are sent to different descriptors. -/
theorem confirmations_nodup {cs : List Connection} (h : (cs.map Connection.fd).Nodup) (n : Nat) :
    (((cs.take n).map Connection.confirmation).map Outgoing.client_fd).Nodup := by
  have hsub : ((cs.take n).map Connection.fd).Sublist (cs.map Connection.fd) :=
    (List.take_sublist n cs).map _
  have hcast := (h.sublist hsub).map (f := fun fd : Nat => (fd : Int)) fun _ _ => Int.ofNat.inj
  rw [List.map_map] at hcast ⊢
  exact hcast

theorem State.Refines.confirms (h : s.Refines a) (ha : a.Ordered) : s.Confirmed := by
  obtain ⟨js, hjs⟩ := h.records
  have hlen : s.confirmed.length = a.readers.length := by
    rw [h.confirmed, List.length_map, List.length_take, Nat.min_eq_left h.started_le]
  have hin : s.confirmed = (s.accepted.take s.confirmed.length).map Connection.confirmation := by
    rw [hlen, h.accepted]
    exact h.confirmed
  constructor
  · exact hin
  · rw [hlen, h.cursor, h.accepted]
    exact ⟨ha.marked_le, ha.le_marked, h.started_le⟩
  · intro hnodup
    rw [hin]
    exact confirmations_nodup hnodup _
  · rw [h.accepted]
    exact hjs.size_eq
  · intro k hk
    rw [h.cursor] at hk
    obtain ⟨c, hc⟩ : ∃ c, a.items[k]? = some c :=
      ⟨_, List.getElem?_eq_getElem (Nat.lt_of_lt_of_le hk hjs.marked_le)⟩
    obtain ⟨json, hload, hrecord⟩ := hjs.load hc
    have hpairs := hrecord.below hk
    rw [← h.accepted] at hc
    exact ⟨c, json, hc, hload, finds_confirm hpairs, finds_sockfd hpairs⟩
  · intro k hk hlt
    rw [h.cursor] at hk
    rw [hjs.size_eq] at hlt
    obtain ⟨c, hc⟩ : ∃ c, a.items[k]? = some c := ⟨_, List.getElem?_eq_getElem hlt⟩
    obtain ⟨json, hload, hrecord⟩ := hjs.load hc
    rw [← h.accepted] at hc
    exact ⟨c, json, hc, hload, hrecord.above hk⟩
  · intro ret
    obtain ⟨s', hs', _⟩ := accept_refines h ret
    exact ⟨s', hs'⟩
  · intro msendlen
    obtain ⟨s', hs', _⟩ := confirm_refines h msendlen
    exact ⟨s', hs'⟩

/-- In every reachable state the clients were confirmed in the order they were
accepted, each once, the records below `c_reg` are marked and keep their
descriptor, the others are as they were accepted, and the two loops do not
fault. -/
theorem confirmed_in_order (h : Reachable Step .init s) : s.Confirmed := by
  obtain ⟨a, hrun, hR⟩ := run_refines (H := fun _ _ => True) h fun _ _ _ _ _ _ _ => trivial
  exact hR.confirms (Handoff.run_ordered hrun)

/-- A connection from the local host. -/
def localConnection (fd : Fin 8) : Connection :=
  ⟨fd, bytes "127.0.0.1", Nat.lt_trans fd.isLt (by decide), by decide, by decide⟩

def client5 : Connection := localConnection 5

def client6 : Connection := localConnection 6

def client7 : Connection := localConnection 7

/-- Two connections are accepted, and the first is confirmed. -/
def arrivals : List Event :=
  [.accept (.conn client5), .confirm 62, .confirm 62, .accept (.conn client6), .confirm 62]

theorem confirmed_in_order_first : ∃ s : State, s.accepted.map Connection.fd = [5, 6] ∧ s.c_reg = 1 ∧
    s.confirmed.map Outgoing.client_fd = [5] ∧ s.Confirmed := by
  have hview : (replay (fun (s : State) e => (s.step e).toOption) arrivals .init).map (fun s =>
      (s.accepted.map Connection.fd, s.c_reg, s.confirmed.map Outgoing.client_fd)) =
      some ([5, 6], 1, [5]) := by
    decide +kernel
  have hstep : ∀ e ∈ arrivals, ∀ s s', (State.step s e).toOption = some s' → True ∧ Step s e s' :=
    fun e _ s s' hs => ⟨trivial, toOption_eq_some hs⟩
  obtain ⟨s, hrun, hview⟩ := replay_view hstep hview
  simp only [Prod.mk.injEq] at hview
  obtain ⟨haccepted, hcursor, hconfirmed⟩ := hview
  exact ⟨s, haccepted, hcursor, hconfirmed, confirmed_in_order hrun⟩

end Refines

end TelnetChat.Server
