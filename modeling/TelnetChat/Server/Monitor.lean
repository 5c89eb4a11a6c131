import TelnetChat.RegistryPrint
import TelnetChat.Server.Progress

/-!
# What `main` prints

After it has started the two loops, `main` prints `accept_reg` and `confirm_reg`
again and again, with no mutex, between the steps of the threads.  Those are the steps
of `Threads.lean`: a call of `addReg`, with its growth, and a write-back of a record are
one step each.  What `main` reads while one of them is under way is not described.

*The accepted connections.*  Printing `accept_reg` never faults.  A list that is
finished has at least the records and pairs that were there when it was begun, and
at most those that are there at its end (`accept_listing`).

*The registrations.*  If `temp` starts as an empty string, the same holds of `confirm_reg`
as long as every client sent a separator and another byte.  The first record of another client ends the process when
the list comes to it, and `confirm_reg` cannot be printed from then on
(`confirm_listing`).
-/

namespace TelnetChat.Server

open CRuntime TelnetChat Machine Snapshot

/-! ## The table of `accept_reg` -/

/-- The pairs of the accepted connections, with the mark below `c_reg`. -/
def State.shown (s : State) : List (List Pair) :=
  s.accepted.mapIdx fun k c => if k < s.c_reg then c.pairs ++ [confirmPair] else c.pairs

section Shown

variable {s s' : State} {e : Event} {a : Handoff.State Connection}

theorem State.shown_get (s : State) (i : Nat) : s.shown[i]? = (s.accepted[i]?).map fun c =>
    if i < s.c_reg then c.pairs ++ [confirmPair] else c.pairs :=
  List.getElem?_mapIdx

theorem Recorded.pairs {k m : Nat} {c : Connection} {json : Json} (h : Recorded m k c json) :
    Pairs json (if k < m then c.pairs ++ [confirmPair] else c.pairs) := by
  split
  · exact h.below ‹_›
  · exact (acceptRecord_returns c).result (h.above (Nat.le_of_not_lt ‹_›))

/-- `accept_reg` stores the table. -/
theorem State.Refines.shows (h : s.Refines a) : Shows s.accept_reg s.shown := by
  obtain ⟨js, hjs⟩ := h.records
  have hlen : js.length = s.shown.length := by
    rw [hjs.length_eq, ← h.accepted]
    exact List.length_mapIdx.symm
  refine ⟨js, hjs.holds, List.forall₂_iff_get.mpr ⟨hlen, fun i hi hi' => ?_⟩⟩
  have hlt : i < s.accepted.length := by
    rw [h.accepted, ← hjs.length_eq]
    exact hi
  have hc : a.items[i]? = some s.accepted[i] := by
    rw [← h.accepted]
    exact List.getElem?_eq_getElem hlt
  have hrecord := hjs.recorded i _ js[i] hc (List.getElem?_eq_getElem hi)
  have hget : s.shown[i] =
      if i < a.marked then s.accepted[i].pairs ++ [confirmPair] else s.accepted[i].pairs := by
    rw [← h.cursor]
    exact List.getElem_mapIdx
  rw [List.get_eq_getElem, List.get_eq_getElem, hget]
  exact hrecord.pairs

theorem step_c_reg (hs : Step s e s') : s.c_reg ≤ s'.c_reg := by
  cases e with
  | accept ret =>
      cases accept_turn hs with
      | fails _ => exact Nat.le_refl _
      | stores _ _ _ => exact Nat.le_refl _
      | ended _ => exact Nat.le_refl _
  | confirm msendlen =>
      cases confirm_turn hs with
      | sleeps _ => exact Nat.le_refl _
      | finds _ _ => exact Nat.le_refl _
      | starts _ _ => exact Nat.le_refl _
      | marks _ _ => exact Nat.le_succ _
  | register i input =>
      cases registerConnection_moved hs with
      | idle _ => exact Nat.le_refl _
      | reads _ _ => exact Nat.le_refl _
      | waits _ _ => exact Nat.le_refl _
      | registers _ _ => exact Nat.le_refl _

/-- Each step adds rows, or pairs to them. -/
theorem step_shown (hs : Step s e s') : Grows s.shown s'.shown := by
  intro i row hrow
  rw [s.shown_get] at hrow
  obtain ⟨c, hc, rfl⟩ := Option.map_eq_some_iff.mp hrow
  obtain ⟨rest, hrest⟩ := step_accepted hs
  have hc' : s'.accepted[i]? = some c := by
    rw [← hrest]
    exact getElem?_append_of_some hc
  refine ⟨_, (s'.shown_get i).trans (congrArg _ hc'), ?_⟩
  have hle := step_c_reg hs
  by_cases hlt : i < s.c_reg
  · simp [hlt, Nat.lt_of_lt_of_le hlt hle]
  · rw [if_neg hlt]
    split
    · exact List.prefix_append _ _
    · exact List.prefix_refl _

end Shown

/-! ## What is registered -/

/-- A registration: the descriptor, the uuid, and the text in the buffer. -/
structure Registration where
  client_fd : Nat
  uuid : Uuid
  text : List Byte

def Registration.pairs (r : Registration) : List Pair :=
  registrationPairs r.client_fd r.uuid r.text

/-- The text has a separator and another byte. -/
def Keyed (w : List Byte) : Prop := colon ∈ w ∧ 2 ≤ w.length

/-- The bytes of a buffer before its first NUL. -/
def bufferText (buf : Block Byte) : List Byte := (buf.takeWhile (· ≠ some 0)).reduceOption

/-- The buffer of a registration thread after its `recv`. -/
def received (buf : Block Byte) (ret : RecvRet) : Block Byte :=
  match recvInto buf ret with
  | .ok buf' => buf'
  | .error _ => buf

/-- What the thread `i` registers in the step, if its `recv` does not return `-1`. -/
def State.registration (s : State) (i : Nat) (input : Input) : Option Registration :=
  match s.threads[i]? with
  | some (.waiting client_fd c_ter buf) =>
      if c_ter < 10 ∧ (recvOn client_fd input.ret).answers = true then
        some ⟨client_fd.toNat, input.uuid, bufferText (received buf (recvOn client_fd input.ret))⟩
      else none
  | _ => none

def State.registrations (s : State) : Event → List Registration
  | .register i input => (s.registration i input).toList
  | _ => []

section Registrations

variable {s s' : State} {e : Event} {w : List Byte} {buf : Block Byte} {rs : List Registration}

theorem bufferText_eq (h : CStr buf w) : bufferText buf = w := by
  obtain ⟨rest, rfl⟩ := h.exists_rest
  have hbytes : ∀ b ∈ w.map some, (b ≠ some 0) = true := by
    intro b hb
    obtain ⟨x, hx, rfl⟩ := List.mem_map.mp hb
    simpa using fun hzero : x = 0 => h.nul_free (hzero ▸ hx)
  rw [bufferText, List.takeWhile_append_of_pos (by simpa using hbytes)]
  show List.filterMap id (w.map some ++ _) = w
  simp

theorem fields_written_iff (w : List Byte) : PairWritten (fields w) ↔ Keyed w := by
  rw [Keyed, ← two_le_length_segments_iff]
  simp only [PairWritten, fields, isSome_getElem?]
  omega

/-- All slots of a registration are written exactly when its text is keyed. -/
theorem Registration.written_iff (r : Registration) :
    (∀ q ∈ r.pairs, PairWritten q) ↔ Keyed r.text := by
  rw [← fields_written_iff]
  simp [Registration.pairs, registrationPairs, PairWritten]

/-- An attempt that registers does so with the buffer after its `recv`. -/
theorem registerAttempt_received {confirm_reg : Registry} {fd : Nat} {uuid : Uuid}
    {temp : Block Byte} {ret : RecvRet} {r : Registry × List Byte}
    (h : registerAttempt confirm_reg fd uuid temp buf ret = .ok (some r)) :
    registerClient confirm_reg fd uuid temp (received buf ret) = .ok r := by
  cases ret with
  | error => cases h
  | closed =>
      obtain ⟨r', hclient, hpure⟩ := bind_eq_ok.mp h
      cases hpure
      exact hclient
  | data msg =>
      obtain ⟨buf', hrecv, hrest⟩ := bind_eq_ok.mp h
      obtain ⟨r', hclient, hpure⟩ := bind_eq_ok.mp hrest
      cases hpure
      rw [received, hrecv]
      exact hclient

/-- What a registration stores. -/
theorem registerClient_shows {reg : Registry} {fd : Nat} {uuid : Uuid} {temp : Block Byte}
    {r : Registry × List Byte} (hreg : Shows reg (rs.map Registration.pairs))
    (htemp : CStr temp []) (hsize : temp.length = 100)
    (h : registerClient reg fd uuid temp buf = .ok r) :
    Shows r.1 ((rs ++ [Registration.mk fd uuid (bufferText buf)]).map Registration.pairs) := by
  obtain ⟨js, hjs, hrows⟩ := hreg
  obtain ⟨⟨w, hbuf⟩, hfd, _⟩ := registrable_of_returns h
  obtain ⟨json, hholds, hpairs, _⟩ := (registerClient_returns hjs htemp hsize hbuf hfd).result h
  rw [List.map_append, bufferText_eq hbuf]
  exact ⟨js ++ [json], hholds, List.rel_append hrows (.cons hpairs .nil)⟩

/-- The step of a thread stores what it registers. -/
theorem register_shows {i : Nat} {input : Input} (htemp : EmptyTemp s (.register i input))
    (hreg : Shows s.confirm_reg (rs.map Registration.pairs)) (hs : Step s (.register i input) s') :
    Shows s'.confirm_reg ((rs ++ s.registrations (.register i input)).map Registration.pairs) := by
  simp only [Step, State.step, State.registerConnection] at hs
  rw [State.registrations, State.registration]
  cases hi : s.threads[i]? with
  | none =>
      simp only [hi] at hs
      cases hs
      simpa using hreg
  | some t =>
      simp only [hi] at hs
      cases t with
      | started =>
          obtain ⟨client_fd, _, hpure⟩ := bind_eq_ok.mp hs
          cases hpure
          simpa using hreg
      | exited client_fd =>
          cases hs
          simpa using hreg
      | waiting client_fd c_ter buf =>
          simp only at hs ⊢
          by_cases hten : c_ter < 10
          · rw [if_pos hten] at hs
            obtain ⟨r, hattempt, hpure⟩ := bind_eq_ok.mp hs
            rw [← registerAttempt_isSome hattempt]
            cases r with
            | none =>
                cases hpure
                simpa using hreg
            | some r =>
                cases hpure
                rw [if_pos ⟨hten, rfl⟩]
                exact registerClient_shows hreg (htemp _ _ _ hi) input.temp_length
                  (registerAttempt_received hattempt)
          · rw [if_neg hten] at hs
            cases hs
            rw [if_neg fun h => hten h.1]
            simpa using hreg

/-- `confirm_reg` stores the registrations. -/
theorem step_shows (htemp : EmptyTemp s e) (hreg : Shows s.confirm_reg (rs.map Registration.pairs))
    (hs : Step s e s') :
    Shows s'.confirm_reg ((rs ++ s.registrations e).map Registration.pairs) := by
  cases e with
  | accept ret =>
      rw [(accept_starts hs).confirm_reg]
      simpa [State.registrations] using hreg
  | confirm msendlen =>
      rw [(confirm_starts hs).confirm_reg]
      simpa [State.registrations] using hreg
  | register i input => exact register_shows htemp hreg hs

end Registrations

/-! ## The loop of `main` -/

/-- Where the loop of `main` is. -/
inductive MainPc where
  | accept (p : Printer)
  | confirm (p : Printer)

/-- The threads and the loop of `main`.  The last two fields are the history. -/
structure Process where
  threads : State
  main : MainPc
  registrations : List Registration
  /-- The table that is printed, as it was when the list was begun. -/
  since : List (List Pair)

def Process.init : Process := ⟨.init, .accept .fresh, [], []⟩

/-- `main` runs to its next access to a registry. -/
def Process.mainStep (m : Process) : Exec Process :=
  match m.main with
  | .accept p =>
      if p.pc = .done then
        pure { m with main := .confirm .fresh, since := m.registrations.map Registration.pairs }
      else do
        let p ← p.step m.threads.accept_reg
        pure { m with main := .accept p }
  | .confirm p =>
      if p.pc = .done then pure { m with main := .accept .fresh, since := m.threads.shown }
      else do
        let p ← p.step m.threads.confirm_reg
        pure { m with main := .confirm p }

inductive ProcessEvent where
  | thread (e : Event)
  | main

def Process.step (m : Process) : ProcessEvent → Exec Process
  | .thread e => do
      let threads ← m.threads.step e
      pure { m with
        threads := threads
        registrations := m.registrations ++ m.threads.registrations e }
  | .main => m.mainStep

def ProcessStep (m : Process) (e : ProcessEvent) (m' : Process) : Prop := m.step e = .ok m'

/-- The memory that a registration of the process starts with is an empty string. -/
def ProcessEmptyTemp (m : Process) : ProcessEvent → Prop
  | .thread e => EmptyTemp m.threads e
  | .main => True

/-- The steps of `main`. -/
inductive Process.MainTurn (m : Process) : Process → Prop where
  | accept {p p' : Printer} : m.main = .accept p → p.pc ≠ .done →
      p.step m.threads.accept_reg = .ok p' → m.MainTurn { m with main := .accept p' }
  | accepted {p : Printer} : m.main = .accept p → p.pc = .done → m.MainTurn
      { m with main := .confirm .fresh, since := m.registrations.map Registration.pairs }
  | confirm {p p' : Printer} : m.main = .confirm p → p.pc ≠ .done →
      p.step m.threads.confirm_reg = .ok p' → m.MainTurn { m with main := .confirm p' }
  | confirmed {p : Printer} : m.main = .confirm p → p.pc = .done → m.MainTurn
      { m with main := .accept .fresh, since := m.threads.shown }

/-- Printing `accept_reg` goes on, and a list that is finished lies between the table at
its start and the table as it is. -/
structure Process.AcceptListing (m : Process) (p : Printer) : Prop where
  shows : Shows m.threads.accept_reg m.threads.shown
  steps : ∃ m', ProcessStep m .main m'
  listed : p.pc = .done → ∃ rows, p.out = tableText rows ∧ Grows m.since rows ∧
    Grows rows m.threads.shown

/-- What printing `confirm_reg` comes to. -/
structure Process.ConfirmListing (m : Process) : Prop where
  shows : Shows m.threads.confirm_reg (m.registrations.map Registration.pairs)
  printed_iff : (∃ out, printReg m.threads.confirm_reg = .ok out) ↔
    ∀ r ∈ m.registrations, Keyed r.text
  /-- `main` faults exactly at the line of what a client sent. -/
  faults_iff : m.step .main = .error .undefined ↔ ∃ p i r, m.main = .confirm p ∧
    p.pc = .line i 1 ∧ m.registrations[i]? = some r ∧ ¬ Keyed r.text
  steps : m.step .main ≠ .error .undefined → ∃ m', ProcessStep m .main m'
  listed : ∀ p, m.main = .confirm p → p.pc = .done → ∃ rows, p.out = tableText rows ∧
    Grows m.since rows ∧ Grows rows (m.registrations.map Registration.pairs) ∧
    ∀ ps ∈ rows, ∀ q ∈ ps, PairWritten q

section Process

variable {m m' : Process} {e : ProcessEvent} {G : Process → ProcessEvent → Prop} {p : Printer}

theorem main_turn (hs : ProcessStep m .main m') : m.MainTurn m' := by
  simp only [ProcessStep, Process.step, Process.mainStep] at hs
  cases hmain : m.main with
  | accept p =>
      simp only [hmain] at hs
      split at hs
      · cases hs
        exact .accepted hmain ‹_›
      · obtain ⟨p', hp', hpure⟩ := bind_eq_ok.mp hs
        cases hpure
        exact .accept hmain ‹_› hp'
  | confirm p =>
      simp only [hmain] at hs
      split at hs
      · cases hs
        exact .confirmed hmain ‹_›
      · obtain ⟨p', hp', hpure⟩ := bind_eq_ok.mp hs
        cases hpure
        exact .confirm hmain ‹_› hp'

theorem Process.MainTurn.threads_eq (h : m.MainTurn m') :
    m'.threads = m.threads ∧ m'.registrations = m.registrations := by
  cases h with
  | accept _ _ _ => exact ⟨rfl, rfl⟩
  | accepted _ _ => exact ⟨rfl, rfl⟩
  | confirm _ _ _ => exact ⟨rfl, rfl⟩
  | confirmed _ _ => exact ⟨rfl, rfl⟩

theorem process_threads (h : Run ProcessStep G .init m) : Reachable Step .init m.threads := by
  apply h.invariant (I := fun m => Reachable Step .init m.threads) .init
  intro m e m' _ hm hs
  cases e with
  | thread e =>
      obtain ⟨threads, hthreads, hpure⟩ := bind_eq_ok.mp hs
      cases hpure
      exact hm.step trivial hthreads
  | main =>
      rw [(main_turn hs).threads_eq.1]
      exact hm

theorem accept_shows (h : Reachable Step .init m.threads) :
    Shows m.threads.accept_reg m.threads.shown := by
  obtain ⟨a, _, hR⟩ := run_refines (H := fun _ _ => True) h fun _ _ _ _ _ _ _ => trivial
  exact hR.shows

/-! ### The accepted connections -/

/-- Every slot of the table of `accept_reg` is written. -/
theorem shown_written (s : State) : ∀ ps ∈ s.shown, ∀ q ∈ ps, PairWritten q := by
  intro ps hps
  obtain ⟨i, hi⟩ := List.getElem?_of_mem hps
  rw [s.shown_get] at hi
  obtain ⟨c, _, rfl⟩ := Option.map_eq_some_iff.mp hi
  split
  · simp [Connection.pairs, confirmPair, PairWritten]
  · simp [Connection.pairs, PairWritten]

theorem clear_of_written {t : List (List Pair)} (h : ∀ ps ∈ t, ∀ q ∈ ps, PairWritten q)
    (p : Printer) : p.Clear t :=
  fun _ _ row q _ hrow hq => h row (List.mem_of_getElem? hrow) q (List.mem_of_getElem? hq)

theorem process_accepts (h : Run ProcessStep G .init m) (hp : m.main = .accept p) :
    p.Lists m.since m.threads.shown := by
  have hI := h.invariant (I := fun m => Reachable Step .init m.threads ∧
    ∀ p, m.main = .accept p → p.Lists m.since m.threads.shown) ?_ ?_
  · exact hI.2 p hp
  · refine ⟨.init, ?_⟩
    rintro p ⟨⟩
    exact Printer.lists_fresh []
  · rintro m e m' _ ⟨hreach, hlists⟩ hs
    cases e with
    | thread e =>
        obtain ⟨threads, hthreads, hpure⟩ := bind_eq_ok.mp hs
        cases hpure
        exact ⟨hreach.step trivial hthreads,
          fun p hp => (hlists p hp).grow (step_shown hthreads)⟩
    | main =>
        cases main_turn hs with
        | accept hmain _ hp' =>
            refine ⟨hreach, ?_⟩
            rintro p ⟨⟩
            exact ((hlists _ hmain).step (accept_shows hreach)
              (clear_of_written (shown_written _) _)).result hp'
        | accepted _ _ => exact ⟨hreach, nofun⟩
        | confirm _ _ _ => exact ⟨hreach, nofun⟩
        | confirmed _ _ =>
            refine ⟨hreach, ?_⟩
            rintro p ⟨⟩
            exact Printer.lists_fresh _

/-- Whatever the threads do meanwhile, `main` prints `accept_reg` without a fault.  The
list has what was there when it was begun, and nothing that is not there at its
end. -/
theorem accept_listing (h : Reachable ProcessStep .init m) (hp : m.main = .accept p) :
    m.AcceptListing p := by
  have hshows := accept_shows (process_threads h)
  have hlists := process_accepts h hp
  constructor
  · exact hshows
  · simp only [ProcessStep, Process.step, Process.mainStep, hp]
    split
    · exact ⟨_, rfl⟩
    · obtain ⟨p', hp', _⟩ := hlists.step hshows (clear_of_written (shown_written _) p)
      rw [hp', ok_bind]
      exact ⟨_, rfl⟩
  · intro hdone
    obtain ⟨rows, hout, hle, hge, _⟩ := hlists.done_rows hdone
    exact ⟨rows, hout, hle, hge⟩

/-! ### The registrations -/

/-- The registrations and the list of them. -/
structure Process.Registers (m : Process) : Prop where
  shows : Shows m.threads.confirm_reg (m.registrations.map Registration.pairs)
  lists : ∀ p, m.main = .confirm p →
    p.Lists m.since (m.registrations.map Registration.pairs)

theorem process_registers (h : Run ProcessStep ProcessEmptyTemp .init m) : m.Registers := by
  apply h.invariant (I := Process.Registers)
  · exact ⟨⟨[], createRegister_holds, .nil⟩, nofun⟩
  · intro m e m' htemp hI hs
    cases e with
    | thread e =>
        obtain ⟨threads, hthreads, hpure⟩ := bind_eq_ok.mp hs
        cases hpure
        refine ⟨step_shows htemp hI.shows hthreads, fun p hp => (hI.lists p hp).grow ?_⟩
        simp only [List.map_append]
        exact .append _ _
    | main =>
        cases main_turn hs with
        | accept _ _ _ => exact ⟨hI.shows, nofun⟩
        | accepted _ _ =>
            refine ⟨hI.shows, ?_⟩
            rintro p ⟨⟩
            exact Printer.lists_fresh _
        | @confirm p p' hmain _ hp' =>
            refine ⟨hI.shows, ?_⟩
            rintro _ ⟨⟩
            by_cases hclear : p.Clear (m.registrations.map Registration.pairs)
            · exact ((hI.lists _ hmain).step hI.shows hclear).result hp'
            · rw [Printer.step_unwritten hI.shows hclear] at hp'
              cases hp'
        | confirmed _ _ => exact ⟨hI.shows, nofun⟩

/-- Only what the client sent may be unwritten. -/
theorem Registration.unwritten_iff (r : Registration) (j : Nat) :
    (∃ q, r.pairs[j]? = some q ∧ ¬ PairWritten q) ↔ j = 1 ∧ ¬ Keyed r.text := by
  rw [← fields_written_iff]
  match j with
  | 0 => simp [Registration.pairs, registrationPairs, PairWritten]
  | 1 => simp [Registration.pairs, registrationPairs]
  | 2 => simp [Registration.pairs, registrationPairs, PairWritten]
  | n + 3 => simp [Registration.pairs, registrationPairs]

theorem not_clear_iff {rs : List Registration} :
    ¬ p.Clear (rs.map Registration.pairs) ↔
      ∃ i r, p.pc = .line i 1 ∧ rs[i]? = some r ∧ ¬ Keyed r.text := by
  simp only [Printer.Clear, not_forall]
  constructor
  · rintro ⟨i, j, row, q, hpc, hrow, hq, hunwritten⟩
    rw [List.getElem?_map] at hrow
    obtain ⟨r, hr, rfl⟩ := Option.map_eq_some_iff.mp hrow
    obtain ⟨rfl, hkeyed⟩ := (r.unwritten_iff j).mp ⟨q, hq, hunwritten⟩
    exact ⟨i, r, hpc, hr, hkeyed⟩
  · rintro ⟨i, r, hpc, hr, hkeyed⟩
    obtain ⟨q, hq, hunwritten⟩ := (r.unwritten_iff 1).mpr ⟨rfl, hkeyed⟩
    have hrow : (rs.map Registration.pairs)[i]? = some r.pairs := by
      rw [List.getElem?_map, hr]
      rfl
    exact ⟨i, 1, r.pairs, q, hpc, hrow, hq, hunwritten⟩

/-- `main` comes to its next access, or prints a slot that was never written. -/
theorem main_steps (hthreads : Reachable Step .init m.threads)
    (haccepts : ∀ p, m.main = .accept p → p.Lists m.since m.threads.shown) (h : m.Registers) :
    (∃ p, m.main = .confirm p ∧ ¬ p.Clear (m.registrations.map Registration.pairs) ∧
      m.step .main = .error .undefined) ∨
    (∀ p, m.main = .confirm p → p.Clear (m.registrations.map Registration.pairs)) ∧
      ∃ m', ProcessStep m .main m' := by
  simp only [ProcessStep, Process.step, Process.mainStep]
  cases hmain : m.main with
  | accept p =>
      refine Or.inr ⟨nofun, ?_⟩
      simp only
      split
      · exact ⟨_, rfl⟩
      · obtain ⟨p', hp', _⟩ := (haccepts p hmain).step (accept_shows hthreads)
          (clear_of_written (shown_written _) p)
        rw [hp', ok_bind]
        exact ⟨_, rfl⟩
  | confirm p =>
      simp only
      by_cases hclear : p.Clear (m.registrations.map Registration.pairs)
      · refine Or.inr ⟨?_, ?_⟩
        · rintro p' ⟨⟩
          exact hclear
        · split
          · exact ⟨_, rfl⟩
          · obtain ⟨p', hp', _⟩ := (h.lists p hmain).step h.shows hclear
            rw [hp', ok_bind]
            exact ⟨_, rfl⟩
      · obtain ⟨i, r, hpc, _, _⟩ := not_clear_iff.mp hclear
        refine Or.inl ⟨p, rfl, hclear, ?_⟩
        rw [if_neg (by simp [hpc]), Printer.step_unwritten h.shows hclear]
        rfl

/-- `confirm_reg` can be printed exactly while every client sent a separator and
another byte.  `main` prints the others, and faults at the first that is not so. -/
theorem confirm_listing (h : Run ProcessStep ProcessEmptyTemp .init m) : m.ConfirmListing := by
  have hI := process_registers h
  have hsteps := main_steps (process_threads h) (fun _ => process_accepts h) hI
  constructor
  · exact hI.shows
  · rw [printReg_iff hI.shows]
    simp only [List.forall_mem_map, Registration.written_iff]
  · constructor
    · intro hfault
      rcases hsteps with ⟨p, hmain, hclear, _⟩ | ⟨_, m', hs⟩
      · obtain ⟨i, r, hpc, hr, hkeyed⟩ := not_clear_iff.mp hclear
        exact ⟨p, i, r, hmain, hpc, hr, hkeyed⟩
      · rw [ProcessStep, hfault] at hs
        cases hs
    · rintro ⟨p, i, r, hmain, hpc, hr, hkeyed⟩
      rcases hsteps with ⟨_, _, _, hfault⟩ | ⟨hclear, _⟩
      · exact hfault
      · exact absurd (hclear p hmain) (not_clear_iff.mpr ⟨i, r, hpc, hr, hkeyed⟩)
  · intro hfault
    rcases hsteps with ⟨_, _, _, hfault'⟩ | ⟨_, hs⟩
    · exact absurd hfault' hfault
    · exact hs
  · intro p hp hdone
    exact (hI.lists p hp).done_rows hdone

/-! ### Two runs -/

/-- The call of `printReg` that `main` makes. -/
def MainPc.printer : MainPc → Printer
  | .accept p => p
  | .confirm p => p

def MainPc.accepts : MainPc → Bool
  | .accept _ => true
  | .confirm _ => false

/-- The step function, as a schedule follows it. -/
def Process.next (m : Process) (e : ProcessEvent) : Option Process := (m.step e).toOption

/-- A client arrives while the record of another is printed. -/
def arrivalInList : List ProcessEvent :=
  .thread (.accept (.conn client5)) :: (List.replicate 4 .main ++
    (.thread (.accept (.conn client6)) :: List.replicate 10 .main))

theorem accept_listing_arrival : ∃ (m : Process) (p : Printer), m.main = .accept p ∧ p.pc = .done ∧
    m.threads.accepted.map Connection.fd = [5, 6] ∧ m.AcceptListing p := by
  have hview : (replay Process.next arrivalInList .init).map (fun m =>
      (m.main.accepts, m.main.printer.pc, m.threads.accepted.map Connection.fd)) =
      some (true, .done, [5, 6]) := by
    decide +kernel
  have hstep : ∀ e ∈ arrivalInList, ∀ m m', m.next e = some m' → True ∧ ProcessStep m e m' :=
    fun _ _ _ _ hs => ⟨trivial, toOption_eq_some hs⟩
  obtain ⟨m, hrun, hview⟩ := replay_view hstep hview
  simp only [Prod.mk.injEq] at hview
  obtain ⟨haccepts, hdone, haccepted⟩ := hview
  cases hmain : m.main with
  | accept p =>
      rw [hmain] at hdone
      exact ⟨m, p, hmain, hdone, haccepted, accept_listing hrun hmain⟩
  | confirm p =>
      rw [hmain] at haccepts
      cases haccepts

def helloMessage : Message := ⟨bytes "hello" ++ [0], by decide, by decide⟩

def helloInput : Input := { sampleInput with ret := .data helloMessage }

/-- A client that sends no separator is registered, and `main` comes to its line. -/
def helloInList : List ProcessEvent :=
  [.main, .main, .thread (.accept (.conn client5)), .thread (.confirm 62), .thread (.confirm 62),
    .thread (.register 0 helloInput), .thread (.register 0 helloInput)] ++ List.replicate 5 .main

theorem confirm_listing_hello : ∃ m : Process, m.main.printer.pc = .line 0 1 ∧
    m.registrations.map Registration.text = [bytes "hello"] ∧ m.ConfirmListing := by
  have hview : (replay Process.next helloInList .init).map (fun m =>
      (m.main.printer.pc, m.registrations.map Registration.text)) =
      some (.line 0 1, [bytes "hello"]) := by
    decide +kernel
  have htemp : ∀ e ∈ helloInList, ∀ m, ProcessEmptyTemp m e := by
    simp [helloInList, ProcessEmptyTemp, EmptyTemp, helloInput, sampleInput_temp]
  have hstep : ∀ e ∈ helloInList, ∀ m m', m.next e = some m' →
      ProcessEmptyTemp m e ∧ ProcessStep m e m' :=
    fun e he m _ hs => ⟨htemp e he m, toOption_eq_some hs⟩
  obtain ⟨m, hrun, hview⟩ := replay_view hstep hview
  simp only [Prod.mk.injEq] at hview
  obtain ⟨hpc, htexts⟩ := hview
  exact ⟨m, hpc, htexts, confirm_listing hrun⟩

end Process

end TelnetChat.Server
