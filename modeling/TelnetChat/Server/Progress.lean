import TelnetChat.Machine.Progress
import TelnetChat.Server.OwnClients

/-!
# What the threads get done

*The accept loop* ends for good with its hundredth error.  The connections before
that one are accepted, in order, and no other is (`accept_loop_ends`).

*The confirm loop* takes three turns for a connection.  So every connection that was
accepted is confirmed and its thread started after as many turns, whatever the
other threads do (`accepted_are_confirmed`).

*A registration thread* exits by its twelfth turn.  Whether it registers is decided
by its own first ten calls of `recv`, in any interleaving
(`registration_decided`).  The step in which it registers has the effect of one call
of the sequential `registerConnection` (`registration_atomic`).
-/

namespace TelnetChat.Server

open CRuntime TelnetChat Machine

/-- A run of the threads, with its labels. -/
abbrev Schedule (es : List Event) (s s' : State) : Prop := Path Step (fun _ _ => True) es s s'

/-! ## The turns of the two loops -/

/-- The steps of the accept loop. -/
inductive State.AcceptTurn (s : State) : AcceptRet → State → Prop where
  | fails : s.error_count < 100 →
      s.AcceptTurn .error { s with error_count := s.error_count + 1 }
  | stores {c : Connection} {json : Json} {reg : Registry} : s.error_count < 100 →
      acceptRecord c.fd (cstr c.ip) = .ok json → addReg s.accept_reg json = .ok reg →
      s.AcceptTurn (.conn c) { s with accept_reg := reg, accepted := s.accepted ++ [c] }
  | ended {ret : AcceptRet} : ¬ s.error_count < 100 → s.AcceptTurn ret s

/-- The steps of the confirm loop. -/
inductive State.ConfirmTurn (s : State) : State → Prop where
  | sleeps : s.accept_reg.size ≤ s.c_reg → s.ConfirmTurn s
  | finds : s.pc = .check → s.c_reg < s.accept_reg.size → s.ConfirmTurn { s with pc := .read }
  | starts {j_client : Json} {client_fd : Int} {sent : Outgoing} : s.pc = .read →
      s.accept_reg.cells.load s.c_reg = .ok j_client →
      s.ConfirmTurn { s with
        pc := .mark j_client
        client_fd := some client_fd
        threads := s.threads ++ [.started]
        confirmed := s.confirmed ++ [sent] }
  | marks {j_client : Json} {reg : Registry} : s.pc = .mark j_client →
      markConfirmed s.accept_reg s.c_reg j_client = .ok reg →
      s.ConfirmTurn { s with pc := .check, accept_reg := reg, c_reg := s.c_reg + 1 }

theorem accept_turn {s s' : State} {ret : AcceptRet} (hs : Step s (.accept ret) s') :
    s.AcceptTurn ret s' := by
  simp only [Step, State.step, State.acceptConnectionLoop] at hs
  split at hs
  · rename_i hlt
    have hlt : s.error_count < 100 := by simpa using hlt
    cases ret with
    | error =>
        cases hs
        exact .fails hlt
    | conn c =>
        obtain ⟨json, hjson, hrest⟩ := bind_eq_ok.mp hs
        obtain ⟨reg, hreg, hpure⟩ := bind_eq_ok.mp hrest
        cases hpure
        exact .stores hlt hjson hreg
  · rename_i hge
    cases hs
    exact .ended (by simpa using hge)

theorem confirm_turn {s s' : State} {msendlen : Int} (hs : Step s (.confirm msendlen) s') :
    s.ConfirmTurn s' := by
  simp only [Step, State.step, State.confirmConnectionLoop] at hs
  cases hpc : s.pc with
  | check =>
      simp only [hpc] at hs
      split at hs
      · rename_i hlt
        cases hs
        exact .finds hpc hlt
      · rename_i hge
        cases hs
        exact .sleeps (Nat.le_of_not_lt hge)
  | read =>
      simp only [hpc] at hs
      obtain ⟨j_client, hload, hrest⟩ := bind_eq_ok.mp hs
      obtain ⟨client_fd, _, hrest⟩ := bind_eq_ok.mp hrest
      obtain ⟨⟨sent, ret⟩, _, hpure⟩ := bind_eq_ok.mp hrest
      cases hpure
      exact .starts hpc hload
  | mark j_client =>
      simp only [hpc] at hs
      obtain ⟨reg, hmark, hpure⟩ := bind_eq_ok.mp hs
      cases hpure
      exact .marks hpc hmark

/-- What the loops have made of the accepted connections, in a run. -/
theorem run_confirmed {s : State} (h : Reachable Step .init s) : s.Confirmed := by
  obtain ⟨a, hrun, hR⟩ := run_refines (H := fun _ _ => True) h fun _ _ _ _ _ _ _ => trivial
  exact hR.confirms (Handoff.run_ordered hrun)

/-! ## The accept loop -/

/-- What `accept` returns in the step. -/
def Event.acceptRet : Event → Option AcceptRet
  | .accept ret => some ret
  | _ => none

def AcceptRet.failed : AcceptRet → Bool
  | .error => true
  | .conn _ => false

/-- The connections before the error number `n`. -/
def untilErrors : Nat → List AcceptRet → List Connection
  | 0, _ => []
  | _ + 1, [] => []
  | n + 1, .error :: rets => untilErrors n rets
  | n + 1, .conn c :: rets => c :: untilErrors (n + 1) rets

/-- The error count and the accepted connections, after one more `accept`. -/
def acceptNext : Nat × List Connection → AcceptRet → Nat × List Connection
  | (n, cs), .error => if n < 100 then (n + 1, cs) else (n, cs)
  | (n, cs), .conn c => if n < 100 then (n, cs ++ [c]) else (n, cs)

/-- What the accept loop made of the results of `accept`. -/
structure State.AcceptedUntil (s : State) (rets : List AcceptRet) : Prop where
  error_count : s.error_count = min 100 (rets.countP AcceptRet.failed)
  size_eq : s.accept_reg.size = (untilErrors 100 rets).length
  records : ∀ k c, (untilErrors 100 rets)[k]? = some c → ∃ json,
    s.accept_reg.cells.load k = .ok json ∧ Finds (valueOf json sockfdKey) (decimal c.fd)
  confirmed : ∃ n, s.confirmed = ((untilErrors 100 rets).take n).map Connection.confirmation

section Accept

variable {s s' : State} {e : Event} {es : List Event} {ret : AcceptRet} {rets : List AcceptRet}
  {cs : List Connection} {n : Nat}

theorem foldl_acceptNext (hn : n ≤ 100) :
    rets.foldl acceptNext (n, cs) =
      (min 100 (n + rets.countP AcceptRet.failed), cs ++ untilErrors (100 - n) rets) := by
  induction rets generalizing n cs with
  | nil =>
      have hnil : untilErrors (100 - n) [] = [] := by cases 100 - n <;> rfl
      simp [hnil, Nat.min_eq_right hn]
  | cons ret rets ih =>
      rw [List.foldl_cons]
      by_cases hlt : n < 100
      · obtain ⟨m, hm⟩ : ∃ m, 100 - n = m + 1 := ⟨99 - n, by omega⟩
        cases ret with
        | error =>
            have hm' : 100 - (n + 1) = m := by omega
            rw [acceptNext, if_pos hlt, ih hlt, hm, hm', List.countP_cons_of_pos rfl, untilErrors]
            congr 2
            omega
        | conn c =>
            rw [acceptNext, if_pos hlt, ih hn, hm, List.countP_cons_of_neg Bool.false_ne_true, untilErrors]
            simp
      · obtain rfl : n = 100 := by omega
        cases ret with
        | error =>
            rw [acceptNext, if_neg hlt, ih hn]
            simp [untilErrors]
        | conn c =>
            rw [acceptNext, if_neg hlt, ih hn]
            simp [untilErrors]

theorem accept_next (hs : Step s (.accept ret) s') :
    (s'.error_count, s'.accepted) = acceptNext (s.error_count, s.accepted) ret := by
  cases accept_turn hs with
  | fails hlt => rw [acceptNext, if_pos hlt]
  | stores hlt _ _ => rw [acceptNext, if_pos hlt]
  | ended hge =>
      cases ret with
      | error => rw [acceptNext, if_neg hge]
      | conn c => rw [acceptNext, if_neg hge]

theorem accept_other (hs : Step s e s') (he : e.acceptRet = none) :
    (s'.error_count, s'.accepted) = (s.error_count, s.accepted) := by
  cases e with
  | accept ret => cases he
  | confirm msendlen =>
      cases confirm_turn hs with
      | sleeps _ => rfl
      | finds _ _ => rfl
      | starts _ _ => rfl
      | marks _ _ => rfl
  | register i input =>
      cases registerConnection_moved hs with
      | idle _ => rfl
      | reads _ _ => rfl
      | waits _ _ => rfl
      | registers _ _ => rfl

theorem accepted_follows : Follows Step (fun _ _ => True) (fun _ => True)
    (fun s : State => (s.error_count, s.accepted)) Event.acceptRet acceptNext where
  keeps _ _ _ := trivial
  turn {s e s' ret} _ _ hs he := by
    cases e with
    | accept ret' =>
        cases he
        exact accept_next hs
    | confirm _ => cases he
    | register _ _ => cases he
  other _ _ hs he := accept_other hs he

/-- The step function, as a schedule follows it. -/
theorem schedule_step {es : List Event} : ∀ e ∈ es, ∀ s s',
    (State.step s e).toOption = some s' → True ∧ Step s e s' :=
  fun _ _ _ _ hs => ⟨trivial, toOption_eq_some hs⟩

/-- The accept loop ends for good with its hundredth error.  Exactly the connections
before it have a record, in order, and no other is sent a confirmation. -/
theorem accept_loop_ends (h : Schedule es .init s) :
    s.AcceptedUntil (es.filterMap Event.acceptRet) := by
  have hview := (h.view_eq accepted_follows trivial).2
  have hfold : List.foldl acceptNext (0, []) (es.filterMap Event.acceptRet) = _ :=
    foldl_acceptNext (Nat.zero_le 100)
  have hstart : (State.init.error_count, State.init.accepted) = (0, []) := rfl
  rw [hstart, hfold, Prod.mk.injEq, Nat.zero_add, Nat.sub_zero, List.nil_append] at hview
  obtain ⟨herrors, haccepted⟩ := hview
  have hconfirmed := run_confirmed h.run
  constructor
  · exact herrors
  · rw [← haccepted]
    exact hconfirmed.size_eq
  · rw [← haccepted]
    intro k c hk
    rcases Nat.lt_or_ge k s.c_reg with hlt | hge
    · obtain ⟨d, json, hd, hload, _, hfinds⟩ := hconfirmed.below k hlt
      rw [hk, Option.some.injEq] at hd
      exact ⟨json, hload, hd ▸ hfinds⟩
    · obtain ⟨hlt, _⟩ := List.getElem?_eq_some_iff.mp hk
      obtain ⟨d, json, hd, hload, hrecord⟩ :=
        hconfirmed.above k hge (hconfirmed.size_eq ▸ hlt)
      rw [hk, Option.some.injEq] at hd
      have hpairs : Pairs json (d.pairs ++ []) := (acceptRecord_returns d).result hrecord
      exact ⟨json, hload, hd ▸ finds_sockfd hpairs⟩
  · rw [← haccepted]
    exact ⟨_, hconfirmed.in_order⟩

/-- A client arrives, and another one after a hundred errors. -/
def lateArrival : List Event :=
  .accept (.conn client5) :: (List.replicate 100 (.accept .error) ++ [.accept (.conn client6)])

theorem accept_loop_ends_late : ∃ s : State, s.accepted.map Connection.fd = [5] ∧
    s.AcceptedUntil (lateArrival.filterMap Event.acceptRet) := by
  have hview : (replay (fun (s : State) e => (s.step e).toOption) lateArrival .init).map
      (fun s => s.accepted.map Connection.fd) = some [5] := by
    decide +kernel
  obtain ⟨s, hreplay, hview⟩ := Option.map_eq_some_iff.mp hview
  exact ⟨s, hview, accept_loop_ends (replay_path schedule_step hreplay)⟩

end Accept

/-! ## The confirm loop -/

/-- The step is a turn of the confirm loop. -/
def Event.confirms : Event → Bool
  | .confirm _ => true
  | _ => false

/-- The turns of an iteration that are made. -/
def ConfirmPc.turns : ConfirmPc → Nat
  | .check => 0
  | .read => 1
  | .mark _ => 2

/-- The turns of the confirm loop, without those that found nothing to confirm. -/
def State.turns (s : State) : Nat := 3 * s.c_reg + s.pc.turns

/-- The connection is confirmed: the client was sent the message, its thread was
started, and its record is marked. -/
structure State.ConfirmedAt (s : State) (k : Nat) (c : Connection) : Prop where
  sent : s.confirmed[k]? = some c.confirmation
  started : k < s.threads.length
  marked : ∃ json, s.accept_reg.cells.load k = .ok json ∧
    Finds (valueOf json confirmKey) (bytes "true") ∧
    Finds (valueOf json sockfdKey) (decimal c.fd)

section Confirm

variable {s s' : State} {e : Event} {es : List Event} {msendlen : Int} {n k : Nat}
  {c : Connection}

theorem ConfirmPc.turns_le (pc : ConfirmPc) : pc.turns ≤ 2 := by
  cases pc with
  | check => exact Nat.zero_le 2
  | read => exact Nat.le_succ 1
  | mark _ => exact Nat.le_refl 2

/-- A turn counts, unless every record is confirmed. -/
theorem confirm_counts (hs : Step s (.confirm msendlen) s') :
    s'.turns = s.turns + 1 ∨ s.accept_reg.size ≤ s.c_reg ∧ s' = s := by
  cases confirm_turn hs with
  | sleeps hle => exact Or.inr ⟨hle, rfl⟩
  | finds hpc _ =>
      left
      rw [State.turns, State.turns, hpc]
      rfl
  | starts hpc _ =>
      left
      rw [State.turns, State.turns, hpc]
      rfl
  | marks hpc _ =>
      left
      rw [State.turns, State.turns, hpc]
      simp only [ConfirmPc.turns]
      omega

theorem confirm_other (hs : Step s e s') (he : e.confirms = false) : s'.turns = s.turns := by
  cases e with
  | confirm msendlen => cases he
  | accept ret =>
      cases accept_turn hs with
      | fails _ => rfl
      | stores _ _ _ => rfl
      | ended _ => rfl
  | register i input =>
      cases registerConnection_moved hs with
      | idle _ => rfl
      | reads _ _ => rfl
      | waits _ _ => rfl
      | registers _ _ => rfl

theorem step_accepted (hs : Step s e s') : s.accepted <+: s'.accepted := by
  cases he : e.acceptRet with
  | none =>
      have hsame : s'.accepted = s.accepted := congrArg Prod.snd (accept_other hs he)
      rw [hsame]
  | some ret =>
      cases e with
      | accept ret' =>
          cases accept_turn hs with
          | fails _ => exact List.prefix_refl _
          | stores _ _ _ => exact List.prefix_append _ _
          | ended _ => exact List.prefix_refl _
      | confirm _ => cases he
      | register _ _ => cases he

theorem path_accepted (h : Schedule es s s') : s.accepted <+: s'.accepted := by
  induction h with
  | nil => exact List.prefix_refl _
  | cons _ hs _ ih => exact (step_accepted hs).trans ih

/-- What is left to do for the first `n` connections. -/
theorem confirm_lowers (n : Nat) : Lowers Step (fun _ _ => True)
    (fun s => Reachable Step .init s ∧ n ≤ s.accepted.length) (fun s => 3 * n - s.turns)
    Event.confirms where
  keeps hG hI hs := ⟨.step hI.1 hG hs, hI.2.trans (step_accepted hs).length_le⟩
  turn {s e s'} _ hI hs he := by
    cases e with
    | accept _ => cases he
    | register _ _ => cases he
    | confirm msendlen =>
        rcases confirm_counts hs with hturn | ⟨hle, rfl⟩
        · rw [hturn]
          exact Nat.le_refl _
        · -- nothing is left to confirm
          rw [(run_confirmed hI.1).size_eq] at hle
          have hn := hI.2
          rw [State.turns]
          omega
  other _ _ hs he := by rw [confirm_other hs he]

theorem State.Confirmed.at (h : s.Confirmed) (hthreads : s.threads.length = s.confirmed.length)
    (hk : k < s.c_reg) (hc : s.accepted[k]? = some c) : s.ConfirmedAt k c := by
  have hlt : k < s.confirmed.length := Nat.lt_of_lt_of_le hk h.cursor.1
  obtain ⟨d, json, hd, hload, hconfirm, hsockfd⟩ := h.below k hk
  rw [hc, Option.some.injEq] at hd
  subst hd
  refine ⟨?_, hthreads ▸ hlt, json, hload, hconfirm, hsockfd⟩
  rw [h.in_order, List.getElem?_map, List.getElem?_take_of_lt hlt, hc]
  rfl

/-- A thread is started for each confirmation. -/
theorem length_threads (h : Reachable Step .init s) : s.threads.length = s.confirmed.length := by
  obtain ⟨a, _, hR⟩ := run_refines (H := fun _ _ => True) h fun _ _ _ _ _ _ _ => trivial
  have hthreads := congrArg List.length hR.threads
  rw [List.length_map, List.length_map] at hthreads
  rw [hthreads, hR.confirmed, List.length_map, List.length_take, Nat.min_eq_left hR.started_le]

/-- After three turns of the confirm loop for each connection that is left, all the
connections that were accepted are confirmed, whatever the other threads did. -/
theorem accepted_are_confirmed (h : Reachable Step .init s) (hpath : Schedule es s s')
    (hturns : 3 * (s.accepted.length - s.c_reg) ≤ es.countP Event.confirms) :
    ∀ k c, s.accepted[k]? = some c → s'.ConfirmedAt k c := by
  intro k c hk
  have hleft : 3 * s.accepted.length - s.turns ≤ es.countP Event.confirms := by
    rw [State.turns]
    omega
  obtain ⟨⟨hreach, _⟩, hzero⟩ :=
    hpath.rank_eq_zero (confirm_lowers s.accepted.length) ⟨h, Nat.le_refl _⟩ hleft
  have hpc := s'.pc.turns_le
  rw [State.turns] at hzero
  obtain ⟨hlt, _⟩ := List.getElem?_eq_some_iff.mp hk
  apply (run_confirmed hreach).at (length_threads hreach)
  · omega
  · obtain ⟨later, hlater⟩ := path_accepted hpath
    rw [← hlater, List.getElem?_append_left hlt]
    exact hk

/-- A client arrives, and the confirm loop takes three turns. -/
theorem accepted_are_confirmed_one : ∃ s s' : State, s.accepted.map Connection.fd = [5] ∧
    s'.c_reg = 1 ∧ ∀ k c, s.accepted[k]? = some c → s'.ConfirmedAt k c := by
  have hview : (replay (fun (s : State) e => (s.step e).toOption)
      [.accept (.conn client5)] .init).map (fun s => (s.accepted.map Connection.fd, s.c_reg)) =
      some ([5], 0) := by
    decide +kernel
  have hview' : (replay (fun (s : State) e => (s.step e).toOption)
      ([.accept (.conn client5)] ++ List.replicate 3 (.confirm 62)) .init).map State.c_reg =
      some 1 := by
    decide +kernel
  obtain ⟨s, s', hpath, hview, hpath', hview'⟩ :=
    replay_path_views schedule_step hview hview'
  obtain ⟨haccepted, hcursor⟩ := Prod.mk.inj hview
  have hlen : s.accepted.length = 1 := by
    simpa using congrArg List.length haccepted
  refine ⟨s, s', haccepted, hview', accepted_are_confirmed hpath.run hpath' ?_⟩
  rw [hlen, hcursor]
  exact Nat.le_refl 3

end Confirm

/-! ## The registration threads -/

/-- What the registration thread `i` is given in the step. -/
def Event.inputOf (i : Nat) : Event → Option Input
  | .register j input => if j = i then some input else none
  | _ => none

/-- The call of `recv` does not return `-1`. -/
def RecvRet.answers : RecvRet → Bool
  | .error => false
  | _ => true

/-- A thread and how often it registered, after one more turn. -/
def Thread.next : Option Thread × Nat → Input → Option Thread × Nat
  | (some (.waiting client_fd c_ter buf), n), input =>
      if c_ter < 10 then
        if (recvOn client_fd input.ret).answers then (some (.exited client_fd), n + 1)
        else (some (.waiting client_fd (c_ter + 1) buf), n)
      else (some (.exited client_fd), n)
  | v, _ => v

/-- What the turns make of a thread that tried `c_ter` times. -/
inductive Thread.Outcome (client_fd : Int) (c_ter : Nat) (buf : Block Byte) (n : Nat)
    (ins : List Input) : Option Thread × Nat → Prop where
  | waits : (∀ r ∈ ins, (recvOn client_fd r.ret).answers = false) → c_ter + ins.length ≤ 10 →
      Outcome client_fd c_ter buf n ins (some (.waiting client_fd (c_ter + ins.length) buf), n)
  | registers : (∃ r ∈ ins.take (10 - c_ter), (recvOn client_fd r.ret).answers = true) →
      Outcome client_fd c_ter buf n ins (some (.exited client_fd), n + 1)
  | givesUp : (∀ r ∈ ins.take (10 - c_ter), (recvOn client_fd r.ret).answers = false) →
      10 < c_ter + ins.length → Outcome client_fd c_ter buf n ins (some (.exited client_fd), n)

/-- The thread has read its descriptor. -/
def State.Running (i : Nat) (s : State) : Prop := ∃ t, s.threads[i]? = some t ∧ t ≠ .started

section Threads

variable {s s' s₁ s₂ : State} {e : Event} {es : List Event} {i n c_ter : Nat} {client_fd : Int}
  {buf : Block Byte} {input first : Input} {ins rest : List Input} {t : Thread}

theorem foldl_next_exited :
    ins.foldl Thread.next (some (.exited client_fd), n) = (some (.exited client_fd), n) := by
  induction ins with
  | nil => rfl
  | cons r ins ih => exact ih

theorem foldl_next (h : c_ter ≤ 10) : Thread.Outcome client_fd c_ter buf n ins
    (ins.foldl Thread.next (some (.waiting client_fd c_ter buf), n)) := by
  induction ins generalizing c_ter with
  | nil => exact .waits (fun r hr => absurd hr List.not_mem_nil) h
  | cons r ins ih =>
      rw [List.foldl_cons, Thread.next]
      by_cases hlt : c_ter < 10
      · obtain ⟨m, hm⟩ : ∃ m, 10 - c_ter = m + 1 := ⟨9 - c_ter, by omega⟩
        have hm' : 10 - (c_ter + 1) = m := by omega
        rw [if_pos hlt]
        cases hr : (recvOn client_fd r.ret).answers with
        | true =>
            rw [if_pos rfl, foldl_next_exited]
            refine .registers ⟨r, ?_, hr⟩
            rw [hm]
            exact List.mem_cons_self
        | false =>
            rw [if_neg Bool.false_ne_true]
            have hrest := @ih (c_ter + 1) hlt
            generalize ins.foldl Thread.next (some (.waiting client_fd (c_ter + 1) buf), n) = v
              at hrest
            cases hrest with
            | waits hnone hle =>
                have hlen : c_ter + 1 + ins.length = c_ter + (r :: ins).length := by
                  rw [List.length_cons]
                  omega
                rw [hlen] at hle ⊢
                exact .waits (List.forall_mem_cons.mpr ⟨hr, hnone⟩) hle
            | registers hsome =>
                obtain ⟨r', hr', hanswers⟩ := hsome
                refine .registers ⟨r', ?_, hanswers⟩
                rw [hm, List.take_succ_cons]
                exact List.mem_cons_of_mem r (hm' ▸ hr')
            | givesUp hnone hlt =>
                refine .givesUp ?_ (by simp; omega)
                rw [hm, List.take_succ_cons]
                exact List.forall_mem_cons.mpr ⟨hr, hm' ▸ hnone⟩
      · have hzero : 10 - c_ter = 0 := by omega
        rw [if_neg hlt, foldl_next_exited]
        refine .givesUp ?_ (by simp; omega)
        rw [hzero]
        exact fun r hr => absurd hr List.not_mem_nil

theorem registerAttempt_isSome {confirm_reg : Registry} {fd : Nat} {uuid : Uuid}
    {temp : Block Byte} {ret : RecvRet} {r : Option (Registry × List Byte)}
    (h : registerAttempt confirm_reg fd uuid temp buf ret = .ok r) : r.isSome = ret.answers := by
  cases ret with
  | error =>
      cases h
      rfl
  | closed =>
      obtain ⟨r', _, hpure⟩ := bind_eq_ok.mp h
      cases hpure
      rfl
  | data msg =>
      obtain ⟨buf', _, hrest⟩ := bind_eq_ok.mp h
      obtain ⟨r', _, hpure⟩ := bind_eq_ok.mp hrest
      cases hpure
      rfl

/-- The turn of a thread that has read its descriptor. -/
theorem thread_next (hi : s.threads[i]? = some t) (ht : t ≠ .started)
    (hs : Step s (.register i input) s') :
    (s'.threads[i]?, s'.registered.count i) =
      Thread.next (s.threads[i]?, s.registered.count i) input := by
  obtain ⟨hlt, _⟩ := List.getElem?_eq_some_iff.mp hi
  simp only [Step, State.step, State.registerConnection, hi] at hs
  rw [hi]
  cases t with
  | started => exact absurd rfl ht
  | exited client_fd =>
      cases hs
      rw [Thread.next, hi]
      exact nofun
  | waiting client_fd c_ter buf =>
      simp only at hs
      rw [Thread.next]
      split at hs
      · rename_i hten
        rw [if_pos hten]
        obtain ⟨r, hattempt, hpure⟩ := bind_eq_ok.mp hs
        rw [← registerAttempt_isSome hattempt]
        cases r with
        | none =>
            cases hpure
            simp [List.getElem?_set_self hlt]
        | some r =>
            cases hpure
            simp [List.getElem?_set_self hlt]
      · rename_i hten
        rw [if_neg hten]
        cases hs
        simp [List.getElem?_set_self hlt]

/-- The other steps leave a thread alone. -/
theorem thread_other (hi : s.threads[i]? = some t) (hs : Step s e s')
    (he : e.inputOf i = none) :
    (s'.threads[i]?, s'.registered.count i) = (s.threads[i]?, s.registered.count i) := by
  cases e with
  | accept ret =>
      cases accept_turn hs with
      | fails _ => rfl
      | stores _ _ _ => rfl
      | ended _ => rfl
  | confirm msendlen =>
      cases confirm_turn hs with
      | sleeps _ => rfl
      | finds _ _ => rfl
      | starts _ _ =>
          rw [hi]
          exact congrArg (·, _) (getElem?_append_of_some hi)
      | marks _ _ => rfl
  | register j input =>
      have hne : j ≠ i := by
        intro heq
        simp [Event.inputOf, heq] at he
      cases registerConnection_moved hs with
      | idle _ => rfl
      | reads _ _ => rw [List.getElem?_set_ne hne]
      | waits _ _ => rw [List.getElem?_set_ne hne]
      | registers _ _ =>
          rw [List.getElem?_set_ne hne, List.count_append, List.count_singleton,
            if_neg (by simpa using hne)]
          rfl

theorem inputOf_eq_some (he : e.inputOf i = some input) : e = .register i input := by
  cases e with
  | accept ret => cases he
  | confirm msendlen => cases he
  | register j input' =>
      simp only [Event.inputOf] at he
      split at he
      · rename_i hji
        cases he
        rw [hji]
      · cases he

/-- A thread that has read its descriptor does not start again. -/
theorem next_ne_started (ht : t ≠ .started) :
    ∃ t', (Thread.next (some t, n) input).1 = some t' ∧ t' ≠ .started := by
  cases t with
  | started => exact absurd rfl ht
  | exited client_fd =>
      rw [Thread.next]
      · exact ⟨_, rfl, nofun⟩
      · exact nofun
  | waiting client_fd c_ter buf =>
      rw [Thread.next]
      split
      · split
        · exact ⟨_, rfl, nofun⟩
        · exact ⟨_, rfl, nofun⟩
      · exact ⟨_, rfl, nofun⟩

theorem thread_follows (i : Nat) : Follows Step (fun _ _ => True) (State.Running i)
    (fun s : State => (s.threads[i]?, s.registered.count i)) (Event.inputOf i) Thread.next where
  keeps {s e s'} _ hI hs := by
    obtain ⟨t, hi, ht⟩ := hI
    cases he : e.inputOf i with
    | none =>
        have hsame := congrArg Prod.fst (thread_other hi hs he)
        exact ⟨t, hsame.trans hi, ht⟩
    | some input =>
        rw [inputOf_eq_some he] at hs
        have hnext := congrArg Prod.fst (thread_next hi ht hs)
        obtain ⟨t', ht', hne⟩ : ∃ t', (Thread.next (some t, s.registered.count i) input).1 =
            some t' ∧ t' ≠ .started := next_ne_started ht
        rw [hi, ht'] at hnext
        exact ⟨t', hnext, hne⟩
  turn {s e s' input} _ hI hs he := by
    obtain ⟨t, hi, ht⟩ := hI
    rw [inputOf_eq_some he] at hs
    exact thread_next hi ht hs
  other {s e s'} _ hI hs he := by
    obtain ⟨t, hi, ht⟩ := hI
    exact thread_other hi hs he

/-! ### From the start of a thread -/

/-- The threads that registered have exited. -/
theorem run_exited (h : Reachable Step .init s) :
    ∀ i ∈ s.registered, Exited s.threads (fun _ => True) i := by
  apply h.invariant (I := fun s => ∀ i ∈ s.registered, Exited s.threads (fun _ => True) i)
  · exact fun i hi => absurd hi List.not_mem_nil
  · intro s e s' _ ih hs
    have starts : s.Starts s' → ∀ i ∈ s'.registered, Exited s'.threads (fun _ => True) i := by
      intro hstarts i hi
      obtain ⟨ts, hts⟩ := hstarts.threads
      rw [hstarts.registered] at hi
      rw [hts]
      exact (ih i hi).append ts
    cases e with
    | accept ret => exact starts (accept_starts hs)
    | confirm msendlen => exact starts (confirm_starts hs)
    | register i input =>
        cases registerConnection_moved hs with
        | idle _ => exact ih
        | reads hi _ => exact fun j hj => (ih j hj).set hi nofun _
        | waits hi _ => exact fun j hj => (ih j hj).set hi nofun _
        | registers hi _ =>
            intro j hj
            rcases List.mem_append.mp hj with hj | hj
            · exact (ih j hj).set hi nofun _
            · obtain rfl := List.mem_singleton.mp hj
              obtain ⟨hlt, _⟩ := List.getElem?_eq_some_iff.mp hi
              exact ⟨_, List.getElem?_set_self hlt, trivial⟩

/-- A thread that has still to read has not registered. -/
theorem count_started (h : Reachable Step .init s) (hi : s.threads[i]? = some .started) :
    s.registered.count i = 0 := by
  rw [List.count_eq_zero]
  intro hmem
  obtain ⟨fd, hexited, _⟩ := run_exited h i hmem
  rw [hi] at hexited
  cases hexited

/-- A thread reads the descriptor of a connection. -/
theorem reads_accepted (h : Reachable Step .init s) (hi : s.threads[i]? = some t)
    (ht : t.client_fd = some client_fd) : ∃ c ∈ s.accepted, client_fd = c.fd := by
  obtain ⟨a, hrun, hR⟩ := run_refines (H := fun _ _ => True) h fun _ _ _ _ _ _ _ => trivial
  obtain ⟨x, hx, hfd⟩ := hR.thread_at hi
  rw [ht] at hfd
  obtain ⟨c, rfl, hc⟩ := Option.map_eq_some_iff.mp hfd.symm
  obtain ⟨j, _, _, hj⟩ := (Handoff.run_ordered hrun).later i c hx
  exact ⟨c, hR.accepted ▸ List.mem_of_getElem? hj, hc.symm⟩

theorem recvOn_natCast (fd : Nat) (ret : RecvRet) : recvOn fd ret = ret := by
  rw [recvOn, if_neg (by omega)]

/-- The first turn of a thread reads the descriptor of a connection. -/
theorem first_turn (h : Reachable Step .init s) (hi : s.threads[i]? = some .started)
    (hpath : Schedule es s s') (hins : es.filterMap (Event.inputOf i) = first :: rest) :
    ∃ (fd : Nat) (es' : List Event) (t : State), t.threads[i]? = some (.waiting fd 0 first.buf) ∧
      t.registered.count i = 0 ∧ Schedule es' t s' ∧
      es'.filterMap (Event.inputOf i) = rest := by
  induction hpath with
  | nil => cases hins
  | @cons e es s t s' hG hs hrest ih =>
      have hreach : Reachable Step .init t := .step h hG hs
      cases he : e.inputOf i with
      | none =>
          have hsame := congrArg Prod.fst (thread_other hi hs he)
          rw [List.filterMap_cons_none he] at hins
          exact ih hreach (hsame.trans hi) hins
      | some input =>
          rw [List.filterMap_cons_some he, List.cons.injEq] at hins
          obtain ⟨rfl, rfl⟩ := hins
          rw [inputOf_eq_some he] at hs
          obtain ⟨hlt, _⟩ := List.getElem?_eq_some_iff.mp hi
          simp only [Step, State.step, State.registerConnection, hi] at hs
          obtain ⟨client_fd, _, hpure⟩ := bind_eq_ok.mp hs
          cases hpure
          have hself : (s.threads.set i (.waiting client_fd 0 input.buf))[i]? =
              some (.waiting client_fd 0 input.buf) := List.getElem?_set_self hlt
          obtain ⟨c, _, rfl⟩ := reads_accepted hreach hself rfl
          refine ⟨c.fd, es, _, hself, ?_, hrest, rfl⟩
          exact count_started (s := s) h hi

/-- The turns of a thread from its start. -/
theorem thread_outcome (h : Reachable Step .init s) (hi : s.threads[i]? = some .started)
    (hpath : Schedule es s s') (hins : es.filterMap (Event.inputOf i) = first :: rest) :
    ∃ fd : Nat, Thread.Outcome fd 0 first.buf 0 rest (s'.threads[i]?, s'.registered.count i) := by
  obtain ⟨fd, es', t, ht, hcount, hpath', hrest⟩ := first_turn h hi hpath hins
  have hview := (hpath'.view_eq (thread_follows i) ⟨_, ht, nofun⟩).2
  rw [ht, hcount, hrest] at hview
  refine ⟨fd, ?_⟩
  rw [hview]
  exact foldl_next (Nat.zero_le 10)

/-- A thread has exited after twelve of its turns, with one record if one of its
first ten calls of `recv` did not return `-1`, and else with none.  What the other
threads do does not matter. -/
theorem registration_decided (h : Reachable Step .init s) (hi : s.threads[i]? = some .started)
    (hpath : Schedule es s s') (hturns : 12 ≤ (es.filterMap (Event.inputOf i)).length) :
    (∃ client_fd, s'.threads[i]? = some (.exited client_fd)) ∧
    s'.registered.count i =
      if ∃ input ∈ ((es.filterMap (Event.inputOf i)).drop 1).take 10, input.ret.answers = true
      then 1 else 0 := by
  cases hins : es.filterMap (Event.inputOf i) with
  | nil =>
      rw [hins] at hturns
      exact absurd hturns (by simp)
  | cons first rest =>
      rw [hins, List.length_cons] at hturns
      obtain ⟨fd, houtcome⟩ := thread_outcome h hi hpath hins
      rw [List.drop_one, List.tail_cons]
      generalize hv : (s'.threads[i]?, s'.registered.count i) = v at houtcome
      cases houtcome with
      | waits _ hle => omega
      | registers hsome =>
          simp only [recvOn_natCast] at hsome
          obtain ⟨hthread, hcount⟩ := Prod.mk.inj hv
          rw [if_pos hsome]
          exact ⟨⟨fd, hthread⟩, hcount⟩
      | givesUp hnone _ =>
          simp only [recvOn_natCast] at hnone
          obtain ⟨hthread, hcount⟩ := Prod.mk.inj hv
          rw [if_neg]
          · exact ⟨⟨fd, hthread⟩, hcount⟩
          · rintro ⟨input, hmem, hanswers⟩
            rw [hnone input hmem] at hanswers
            cases hanswers

/-- Nothing was received yet. -/
def silentInput : Input := { sampleInput with ret := .error }

/-- One client is accepted and confirmed. -/
def oneStarted : List Event := [.accept (.conn client5), .confirm 62, .confirm 62]

/-- The thread reads its descriptor, and tries twice before the message arrives. -/
def slowClient : List Event :=
  [.register 0 silentInput, .register 0 silentInput, .register 0 silentInput]

def afterMessage : List Event := List.replicate 9 (.register 0 sampleInput)

theorem oneStarted_threads : (replay (fun (s : State) e => (s.step e).toOption) oneStarted
    .init).map State.threads = some [.started] := by
  decide +kernel

theorem registration_decided_slow : ∃ s s' : State, s.threads = [.started] ∧
    s'.registered = [0] ∧ (∃ client_fd, s'.threads[0]? = some (.exited client_fd)) ∧
    s'.registered.count 0 =
      if ∃ input ∈ (((slowClient ++ afterMessage).filterMap (Event.inputOf 0)).drop 1).take 10,
        input.ret.answers = true then 1 else 0 := by
  have hview : (replay (fun (s : State) e => (s.step e).toOption)
      (oneStarted ++ (slowClient ++ afterMessage)) .init).map State.registered = some [0] := by
    decide +kernel
  obtain ⟨s, s', hpath, hthreads, hpath', hregistered⟩ :=
    replay_path_views schedule_step oneStarted_threads hview
  have hi : s.threads[0]? = some .started := by
    rw [hthreads]
    rfl
  exact ⟨s, s', hthreads, hregistered, registration_decided hpath.run hi hpath' (by decide)⟩

/-! ### The turn that registers -/

/-- A thread stays where it is until its next turn. -/
theorem path_other (hpath : Schedule es s s') (hi : s.threads[i]? = some t)
    (hnone : es.filterMap (Event.inputOf i) = []) : s'.threads[i]? = some t := by
  induction hpath with
  | nil => exact hi
  | @cons e es s t' s' _ hs _ ih =>
      cases he : e.inputOf i with
      | none =>
          rw [List.filterMap_cons_none he] at hnone
          exact ih ((congrArg Prod.fst (thread_other hi hs he)).trans hi) hnone
      | some input =>
          rw [List.filterMap_cons_some he] at hnone
          cases hnone

/-- The results of `recv` in the turns of a thread; later ones are `-1`. -/
def recvs (ins : List Input) (k : Nat) : RecvRet := ((ins.map Input.ret)[k]?).getD .error

theorem eq_error_of_answers {ret : RecvRet} (h : ret.answers = false) : ret = .error := by
  cases ret with
  | error => rfl
  | closed => cases h
  | data _ => cases h

/-- The attempts before the last failed, so the last answers. -/
theorem recvs_answers {ret : RecvRet} (hnone : ∀ r ∈ ins, r.ret.answers = false)
    (hlt : ins.length < 10) (hret : input.ret = ret) (hne : ret ≠ .error) :
    Answers (recvs (ins ++ [input])) ret := by
  refine ⟨hne, ins.length, hlt, fun j hj => ?_, ?_⟩
  · have hlt' : j < (ins.map Input.ret).length := by
      rw [List.length_map]
      exact hj
    have hmem := List.getElem_mem hj
    rw [recvs, List.map_append, List.getElem?_append_left hlt', List.getElem?_map,
      List.getElem?_eq_getElem hj]
    exact eq_error_of_answers (hnone _ hmem)
  · rw [recvs, List.map_append, List.map_singleton, List.getElem?_append_right (by simp)]
    simpa using hret

/-- An attempt that registers is the last iteration of the loop. -/
theorem registerConnection_of_attempt {reg : Registry} {fd : Nat} {uuid : Uuid}
    {temp : Block Byte} {recv : Nat → RecvRet} {ret : RecvRet} {r : Registry × List Byte}
    (h : registerAttempt reg fd uuid temp buf ret = .ok (some r)) (hrecv : Answers recv ret) :
    registerConnection reg fd uuid temp buf recv = .ok (r.1, some r.2) := by
  rw [registerConnection_answers hrecv]
  cases ret with
  | error => cases h
  | closed =>
      obtain ⟨r', hclient, hpure⟩ := bind_eq_ok.mp h
      cases hpure
      rw [recvInto, pure_eq_ok, ok_bind, hclient]
      rfl
  | data msg =>
      obtain ⟨buf', hinto, hrest⟩ := bind_eq_ok.mp h
      obtain ⟨r', hclient, hpure⟩ := bind_eq_ok.mp hrest
      cases hpure
      rw [hinto, ok_bind, hclient]
      rfl

/-- The step in which a thread registers has the effect of one call of the
sequential `registerConnection` on `confirm_reg` as it is then, with what the
thread received in all its turns. -/
theorem registration_atomic (h : Reachable Step .init s) (hi : s.threads[i]? = some .started)
    (hpath : Schedule es s s₁) (hs : Step s₁ (.register i input) s₂)
    (hnew : s₂.registered = s₁.registered ++ [i]) :
    ∃ (first : Input) (rest : List Input) (fd : Nat) (reply : List Byte),
      es.filterMap (Event.inputOf i) = first :: rest ∧
      s₂.replies = s₁.replies ++ [⟨fd, reply⟩] ∧
      registerConnection s₁.confirm_reg fd input.uuid input.temp first.buf
        (recvs (rest ++ [input])) = .ok (s₂.confirm_reg, some reply) := by
  have hgrows : s₂.registered ≠ s₁.registered := by
    rw [hnew]
    simp
  simp only [Step, State.step, State.registerConnection] at hs
  cases hins : es.filterMap (Event.inputOf i) with
  | nil =>
      -- the thread has still to read
      rw [path_other hpath hi hins] at hs
      obtain ⟨client_fd, _, hpure⟩ := bind_eq_ok.mp hs
      cases hpure
      exact absurd rfl hgrows
  | cons first rest =>
      obtain ⟨fd, houtcome⟩ := thread_outcome h hi hpath hins
      generalize hv : (s₁.threads[i]?, s₁.registered.count i) = v at houtcome
      cases houtcome with
      | registers _ =>
          rw [(Prod.mk.inj hv).1] at hs
          cases hs
          exact absurd rfl hgrows
      | givesUp _ _ =>
          rw [(Prod.mk.inj hv).1] at hs
          cases hs
          exact absurd rfl hgrows
      | waits hnone _ =>
          simp only [recvOn_natCast] at hnone
          rw [(Prod.mk.inj hv).1, Nat.zero_add] at hs
          simp only [recvOn_natCast, Int.toNat_natCast] at hs
          split at hs
          · rename_i hlt
            obtain ⟨r, hattempt, hpure⟩ := bind_eq_ok.mp hs
            cases r with
            | none =>
                cases hpure
                exact absurd rfl hgrows
            | some r =>
                cases hpure
                have hne : input.ret ≠ .error := by
                  intro herror
                  rw [herror] at hattempt
                  cases hattempt
                exact ⟨first, rest, fd, r.2, rfl, rfl,
                  registerConnection_of_attempt hattempt (recvs_answers hnone hlt rfl hne)⟩
          · cases hs
            exact absurd rfl hgrows

theorem registration_atomic_slow : ∃ s₁ s₂ : State, s₂.registered = s₁.registered ++ [0] ∧
    ∃ (first : Input) (rest : List Input) (fd : Nat) (reply : List Byte),
      slowClient.filterMap (Event.inputOf 0) = first :: rest ∧
      s₂.replies = s₁.replies ++ [⟨fd, reply⟩] ∧
      registerConnection s₁.confirm_reg fd sampleInput.uuid sampleInput.temp first.buf
        (recvs (rest ++ [sampleInput])) = .ok (s₂.confirm_reg, some reply) := by
  have hview : (replay (fun (s : State) e => (s.step e).toOption)
      (oneStarted ++ slowClient) .init).map (fun s => (s.registered,
        (s.step (.register 0 sampleInput)).toOption.map State.registered)) =
      some ([], some [0]) := by
    decide +kernel
  obtain ⟨s, s₁, hpath, hthreads, hpath', hview⟩ :=
    replay_path_views schedule_step oneStarted_threads hview
  obtain ⟨hbefore, hstep⟩ := Prod.mk.inj hview
  obtain ⟨s₂, hs, hafter⟩ := Option.map_eq_some_iff.mp hstep
  have hi : s.threads[0]? = some .started := by
    rw [hthreads]
    rfl
  have hnew : s₂.registered = s₁.registered ++ [0] := by
    rw [hbefore, hafter]
    rfl
  exact ⟨s₁, s₂, hnew, registration_atomic hpath.run hi hpath' (toOption_eq_some hs) hnew⟩

end Threads

end TelnetChat.Server
