import TelnetChat.Vip.Delivery

/-!
# Whole passes and rejected messages

`Chat.pass` is the body of the loop of `manageChat` when no other thread runs.
It is a run of steps of its thread (`pass_run`), so what holds of every run of
steps holds when passes run one at a time.

`manageChat` makes its `msgcounter++` whether or not the message was stored.
Without a rejected message no `msgcounter` passes the end of the registry, and
the clients are exact.  The first rejected message breaks this
(`rejection_free_passes`, `rejected_pass_counts`).
-/

namespace TelnetChat.Vip

open CRuntime TelnetChat Machine

/-- The steps of one pass: all of one thread and with one input, and with
nothing left to sync when a message is processed. -/
def PassStep {ι : Type} (c : ι) (r : Recv) (s : Chat ι) (l : ι × Recv) : Prop :=
  l = (c, r) ∧ ∀ buf, (s.client c).pc = .process buf → s.reg.size ≤ (s.client c).msgcounter

theorem passStep_of_pc {ι : Type} {s : Chat ι} {c : ι} {r : Recv}
    (h : ∀ buf, (s.client c).pc ≠ .process buf) : PassStep c r s (c, r) :=
  ⟨rfl, fun buf hbuf => absurd hbuf (h buf)⟩

section Passes

variable {ι : Type} [DecidableEq ι]

/-! ## The body of the loop -/

/-- The sync of one pass. -/
def syncNew (chat_reg : Registry) (cl : Client) : Exec (Nat × List Sent) :=
  if chat_reg.size > cl.msgcounter then syncMsgToClient chat_reg cl.msgcounter cl.sent
  else pure (cl.msgcounter, cl.sent)

/-- The body of the loop of `manageChat`, when nothing else runs. -/
def Chat.pass (s : Chat ι) (c : ι) (r : Recv) : Exec (Chat ι) :=
  if (s.client c).pc = .closed then pure s
  else do
    let synced ← syncNew s.reg (s.client c)
    let cl := { s.client c with msgcounter := synced.1, sent := synced.2 }
    if r.flag > 0 then pure (s.set c { cl with pc := .closed })
    else if r.flag = 0 then do
      let _printed ← strLen r.buf
      let s' ← s.register c r.buf
      pure (s'.set c { cl with
        msgcounter := cl.msgcounter + 1
        counted := cl.counted + 1
        received := cl.received ++ [r.buf] })
    else pure (s.set c cl)

/-- The system when whole passes run one at a time. -/
def Pass (s : Chat ι) (l : ι × Recv) (s' : Chat ι) : Prop := s.pass l.1 l.2 = .ok s'

variable {s s' : Chat ι} {c d : ι} {cl : Client} {r : Recv}

/-- What a pass can do after a sync that returned `p`. -/
inductive Passed (s : Chat ι) (c : ι) (r : Recv) (p : Nat × List Sent) : Chat ι → Prop where
  | closed : r.flag > 0 →
      Passed s c r p
        (s.set c { s.client c with pc := .closed, msgcounter := p.1, sent := p.2 })
  | received {n : Nat} {s₁ : Chat ι} : r.flag = 0 → strLen r.buf = .ok n →
      s.register c r.buf = .ok s₁ →
      Passed s c r p
        (s₁.set c {
          pc := (s.client c).pc
          msgcounter := p.1 + 1
          sent := p.2
          counted := (s.client c).counted + 1
          received := (s.client c).received ++ [r.buf] })
  | nothing : r.flag < 0 →
      Passed s c r p (s.set c { s.client c with msgcounter := p.1, sent := p.2 })

theorem pass_passed (h : Pass s (c, r) s') (hopen : (s.client c).pc ≠ .closed) :
    ∃ p, syncNew s.reg (s.client c) = .ok p ∧ Passed s c r p s' := by
  replace h : s.pass c r = .ok s' := h
  unfold Chat.pass at h
  rw [if_neg hopen] at h
  obtain ⟨p, hsync, hrest⟩ := bind_eq_ok.mp h
  refine ⟨p, hsync, ?_⟩
  rcases Int.lt_trichotomy r.flag 0 with hflag | hflag | hflag
  · rw [if_neg (by omega), if_neg (by omega)] at hrest
    cases hrest
    exact .nothing hflag
  · rw [if_neg (by omega), if_pos hflag] at hrest
    obtain ⟨n, hprint, hrest⟩ := bind_eq_ok.mp hrest
    obtain ⟨s₁, hregister, hpure⟩ := bind_eq_ok.mp hrest
    cases hpure
    exact .received hflag hprint hregister
  · rw [if_pos hflag] at hrest
    cases hrest
    exact .closed hflag

/-- The sync leaves `msgcounter` at the registry size, unless it was past it. -/
theorem syncMsgToClient_cursor {chat_reg : Registry} {msgcounter : Nat} {sent : List Sent}
    {p : Nat × List Sent} (h : syncMsgToClient chat_reg msgcounter sent = .ok p) :
    p.1 = max msgcounter chat_reg.size := by
  induction msgcounter, sent using syncMsgToClient.induct chat_reg with
  | case1 msgcounter sent hlt ih =>
      rw [syncMsgToClient, if_pos hlt] at h
      obtain ⟨frame, _, hrest⟩ := bind_eq_ok.mp h
      have hcursor := ih frame hrest
      omega
  | case2 msgcounter sent hle =>
      rw [syncMsgToClient, if_neg hle] at h
      cases h
      simp only
      omega

theorem syncNew_cursor {chat_reg : Registry} {p : Nat × List Sent}
    (h : syncNew chat_reg cl = .ok p) : p.1 = max cl.msgcounter chat_reg.size := by
  unfold syncNew at h
  split at h
  · exact syncMsgToClient_cursor h
  · cases h
    simp only
    omega

/-! ## Passes are runs -/

/-- The loop of `syncMsgToClient` is a run of its steps. -/
theorem syncMsgToClient_run {p : Nat × List Sent}
    (h : syncMsgToClient s.reg cl.msgcounter cl.sent = .ok p) (hpc : cl.pc = .sync) :
    Run Step (PassStep c r) (s.set c cl)
      (s.set c { cl with pc := .recv, msgcounter := p.1, sent := p.2 }) := by
  induction hm : s.reg.size - cl.msgcounter generalizing cl with
  | zero =>
      rw [syncMsgToClient, if_neg (by omega)] at h
      cases h
      refine .single (passStep_of_pc (by simp [hpc])) ?_
      simp only [Step, Chat.step, set_client_self, hpc, set_reg]
      rw [if_neg (by omega), set_set]
      rfl
  | succ m ih =>
      rw [syncMsgToClient, if_pos (by omega)] at h
      obtain ⟨frame, hframe, hrest⟩ := bind_eq_ok.mp h
      have hstep : Step (s.set c cl) (c, r) (s.set c (cl.deliver frame s.reg.size)) := by
        simp only [Step, Chat.step, set_client_self, hpc, set_reg]
        rw [if_pos (by omega), hframe, ok_bind, set_set]
        rfl
      have hrun := @ih (cl.deliver frame s.reg.size) hrest hpc
        (by simp only [Client.deliver]; omega)
      exact (Run.single (passStep_of_pc (by simp [hpc])) hstep).trans hrun

/-- The sync of a pass is a run. -/
theorem syncNew_run {p : Nat × List Sent} (h : syncNew s.reg (s.client c) = .ok p)
    (htop : (s.client c).pc = .top) :
    Run Step (PassStep c r) s
      (s.set c { s.client c with pc := .recv, msgcounter := p.1, sent := p.2 }) := by
  have hfirst : PassStep c r s (c, r) := passStep_of_pc (by simp [htop])
  unfold syncNew at h
  split at h
  · rename_i hlt
    have hstep : Step s (c, r) (s.set c { s.client c with pc := .sync }) := by
      simp only [Step, Chat.step, htop]
      rw [if_pos hlt]
      rfl
    exact (Run.single hfirst hstep).trans (syncMsgToClient_run h rfl)
  · rename_i hle
    cases h
    refine .single hfirst ?_
    simp only [Step, Chat.step, htop]
    rw [if_neg hle]
    rfl

/-- A pass is a run of steps of its thread. -/
theorem pass_run (h : Pass s (c, r) s') (htop : (s.client c).pc = .top) :
    Run Step (PassStep c r) s s' := by
  obtain ⟨p, hsync, hpassed⟩ := pass_passed h (by simp [htop])
  have hcursor := syncNew_cursor hsync
  have hrecv : Step (s.set c { s.client c with pc := .recv, msgcounter := p.1, sent := p.2 })
      (c, r) (s.set c
        (Client.receive { s.client c with pc := .recv, msgcounter := p.1, sent := p.2 } r)) := by
    simp [Step, Chat.step]
  have hrun := (syncNew_run (r := r) hsync htop).trans (.single (passStep_of_pc (by simp)) hrecv)
  unfold Client.receive at hrun
  cases hpassed with
  | closed hflag =>
      rw [if_pos hflag] at hrun
      exact hrun
  | nothing hflag =>
      rw [if_neg (by omega), if_neg (by omega), ← htop] at hrun
      exact hrun
  | @received n s₁ hflag hprint hregister =>
      rw [if_neg (by omega), if_pos hflag] at hrun
      -- the thread still processes the buffer, and counts it
      refine (hrun.trans (.single ⟨rfl, ?_⟩ (?_ : Step _ _ (s₁.set c {
          pc := .count r.buf, msgcounter := p.1, sent := p.2,
          counted := (s.client c).counted,
          received := (s.client c).received ++ [r.buf] })))).trans
        (.single (passStep_of_pc (by simp)) ?_)
      · intro buf _
        rw [set_client_self, set_reg, hcursor]
        exact Nat.le_max_right ..
      · simp only [Step, Chat.step, set_client_self, hprint, ok_bind, register_set hregister,
          set_set]
        rfl
      · simp [Step, Chat.step, Client.count, htop]

/-- Between passes no thread is inside the loop body. -/
def Parked (s : Chat ι) : Prop :=
  ∀ d, (s.client d).pc = .top ∨ (s.client d).pc = .closed

theorem pass_parked (h : Parked s) (hs : Pass s (c, r) s') : Parked s' := by
  by_cases hclosed : (s.client c).pc = .closed
  · replace hs : s.pass c r = .ok s' := hs
    rw [Chat.pass, if_pos hclosed] at hs
    cases hs
    exact h
  · obtain ⟨p, _, hpassed⟩ := pass_passed hs hclosed
    cases hpassed with
    | closed =>
        exact forall_client_set (P := fun _ cl => cl.pc = .top ∨ cl.pc = .closed) h (.inr rfl)
    | received _ _ hregister =>
        exact forall_client_set (P := fun _ cl => cl.pc = .top ∨ cl.pc = .closed)
          (register_client hregister ▸ h) (h c)
    | nothing =>
        exact forall_client_set (P := fun _ cl => cl.pc = .top ∨ cl.pc = .closed) h (h c)

theorem parked_run (h : Parked s) (hs : Pass s (c, r) s') : Run Step (PassStep c r) s s' := by
  rcases h c with htop | hclosed
  · exact pass_run hs htop
  · replace hs : s.pass c r = .ok s' := hs
    rw [Chat.pass, if_pos hclosed] at hs
    cases hs
    exact .init

/-- A run of passes is a run of steps. -/
theorem passes_reachable {G : Chat ι → ι × Recv → Prop} (h : Run Pass G .init s) :
    Reachable Step .init s ∧ Parked s := by
  refine h.invariant (I := fun s => Reachable Step .init s ∧ Parked s)
    ⟨.init, fun _ => .inl rfl⟩ ?_
  rintro s ⟨c, r⟩ s' _ ⟨hreach, hparked⟩ hs
  exact ⟨hreach.trans (parked_run hparked hs).reachable, pass_parked hparked hs⟩

/-! ## Rejected messages -/

/-- The pass receives a text that the server does not store. -/
def Rejects (r : Recv) : Prop := r.flag = 0 ∧ ¬ Accepted r.buf

/-- The pass left the registry as it was, and `msgcounter` where the sync left
it. -/
def Intact (s : Chat ι) (c : ι) (s' : Chat ι) : Prop :=
  s'.reg = s.reg ∧
    ∃ p, syncNew s.reg (s.client c) = .ok p ∧ (s'.client c).msgcounter = p.1

/-- If only stored messages are received, no `msgcounter` passes the end of the
registry, in any interleaving. -/
theorem accepted_bounded (h : Run Step (Receives Accepted) .init s) (c : ι) :
    (s.client c).msgcounter ≤ s.reg.size := by
  have hbounded : ∃ a, Run Broadcast.Step Broadcast.OwedOnly .fresh a ∧ s.Refines a := by
    refine run_refines (run_buffers h fun _ _ hG => hG) ?_
    rintro s b l e ⟨_, hbuffers⟩ hR hallows
    cases hallows with
    | append => trivial
    | deliver => trivial
    | @count buf hpc =>
        exact (hR.client l.1).owing.mpr ⟨buf, hpc, hbuffers l.1 buf (by rw [hpc]; rfl)⟩
  obtain ⟨a, hrun, hR⟩ := hbounded
  rw [(hR.client c).cursor, hR.logs.size_eq]
  exact (Nat.le_add_right ..).trans (Broadcast.run_bounded hrun c)

/-- The steps of a pass that rejects nothing are orderly. -/
theorem passStep_orderly (h : Orderly s) (hr : r.flag = 0 → Accepted r.buf)
    (hrun : Run Step (PassStep c r) s s') : Orderly s' := by
  induction hrun with
  | init => exact h
  | @step t t' l _ hG hs ih =>
      obtain ⟨rfl, hsynced⟩ := hG
      refine .step ih ⟨fun _ hflag => hr hflag, fun buf hpc => ?_⟩ hs
      exact Nat.le_antisymm (hsynced buf hpc) (accepted_bounded (ih.mono fun _ _ hG => hG.1) c)

theorem passes_orderly (h : Run Pass (fun _ l => ¬ Rejects l.2) .init s) : Orderly s := by
  have hinv := h.invariant (I := fun s => Orderly s ∧ Parked s) ⟨.init, fun _ => .inl rfl⟩ ?_
  · exact hinv.1
  rintro s ⟨c, r⟩ s' hG ⟨horderly, hparked⟩ hs
  refine ⟨passStep_orderly horderly (fun hflag => ?_) (parked_run hparked hs),
    pass_parked hparked hs⟩
  exact not_not.mp fun hbuf => hG ⟨hflag, hbuf⟩

section Passed

variable {p : Nat × List Sent} {log : List (ι × List Byte)}

/-- A rejected message is counted, and nothing is stored. -/
theorem Passed.rejected (h : Passed s c r p s') (hlogs : s.Logs log) (hr : Rejects r) :
    s'.reg = s.reg ∧ (s'.client c).msgcounter = p.1 + 1 := by
  cases h with
  | closed hflag => exact absurd hr.1 (Int.ne_of_gt hflag)
  | nothing hflag => exact absurd hr.1 (Int.ne_of_lt hflag)
  | received _ hprint hregister =>
      obtain ⟨w, hw⟩ := exists_cstr_of_strLen hprint
      have heffect := hlogs.register hw hregister
      rw [if_neg fun haccept => hr.2 ⟨w, hw, haccept⟩] at heffect
      subst heffect
      exact ⟨rfl, by rw [set_client_self]⟩

/-- A pass that rejects nothing keeps every `msgcounter` within the registry. -/
theorem Passed.bounded (h : Passed s c r p s') (hlogs : s.Logs log) (hr : ¬ Rejects r)
    (hle : ∀ d, (s.client d).msgcounter ≤ s.reg.size) (hp : p.1 = s.reg.size) :
    ∀ d, (s'.client d).msgcounter ≤ s'.reg.size := by
  cases h with
  | closed =>
      exact forall_client_set (P := fun _ cl => cl.msgcounter ≤ s.reg.size) hle hp.le
  | nothing =>
      exact forall_client_set (P := fun _ cl => cl.msgcounter ≤ s.reg.size) hle hp.le
  | @received n s₁ hflag hprint hregister =>
      obtain ⟨w, hw⟩ := exists_cstr_of_strLen hprint
      have haccept : msgPrefix <+: w := by
        by_contra hreject
        exact hr ⟨hflag, fun ⟨w', hw', haccept'⟩ => hreject (hw'.unique hw ▸ haccept')⟩
      have hstored := hlogs.register hw hregister
      rw [if_pos haccept] at hstored
      have hsize : s₁.reg.size = s.reg.size + 1 := by
        rw [hstored.size_eq, hlogs.size_eq, List.length_append, List.length_singleton]
      apply forall_client_set (P := fun _ cl => cl.msgcounter ≤ s₁.reg.size)
      · intro d
        rw [register_client hregister, hsize]
        exact (hle d).trans (Nat.le_succ _)
      · show p.1 + 1 ≤ s₁.reg.size
        rw [hsize, hp]

end Passed

/-- While no message is rejected, no `msgcounter` passes the end of the registry
and no entry of another client is passed over.  The next pass keeps this, and
leaves the state intact if it rejects, exactly when it does not reject. -/
theorem rejection_free_passes (h : Run Pass (fun _ l => ¬ Rejects l.2) .init s) :
    (∀ d, (s.client d).msgcounter ≤ s.reg.size ∧ Exact s d) ∧
    ∀ c r s', (s.client c).pc ≠ .closed → Pass s (c, r) s' →
      ((Rejects r → Intact s c s') ↔ ¬ Rejects r) ∧
      ((∀ d, (s'.client d).msgcounter ≤ s'.reg.size) ↔ ¬ Rejects r) := by
  have horderly := passes_orderly h
  have hle := accepted_bounded (horderly.mono fun _ _ hG => hG.1)
  refine ⟨fun d => ⟨hle d, orderly_exact horderly d⟩, ?_⟩
  intro c r s' hopen hs
  obtain ⟨a, _, hR⟩ := orderly_refines horderly
  obtain ⟨p, hsync, hpassed⟩ := pass_passed hs hopen
  have hcursor := syncNew_cursor hsync
  rw [Nat.max_eq_right (hle c)] at hcursor
  by_cases hr : Rejects r
  · -- the rejected message is counted past the end
    obtain ⟨hreg, hcounter⟩ := hpassed.rejected hR.logs hr
    refine ⟨iff_of_false ?_ (not_not.mpr hr), iff_of_false ?_ (not_not.mpr hr)⟩
    · intro hintact
      obtain ⟨_, q, hq, hkept⟩ := hintact hr
      rw [hsync] at hq
      cases hq
      exact absurd (hcounter.symm.trans hkept) (Nat.succ_ne_self _)
    · intro hbounded
      have hcount := hbounded c
      rw [hcounter, hreg, hcursor] at hcount
      exact absurd hcount (Nat.not_succ_le_self _)
  · exact ⟨iff_of_true (fun hn => absurd hn hr) hr,
      iff_of_true (hpassed.bounded hR.logs hr hle hcursor) hr⟩

/-- The text `"hi"`, with its NUL. -/
def msgHi : Recv := Chunk.recv ⟨bytes "hi" ++ [0], by decide, by decide⟩

/-- A `recv` with nothing to read. -/
def noMsg : Recv := ⟨-1, calloc 20⟩

theorem msgHi_rejected : Rejects msgHi := by
  refine ⟨rfl, fun ⟨w, hw, haccept⟩ => ?_⟩
  have hhi : CStr msgHi.buf _ := Chunk.recv_cstr (.inl (by decide))
  rw [hw.unique hhi] at haccept
  revert haccept
  decide

theorem rejection_free_passes_turn : ∃ s : Chat Bool, s.reg.size = 1 ∧
    (∀ d, (s.client d).msgcounter ≤ s.reg.size ∧ Exact s d) ∧
    ∀ c r s', (s.client c).pc ≠ .closed → Pass s (c, r) s' →
      ((Rejects r → Intact s c s') ↔ ¬ Rejects r) ∧
      ((∀ d, (s'.client d).msgcounter ≤ s'.reg.size) ↔ ¬ Rejects r) := by
  have hsize : ((Chat.init : Chat Bool).pass true msgB).toOption.map (fun s => s.reg.size) =
      some 1 := by
    decide +kernel
  obtain ⟨s, hpass, hsize⟩ := Option.map_eq_some_iff.mp hsize
  have hrun : Run Pass (fun _ l => ¬ Rejects l.2) .init s :=
    .single (a := (true, msgB)) (fun hr => hr.2 msgB_accepted) (toOption_eq_some hpass)
  exact ⟨s, hsize, rejection_free_passes hrun⟩

/-- The first client sends `"hi"`, which is counted and not stored.  Then it is
not sent the entry of the second. -/
theorem rejected_pass_counts : ∃ s₁ s₂ s₃ : Chat Bool,
    Pass .init (false, msgHi) s₁ ∧ Rejects msgHi ∧ ¬ Intact .init false s₁ ∧
    s₁.reg.size < (s₁.client false).msgcounter ∧
    Pass s₁ (true, msgB) s₂ ∧ Pass s₂ (false, noMsg) s₃ ∧ ¬ Exact s₃ false := by
  have hview : (do
      let s₁ ← (Chat.init : Chat Bool).pass false msgHi
      let s₂ ← s₁.pass true msgB
      let s₃ ← s₂.pass false noMsg
      pure ((s₁.reg.size, (s₁.client false).msgcounter),
        (s₃.addedBy, s₃.reg.size, (s₃.client false).msgcounter, (s₃.client false).indices)) :
      Exec ((Nat × Nat) × (List Bool × Nat × Nat × List Nat))).toOption =
      some ((0, 1), ([true], 1, 1, [])) := by
    decide +kernel
  obtain ⟨s₁, hs₁, hrest⟩ := bind_eq_ok.mp (toOption_eq_some hview)
  obtain ⟨s₂, hs₂, hrest⟩ := bind_eq_ok.mp hrest
  obtain ⟨s₃, hs₃, hpure⟩ := bind_eq_ok.mp hrest
  simp only [pure_eq_ok, Except.ok.injEq, Prod.mk.injEq] at hpure
  obtain ⟨⟨hsize₁, hcounter₁⟩, hadded, hsize, hcounter, hsent⟩ := hpure
  refine ⟨s₁, s₂, s₃, hs₁, msgHi_rejected, fun hintact => ?_, ?_, hs₂, hs₃, fun hexact => ?_⟩
  · obtain ⟨_, p, hp, hp₁⟩ := hintact
    rw [syncNew_cursor hp, hcounter₁] at hp₁
    exact absurd hp₁ (by decide)
  · rw [hsize₁, hcounter₁]
    exact Nat.one_pos
  · have hfirst := hexact 0 (by rw [hcounter]; exact Nat.one_pos) (by rw [hsize]; exact Nat.one_pos)
    rw [hsent, hadded] at hfirst
    exact absurd (hfirst.mp (by decide)) (by decide)

end Passes

end TelnetChat.Vip
