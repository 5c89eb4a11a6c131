import TelnetChat.Machine.Progress
import TelnetChat.Vip.Delivery

/-!
# What a client is sent in time

A client that sends nothing is not passed over: every entry that is in the registry
is sent to it after as many turns of its thread as there are entries left, and two
more, whatever the other clients send meanwhile and whenever they move
(`idle_client_is_sent`).

A client that sends is not always sent what the others do (`race_skips_entry`).
-/

namespace TelnetChat.Vip

open CRuntime TelnetChat Machine

/-- The thread has no message in hand. -/
def Pc.listens : Pc → Bool
  | .top => true
  | .sync => true
  | .recv => true
  | _ => false

/-- The turns until the thread sends. -/
def Pc.ahead : Pc → Nat
  | .top => 1
  | .sync => 0
  | _ => 2

/-- The turns until the first `n` entries are sent. -/
def Client.behind (n : Nat) (cl : Client) : Nat :=
  if n ≤ cl.msgcounter then 0 else n - cl.msgcounter + cl.pc.ahead

section Progress

variable {ι : Type} [DecidableEq ι] {s s' : Chat ι} {c : ι} {r : Recv} {es : List (ι × Recv)}
  {m n : Nat}

/-- Nothing comes from `c`, and it does not close. -/
def Quiet (c : ι) (_ : Chat ι) (l : ι × Recv) : Prop := l.1 = c → l.2.flag < 0

/-- The registry grows. -/
theorem step_size (h : Reachable Step .init s) (hs : Step s (c, r) s') :
    s.reg.size ≤ s'.reg.size := by
  obtain ⟨a, _, hR⟩ := run_refines (H := fun _ _ => True) h fun _ _ _ _ _ _ _ => trivial
  cases step_moved hs with
  | silent _ _ => exact Nat.le_refl _
  | deliver _ _ _ => exact Nat.le_refl _
  | receive _ => exact Nat.le_refl _
  | count _ => exact Nat.le_refl _
  | process _ hprint hregister =>
      obtain ⟨w, hw⟩ := exists_cstr_of_strLen hprint
      have hlogs := hR.logs.register hw hregister
      rw [set_reg]
      split at hlogs
      · rw [hlogs.size_eq, hR.logs.size_eq, List.length_append]
        exact Nat.le_add_right _ _
      · rw [hlogs]

/-- The turns of a client that listens. -/
inductive Client.Turn (size : Nat) (frame : Nat → Exec (List Byte)) (cl : Client) :
    Client → Prop where
  | syncs : cl.pc = .top → cl.msgcounter < size → cl.Turn size frame { cl with pc := .sync }
  | receives {pc : Pc} : pc.listens = true → size ≤ cl.msgcounter ∨ cl.pc = .recv ∧ pc = .top →
      cl.Turn size frame { cl with pc := pc }
  | sends {f : List Byte} : cl.pc = .sync → cl.msgcounter < size →
      frame cl.msgcounter = .ok f → cl.Turn size frame (cl.deliver f size)

theorem listens_turn (hlistens : (s.client c).pc.listens = true) (hquiet : r.flag < 0)
    (hs : Step s (c, r) s') :
    (s.client c).Turn s.reg.size (syncEntry s.reg) (s'.client c) := by
  simp only [Step, Chat.step] at hs
  cases hpc : (s.client c).pc with
  | top =>
      simp only [hpc] at hs
      split at hs
      · cases hs
        rw [set_client_self]
        exact .syncs hpc ‹_›
      · cases hs
        rw [set_client_self]
        exact .receives rfl (.inl (Nat.le_of_not_lt ‹_›))
  | sync =>
      simp only [hpc] at hs
      split at hs
      · obtain ⟨f, hf, hpure⟩ := bind_eq_ok.mp hs
        cases hpure
        rw [set_client_self]
        exact .sends hpc ‹_› hf
      · cases hs
        rw [set_client_self]
        exact .receives rfl (.inl (Nat.le_of_not_lt ‹_›))
  | recv =>
      simp only [hpc] at hs
      cases hs
      rw [set_client_self, Client.receive, if_neg (by omega), if_neg (by omega)]
      exact .receives rfl (.inr ⟨hpc, rfl⟩)
  | process buf =>
      rw [hpc] at hlistens
      cases hlistens
  | count buf =>
      rw [hpc] at hlistens
      cases hlistens
  | closed =>
      rw [hpc] at hlistens
      cases hlistens

/-- The client listens, and was sent the entries from `m` up to its `msgcounter`. -/
structure Client.SentFrom (m : Nat) (cl : Client) : Prop where
  listens : cl.pc.listens = true
  from_le : m ≤ cl.msgcounter
  sent : ∀ k, m ≤ k → k < cl.msgcounter → k ∈ cl.indices

theorem Client.Turn.sentFrom {size : Nat} {frame : Nat → Exec (List Byte)} {cl cl' : Client}
    (h : cl.Turn size frame cl') (hcl : cl.SentFrom m) : cl'.SentFrom m := by
  cases h with
  | syncs _ _ => exact ⟨rfl, hcl.from_le, hcl.sent⟩
  | receives hlistens _ => exact ⟨hlistens, hcl.from_le, hcl.sent⟩
  | @sends f hpc _ _ =>
      refine ⟨hcl.listens, Nat.le_succ_of_le hcl.from_le, fun k hk hlt => ?_⟩
      have hindices : (cl.deliver f size).indices = cl.indices ++ [cl.msgcounter] :=
        List.map_append ..
      rw [hindices, List.mem_append]
      rcases Nat.lt_succ_iff_lt_or_eq.mp hlt with hlt | rfl
      · exact Or.inl (hcl.sent k hk hlt)
      · exact Or.inr (List.mem_singleton_self _)

/-- A turn leaves less to do. -/
theorem Client.Turn.behind_lt {size : Nat} {frame : Nat → Exec (List Byte)} {cl cl' : Client}
    (h : cl.Turn size frame cl') (hn : n ≤ size) : cl'.behind n ≤ cl.behind n - 1 := by
  cases h with
  | syncs hpc _ =>
      simp only [Client.behind, hpc, Pc.ahead]
      split <;> omega
  | @receives pc _ hwhere =>
      simp only [Client.behind]
      rcases hwhere with hle | ⟨hpc, rfl⟩
      · rw [if_pos (Nat.le_trans hn hle)]
        exact Nat.zero_le _
      · simp only [hpc, Pc.ahead]
        split <;> omega
  | sends hpc _ _ =>
      simp only [Client.behind, Client.deliver, hpc, Pc.ahead]
      split <;> split <;> omega

theorem quiet_lowers (c : ι) (m n : Nat) : Lowers Step (Quiet c)
    (fun s => Reachable Step .init s ∧ n ≤ s.reg.size ∧ (s.client c).SentFrom m)
    (fun s => (s.client c).behind n) (fun l => l.1 = c) where
  keeps {s l s'} hG hI hs := by
    obtain ⟨d, r⟩ := l
    obtain ⟨hreach, hn, hsent⟩ := hI
    refine ⟨hreach.step trivial hs, Nat.le_trans hn (step_size hreach hs), ?_⟩
    rcases eq_or_ne c d with rfl | hne
    · exact (listens_turn hsent.listens (hG rfl) hs).sentFrom hsent
    · rw [step_client_of_ne hs hne]
      exact hsent
  turn {s l s'} hG hI hs hmine := by
    obtain ⟨d, r⟩ := l
    obtain rfl : d = c := of_decide_eq_true hmine
    exact (listens_turn hI.2.2.listens (hG rfl) hs).behind_lt hI.2.1
  other {s l s'} _ hI hs hmine := by
    obtain ⟨d, r⟩ := l
    have hne : c ≠ d := fun heq => of_decide_eq_false hmine heq.symm
    rw [step_client_of_ne hs hne]

/-- While nothing comes from a client, it is sent every entry of the registry within
as many turns as there are left, and two more. -/
theorem idle_client_is_sent (h : Reachable Step .init s) (hpc : (s.client c).pc.listens = true)
    (hpath : Path Step (Quiet c) es s s')
    (hturns : s.reg.size - (s.client c).msgcounter + 2 ≤ es.countP fun l => l.1 = c) :
    s.reg.size ≤ (s'.client c).msgcounter ∧
    ∀ k, (s.client c).msgcounter ≤ k → k < s.reg.size →
      ∃ d ∈ (s'.client c).sent, d.index = k ∧ syncEntry s'.reg k = .ok d.frame := by
  have hstart : (s.client c).SentFrom (s.client c).msgcounter :=
    ⟨hpc, Nat.le_refl _, fun k hk hlt => absurd hk (Nat.not_le.mpr hlt)⟩
  have hbehind : (s.client c).behind s.reg.size ≤ s.reg.size - (s.client c).msgcounter + 2 := by
    have hahead : (s.client c).pc.ahead ≤ 2 := by cases (s.client c).pc <;> simp [Pc.ahead]
    simp only [Client.behind]
    split <;> omega
  obtain ⟨⟨hreach, _, hsent⟩, hrank⟩ := hpath.rank_eq_zero
    (quiet_lowers c (s.client c).msgcounter s.reg.size) ⟨h, Nat.le_refl _, hstart⟩
    (Nat.le_trans hbehind hturns)
  have hdone : s.reg.size ≤ (s'.client c).msgcounter := by
    by_contra hlt
    simp only [Client.behind, if_neg hlt] at hrank
    omega
  refine ⟨hdone, fun k hk hlt => ?_⟩
  obtain ⟨d, hd, rfl⟩ := List.mem_map.mp (hsent.sent k hk (Nat.lt_of_lt_of_le hlt hdone))
  obtain ⟨a, hrun, hR⟩ := run_refines (H := fun _ _ => True) hreach fun _ _ _ _ _ _ _ => trivial
  exact ⟨d, hd, rfl, ((hR.inOrder (Broadcast.run_ordered hrun c)).entries d hd).2.2⟩

/-- The second client has sent a message, and the first has not moved. -/
def oneEntry : List (Bool × Recv) := List.replicate 4 (true, msgB)

/-- The second client sends again between the turns of the first. -/
def catchingUp : List (Bool × Recv) :=
  [(false, ⟨-1, []⟩), (true, msgA), (true, msgA), (false, ⟨-1, []⟩), (true, msgA),
    (false, ⟨-1, []⟩)]

theorem idle_client_is_sent_entry : ∃ s s' : Chat Bool, s.reg.size = 1 ∧
    s.reg.size ≤ (s'.client false).msgcounter ∧
    ∀ k, (s.client false).msgcounter ≤ k → k < s.reg.size →
      ∃ d ∈ (s'.client false).sent, d.index = k ∧ syncEntry s'.reg k = .ok d.frame := by
  have hview : (replay (fun (s : Chat Bool) l => (s.step l.1 l.2).toOption) oneEntry .init).map
      (fun s => (s.reg.size, (s.client false).pc, (s.client false).msgcounter)) =
      some (1, .top, 0) := by
    decide +kernel
  have hview' : (replay (fun (s : Chat Bool) l => (s.step l.1 l.2).toOption)
      (oneEntry ++ catchingUp) .init).map (fun s => (s.client false).msgcounter) = some 2 := by
    decide +kernel
  have hstep : ∀ l ∈ oneEntry ++ catchingUp, ∀ s s', (s.step l.1 l.2).toOption = some s' →
      Quiet false s l ∧ Step s l s' := by
    intro l hl s s' hs
    have hquiet : ∀ l ∈ oneEntry ++ catchingUp, l.1 = false → l.2.flag < 0 := by decide
    exact ⟨hquiet l hl, toOption_eq_some hs⟩
  obtain ⟨s, s', hpath, hsize, hpath', _⟩ := replay_path_views hstep hview hview'
  simp only [Prod.mk.injEq] at hsize
  obtain ⟨hsize, hpc, hcounter⟩ := hsize
  refine ⟨s, s', hsize, idle_client_is_sent hpath.run.reachable (by rw [hpc]; rfl) hpath' ?_⟩
  rw [hsize, hcounter]
  decide

end Progress

end TelnetChat.Vip
