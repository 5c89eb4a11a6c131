import TelnetChat.Vip.Refinement

/-!
# What the clients are sent

*Order.*  Under every input and schedule a client is sent entries in the order
of the registry, none twice (`delivery_in_order`).

*Safety.*  No message that ends with a NUL makes a later lookup fail
(`lookups_never_fail`).

*Exactness.*  A client is sent exactly the entries of the others below its
`msgcounter`, if each entry is added at the `msgcounter` of its author
(`broadcast_exact`).  Nothing in the code makes it so.  Between the last test of
the sync and `addReg` another thread may add an entry, and `msgcounter++` then
passes over that one (`late_registration_skips`, `race_skips_entry`).
-/

namespace TelnetChat.Vip

open CRuntime TelnetChat Machine

/-! ## Properties of a state -/

/-- The sends to `c` are in registry order, each of an entry that was there,
and they and the counts add up to `msgcounter`. -/
structure InOrder {ι : Type} (s : Chat ι) (c : ι) : Prop where
  increasing : (s.client c).indices.Pairwise (· < ·)
  entries : ∀ d ∈ (s.client c).sent,
    d.index < d.size ∧ d.size ≤ s.reg.size ∧ syncEntry s.reg d.index = .ok d.frame
  total : (s.client c).sent.length + (s.client c).counted = (s.client c).msgcounter

/-- The indices below `msgcounter` that were not sent. -/
def Client.skipped (cl : Client) : List Nat :=
  (List.range cl.msgcounter).filter fun k => k ∉ cl.indices

/-- Below the `msgcounter` of `c` and the registry size, exactly the entries
that `c` added were not sent to it. -/
def Exact {ι : Type} (s : Chat ι) (c : ι) : Prop :=
  ∀ k, k < (s.client c).msgcounter → k < s.reg.size →
    (k ∉ (s.client c).indices ↔ s.addedBy[k]? = some c)

/-- A message is processed when its author has synced every entry. -/
def AtCursor {ι : Type} (s : Chat ι) (l : ι × Recv) : Prop :=
  ∀ buf, (s.client l.1).pc = .process buf → s.reg.size = (s.client l.1).msgcounter

/-- A run that receives only messages and processes each at the cursor. -/
abbrev Orderly {ι : Type} [DecidableEq ι] (s : Chat ι) : Prop :=
  Run Step (fun s l => Receives Accepted s l ∧ AtCursor s l) .init s

/-! ## Two schedules -/

section Schedules

/-- `"msg:a"` and `"msg:b"`, each with its NUL. -/
def chunkA : Chunk := ⟨frame (bytes "a"), by decide, by decide⟩

def chunkB : Chunk := ⟨frame (bytes "b"), by decide, by decide⟩

def msgA : Recv := chunkA.recv

def msgB : Recv := chunkB.recv

/-- Both clients receive, the second registers and counts, then the first, which
syncs once more. -/
def race : List (Bool × Recv) :=
  [(false, msgA), (false, msgA), (true, msgB), (true, msgB), (true, msgB), (true, msgB),
    (false, msgA), (false, msgA), (false, msgA), (false, msgA)]

/-- The second client sends a message, and the first syncs. -/
def turns : List (Bool × Recv) :=
  [(true, msgB), (true, msgB), (true, msgB), (true, msgB), (false, msgA), (false, msgA)]

theorem msgA_accepted : Accepted msgA.buf :=
  ⟨_, Chunk.recv_cstr (.inl (by decide)), by decide⟩

theorem msgB_accepted : Accepted msgB.buf :=
  ⟨_, Chunk.recv_cstr (.inl (by decide)), by decide⟩

instance {ι : Type} (s : Chat ι) (l : ι × Recv) : Decidable (AtCursor s l) :=
  match hpc : (s.client l.1).pc with
  | .process _ => decidable_of_iff (s.reg.size = (s.client l.1).msgcounter)
      ⟨fun h _ _ => h, fun h => h _ hpc⟩
  | .top | .sync | .recv | .count _ | .closed => isTrue fun buf hbuf => by simp [hpc] at hbuf

/-- One step, if it is made at the cursor. -/
def stepAtCursor (s : Chat Bool) (l : Bool × Recv) : Option (Chat Bool) :=
  if AtCursor s l then (s.step l.1 l.2).toOption else none

theorem turns_orderly : ∃ s : Chat Bool, Orderly s ∧ s.reg.size = 1 ∧
    (s.client false).indices = [0] ∧ (s.client true).msgcounter = 1 := by
  have hview : (replay stepAtCursor turns .init).map (fun s =>
      (s.reg.size, (s.client false).indices, (s.client true).msgcounter)) = some (1, [0], 1) := by
    decide +kernel
  have haccepted : ∀ l ∈ turns, Accepted l.2.buf := by simp [turns, msgA_accepted, msgB_accepted]
  have hstep : ∀ l ∈ turns, ∀ s s', stepAtCursor s l = some s' →
      (Receives Accepted s l ∧ AtCursor s l) ∧ Step s l s' := by
    intro l hl s s' hs
    rw [stepAtCursor] at hs
    split at hs
    · exact ⟨⟨fun _ _ => haccepted l hl, ‹_›⟩, toOption_eq_some hs⟩
    · cases hs
  obtain ⟨s, hrun, hview⟩ := replay_view hstep hview
  simp only [Prod.mk.injEq] at hview
  exact ⟨s, hrun, hview⟩

end Schedules

section Delivery

variable {ι : Type} {s s₁ s₂ : Chat ι} {c : ι}

/-! ## Order -/

theorem Chat.Refines.inOrder {a : Broadcast.State ι (List Byte)} (h : s.Refines a)
    (ha : (a.reader c).Ordered a.log) : InOrder s c := by
  have hc := h.client c
  refine ⟨by rw [hc.indices_eq]; exact ha.sorted, fun d hd => ?_, ?_⟩
  · rw [hc.sent] at hd
    obtain ⟨d', hd', rfl⟩ := List.mem_map.mp hd
    obtain ⟨hlt, hle, b, hget⟩ := ha.entries d' hd'
    exact ⟨hlt, by rwa [h.logs.size_eq], h.logs.syncEntry_eq hget⟩
  · rw [hc.sent, List.length_map, hc.counted, hc.cursor]
    exact ha.total

variable [DecidableEq ι]

/-- In every reachable state the sends to each client are in order.  So two
clients are sent two entries in one order, none is sent twice, no more are
skipped than were received from the client, and a client that sent nothing has
the entries below its `msgcounter`. -/
theorem delivery_in_order (h : Reachable Step .init s) :
    (∀ c, InOrder s c) ∧
    (∀ c d i j, [i, j].Sublist (s.client c).indices → i ∈ (s.client d).indices →
      j ∈ (s.client d).indices → [i, j].Sublist (s.client d).indices) ∧
    (∀ c, (s.client c).indices.Nodup) ∧
    (∀ c, (s.client c).skipped.length ≤ (s.client c).received.length) ∧
    ∀ c, (s.client c).received = [] →
      (s.client c).indices = List.range (s.client c).msgcounter ∧
      (s.client c).msgcounter ≤ s.reg.size := by
  obtain ⟨a, hrun, hR⟩ := run_refines (H := fun _ _ => True) h fun _ _ _ _ _ _ _ => trivial
  have hordered := Broadcast.run_ordered hrun
  have hcounts := run_counts h
  refine ⟨fun c => hR.inOrder (hordered c), fun c d i j hij hi hj => ?_, fun c => ?_, fun c => ?_,
    fun c hnone => ?_⟩
  · rw [(hR.client c).indices_eq] at hij
    rw [(hR.client d).indices_eq] at hi hj ⊢
    exact (hordered c).same_order (hordered d) hij hi hj
  · rw [(hR.client c).indices_eq]
    exact (hordered c).nodup
  · have hskipped := (hordered c).length_skipped
    have hcount := hcounts c
    unfold Client.Counts at hcount
    rw [Client.skipped, (hR.client c).indices_eq, (hR.client c).cursor, hskipped,
      ← (hR.client c).counted]
    omega
  · have hcount := hcounts c
    rw [Client.Counts, hnone, List.length_nil, (hR.client c).counted] at hcount
    rw [(hR.client c).indices_eq, (hR.client c).cursor, hR.logs.size_eq]
    exact (hordered c).indices_eq_range (Nat.eq_zero_of_add_eq_zero_right hcount)

theorem delivery_in_order_turns : ∃ s : Chat Bool, (s.client false).indices = [0] ∧
    (∀ c, InOrder s c) ∧
    (∀ c d i j, [i, j].Sublist (s.client c).indices → i ∈ (s.client d).indices →
      j ∈ (s.client d).indices → [i, j].Sublist (s.client d).indices) ∧
    (∀ c, (s.client c).indices.Nodup) ∧
    (∀ c, (s.client c).skipped.length ≤ (s.client c).received.length) ∧
    ∀ c, (s.client c).received = [] →
      (s.client c).indices = List.range (s.client c).msgcounter ∧
      (s.client c).msgcounter ≤ s.reg.size := by
  obtain ⟨s, hrun, _, hsent, _⟩ := turns_orderly
  exact ⟨s, hsent, delivery_in_order hrun.reachable⟩

/-! ## Safety -/

/-- The entry found for `"msg"` in a record has both slots written. -/
theorem ChatRecord.found {j : Json} {v : List Byte} (h : ChatRecord j v) :
    0 < j.size ∧ ∃ e key value,
      (getStringFrom (cstr msgKey) >>= findKey j) = .ok (some e) ∧ e = ⟨some key, some value⟩ ∧
      key.Holds msgKey ∧ value.Holds v := by
  obtain ⟨k, hk, hkey⟩ := msgKey_string
  obtain ⟨slot, hfind, hslot⟩ := findKey_returns h hkey
  rw [lookup_cons_self] at hslot
  cases hslot with
  | @some e _ he =>
      obtain ⟨key, hkslot, hk'⟩ := slot_written he.1
      obtain ⟨value, hvslot, hv⟩ := slot_written he.2
      obtain ⟨es, hes, hps⟩ := h
      refine ⟨by rw [hes.size_eq, hps.length_eq]; exact Nat.one_pos, e, key, value, ?_, ?_, hk', hv⟩
      · rw [hk, ok_bind, hfind]
      · cases e
        exact congrArg₂ Entry.mk hkslot hvslot

/-- A thread whose buffer holds a C string makes its step without a fault. -/
theorem Chat.Refines.progress {a : Broadcast.State ι (List Byte)} (h : s.Refines a)
    (hbuf : ∀ buf, (s.client c).pc.buffer = some buf → ∃ w, CStr buf w) (r : Recv) :
    ∃ s', Step s (c, r) s' := by
  show ∃ s', s.step c r = .ok s'
  unfold Chat.step
  cases hpc : (s.client c).pc with
  | top =>
      by_cases hlt : s.reg.size > (s.client c).msgcounter
      · exact ⟨_, if_pos hlt⟩
      · exact ⟨_, if_neg hlt⟩
  | sync =>
      by_cases hlt : s.reg.size > (s.client c).msgcounter
      · have hlog : (s.client c).msgcounter < a.log.length := h.logs.size_eq ▸ hlt
        simp only [if_pos hlt, h.logs.syncEntry_eq (List.getElem?_eq_getElem hlog), ok_bind]
        exact ⟨_, rfl⟩
      · exact ⟨_, if_neg hlt⟩
  | recv => exact ⟨_, rfl⟩
  | process buf =>
      obtain ⟨w, hw⟩ := hbuf buf (by rw [hpc]; rfl)
      obtain ⟨js, hjs, _⟩ := h.logs.reg
      obtain ⟨reg, hprocess, _⟩ := processMsgFromClient_returns hjs hw
      simp only [strLen_eq hw, Chat.register, hprocess, ok_bind, pure_eq_ok]
      exact ⟨_, rfl⟩
  | count buf => exact ⟨_, rfl⟩
  | closed => exact ⟨_, rfl⟩

/-- If every received buffer holds a C string, every entry has a pair for
`"msg"` with both strings well formed, its frame is built without a fault, and
no step of a thread faults. -/
theorem lookups_never_fail (h : Run Step (Receives fun buf => ∃ w, CStr buf w) .init s) :
    (∀ k < s.reg.size, ∃ chat e key value v, s.reg.cells.load k = .ok chat ∧ 0 < chat.size ∧
      (getStringFrom (cstr msgKey) >>= findKey chat) = .ok (some e) ∧
      e = ⟨some key, some value⟩ ∧ key.Holds msgKey ∧ key.WellFormed ∧
      value.Holds v ∧ value.WellFormed ∧ syncEntry s.reg k = .ok (frame v)) ∧
    ∀ c r, ∃ s', Step s (c, r) s' := by
  obtain ⟨a, _, hR⟩ := run_refines (H := fun _ _ => True) h fun _ _ _ _ _ _ _ => trivial
  constructor
  · intro k hk
    rw [hR.logs.size_eq] at hk
    have hget := List.getElem?_eq_getElem hk
    obtain ⟨js, j, hjs, hj, hrecord⟩ := hR.logs.record_at hget
    obtain ⟨hlt, rfl⟩ := List.getElem?_eq_some_iff.mp hj
    obtain ⟨hpos, e, key, value, hfind, he, hkey, hvalue⟩ := hrecord.found
    exact ⟨js[k], e, key, value, _, hjs.load_eq hlt, hpos, hfind, he, hkey, hkey.wellFormed, hvalue,
      hvalue.wellFormed, hR.logs.syncEntry_eq hget⟩
  · intro c r
    refine hR.progress (fun buf hbuf => ?_) r
    exact h.invariant (I := fun s => ∀ d buf, (s.client d).pc.buffer = some buf → ∃ w, CStr buf w)
      (by simp [Chat.init, Client.fresh, Pc.buffer])
      (fun _ l _ hl ih hs => step_buffers (c := l.1) (r := l.2) ih hl hs) c buf hbuf

theorem lookups_never_fail_turns : ∃ s : Chat Bool, s.reg.size = 1 ∧
    (∀ k < s.reg.size, ∃ chat e key value v, s.reg.cells.load k = .ok chat ∧ 0 < chat.size ∧
      (getStringFrom (cstr msgKey) >>= findKey chat) = .ok (some e) ∧
      e = ⟨some key, some value⟩ ∧ key.Holds msgKey ∧ key.WellFormed ∧
      value.Holds v ∧ value.WellFormed ∧ syncEntry s.reg k = .ok (frame v)) ∧
    ∀ c r, ∃ s', Step s (c, r) s' := by
  obtain ⟨s, hrun, hsize, _⟩ := turns_orderly
  refine ⟨s, hsize, lookups_never_fail (hrun.mono fun _ _ hG hpc hflag => ?_)⟩
  obtain ⟨w, hw, _⟩ := hG.1 hpc hflag
  exact ⟨w, hw⟩

/-! ## Exactness -/

/-- An orderly run is a run of appends at the end of the log. -/
theorem orderly_refines (h : Orderly s) :
    ∃ a, Run Broadcast.Step Broadcast.AtEnd .fresh a ∧ s.Refines a := by
  refine run_refines (run_buffers h fun _ _ hG => hG.1) ?_
  rintro s b l e ⟨⟨_, hcursor⟩, hbuffers⟩ hR hallows
  have hc := hR.client l.1
  cases hallows with
  | @append buf x hpc =>
      refine ⟨?_, hc.not_owing (by simp [hpc])⟩
      rw [← hc.cursor, ← hR.logs.size_eq]
      exact (hcursor buf hpc).symm
  | deliver hpc => trivial
  | @count buf hpc => exact hc.owing.mpr ⟨buf, hpc, hbuffers l.1 buf (by rw [hpc]; rfl)⟩

theorem orderly_exact (h : Orderly s) (c : ι) : Exact s c := by
  obtain ⟨a, hrun, hR⟩ := orderly_refines h
  have hexact := Broadcast.run_exact hrun c
  intro k hk hsize
  rw [(hR.client c).cursor] at hk
  rw [hR.logs.size_eq] at hsize
  have hget := List.getElem?_eq_getElem hsize
  rw [(hR.client c).indices_eq, hexact.seen_iff k _ _ hk hget, hR.logs.addedBy,
    List.getElem?_map, hget]
  simp

/-- In an orderly run, a message that is not processed at the cursor leaves its
author without an entry of another client. -/
theorem late_registration_skips (h : Orderly s) {buf : Block Byte}
    (hpc : (s.client c).pc = .process buf) (hbuf : Accepted buf)
    (hlate : s.reg.size ≠ (s.client c).msgcounter) {r r' : Recv} (hs₁ : Step s (c, r) s₁)
    (hs₂ : Step s₁ (c, r') s₂) : ¬ Exact s₂ c := by
  obtain ⟨a, hrun, hR⟩ := orderly_refines h
  obtain ⟨w, hw, haccept⟩ := hbuf
  have hc := hR.client c
  rw [hR.logs.size_eq, hc.cursor] at hlate
  obtain ⟨k, b, x, hk, hget, hunsent, hother⟩ := Broadcast.late_append_not_exact
    (Broadcast.run_exact hrun c) (hc.not_owing (by simp [hpc])) (Ne.symm hlate)
  obtain ⟨hlt, _⟩ := List.getElem?_eq_some_iff.mp hget
  -- the two steps: the registration and the count
  obtain ⟨t, hregister, rfl⟩ := process_step hpc hs₁
  have hlogs := hR.logs.register hw hregister
  rw [if_pos haccept] at hlogs
  have hcount : ((t.set c { s.client c with pc := .count buf }).client c).pc = .count buf := by
    rw [set_client_self]
  have hcounted := count_step hcount hs₂
  rw [set_set, set_client_self] at hcounted
  subst hcounted
  have hsize : t.reg.size = a.log.length + 1 := by
    rw [hlogs.size_eq, List.length_append, List.length_singleton]
  intro hexact
  have hsent : k ∉ (s.client c).indices := by
    rw [hc.indices_eq]
    exact hunsent
  have hbelow : k < (s.client c).msgcounter + 1 := by
    rw [hc.cursor]
    exact hk
  have hstored : k < t.reg.size := by
    rw [hsize]
    exact Nat.lt_succ_of_lt hlt
  have hown := (hexact k (by rwa [set_client_self]) hstored).mp (by rwa [set_client_self])
  rw [set_addedBy, hlogs.addedBy, List.map_append,
    List.getElem?_append_left (by rwa [List.length_map]), List.getElem?_map, hget] at hown
  exact hother (Option.some.inj hown)

/-- In an orderly run every client is exact, between its `addReg` and its
`msgcounter++` too.  After the next message is counted its author is exact if
and only if it was processed at the cursor. -/
theorem broadcast_exact (h : Orderly s) :
    (∀ c, Exact s c) ∧
    ∀ c buf r r' s₁ s₂, (s.client c).pc = .process buf → Accepted buf → Step s (c, r) s₁ →
      Step s₁ (c, r') s₂ → (Exact s₂ c ↔ s.reg.size = (s.client c).msgcounter) := by
  refine ⟨orderly_exact h, ?_⟩
  intro c buf r r' s₁ s₂ hpc hbuf hs₁ hs₂
  constructor
  · intro hexact
    by_contra hlate
    exact late_registration_skips h hpc hbuf hlate hs₁ hs₂ hexact
  · intro hat
    have hcount : (s₁.client c).pc = .count buf := by
      obtain ⟨t, _, rfl⟩ := process_step hpc hs₁
      rw [set_client_self]
    have h₁ : Orderly s₁ :=
      .step h ⟨fun hrecv => by simp [hpc] at hrecv, fun _ _ => hat⟩ hs₁
    have h₂ : Orderly s₂ :=
      .step h₁ ⟨fun hrecv => by simp [hcount] at hrecv, fun _ hproc => by simp [hcount] at hproc⟩
        hs₂
    exact orderly_exact h₂ c

theorem broadcast_exact_turns : ∃ s : Chat Bool, (s.client true).msgcounter = 1 ∧
    (∀ c, Exact s c) ∧
    ∀ c buf r r' s₁ s₂, (s.client c).pc = .process buf → Accepted buf → Step s (c, r) s₁ →
      Step s₁ (c, r') s₂ → (Exact s₂ c ↔ s.reg.size = (s.client c).msgcounter) := by
  obtain ⟨s, hrun, _, _, hcounter⟩ := turns_orderly
  exact ⟨s, hcounter, broadcast_exact hrun⟩

/-- In a run of two messages the first client is not sent the entry of the
second, and is sent its own. -/
theorem race_skips_entry : ∃ s : Chat Bool, Run Step (Receives Accepted) .init s ∧
    (s.client false).pc = .sync ∧ s.addedBy = [true, false] ∧
    (s.client false).msgcounter = 2 ∧ (s.client false).indices = [1] ∧ ¬ Exact s false := by
  have hview : (replay (fun (s : Chat Bool) l => (s.step l.1 l.2).toOption) race .init).map
      (fun s => (s.reg.size, (s.client false).pc, s.addedBy, (s.client false).msgcounter,
        (s.client false).indices)) = some (2, .sync, [true, false], 2, [1]) := by
    decide +kernel
  have haccepted : ∀ l ∈ race, Accepted l.2.buf := by simp [race, msgA_accepted, msgB_accepted]
  have hstep : ∀ l ∈ race, ∀ s s', (s.step l.1 l.2).toOption = some s' →
      Receives Accepted s l ∧ Step s l s' :=
    fun l hl s s' hs => ⟨fun _ _ => haccepted l hl, toOption_eq_some hs⟩
  obtain ⟨s, hrun, hview⟩ := replay_view hstep hview
  simp only [Prod.mk.injEq] at hview
  obtain ⟨hsize, hpc, hadded, hcounter, hsent⟩ := hview
  refine ⟨s, hrun, hpc, hadded, hcounter, hsent, fun hexact => ?_⟩
  have hfirst := hexact 0 (by rw [hcounter]; exact Nat.two_pos) (by rw [hsize]; exact Nat.two_pos)
  rw [hsent, hadded] at hfirst
  exact absurd (hfirst.mp (by decide)) (by decide)

end Delivery

end TelnetChat.Vip
