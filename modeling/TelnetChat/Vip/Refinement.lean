import TelnetChat.Machine.Broadcast
import TelnetChat.Vip.Chat

/-!
# The threads refine a broadcast

The threads of `manageChat` refine the broadcast of `Machine/Broadcast.lean`.
The log is the list of stored values with their authors, and a cursor is a
`msgcounter`.  A thread owes a count between the `addReg` of its message and
`msgcounter++`.  A step of a thread is at most one event (`step_refines`), so a
guarded run of the threads is a guarded run of the broadcast (`run_refines`).
-/

namespace TelnetChat.Vip

open CRuntime TelnetChat Machine

/-- A received text that the server stores. -/
def Accepted (buf : Block Byte) : Prop := ∃ w, CStr buf w ∧ msgPrefix <+: w

/-! ## The log -/

/-- The registry holds the records of the values of `log`, and the authors are
those of `log`. -/
structure Chat.Logs {ι : Type} (s : Chat ι) (log : List (ι × List Byte)) : Prop where
  reg : ∃ js, s.reg.Holds js ∧ List.Forall₂ ChatRecord js (log.map Prod.snd)
  addedBy : s.addedBy = log.map Prod.fst

section Logs

variable {ι : Type} {s s₁ : Chat ι} {log : List (ι × List Byte)} {c : ι}

theorem init_logs : (Chat.init : Chat ι).Logs [] := ⟨⟨[], createRegister_holds, .nil⟩, rfl⟩

theorem Chat.Logs.size_eq (h : s.Logs log) : s.reg.size = log.length := by
  obtain ⟨js, hjs, hrecords⟩ := h.reg
  rw [hjs.size_eq, hrecords.length_eq, List.length_map]

/-- The entry at an index of the log is a record of its value. -/
theorem Chat.Logs.record_at (h : s.Logs log) {k : Nat} {b : ι} {v : List Byte}
    (hk : log[k]? = some (b, v)) :
    ∃ js j, s.reg.Holds js ∧ js[k]? = some j ∧ ChatRecord j v := by
  obtain ⟨js, hjs, hrecords⟩ := h.reg
  obtain ⟨hlt, heq⟩ := List.getElem?_eq_some_iff.mp hk
  have hlen := hrecords.length_eq
  rw [List.length_map] at hlen
  have hrecord := hrecords.get (i := k) (by omega) (by rwa [List.length_map])
  simp only [List.get_eq_getElem, List.getElem_map, heq] at hrecord
  exact ⟨js, _, hjs, List.getElem?_eq_getElem (by omega), hrecord⟩

theorem ChatRecord.unique {j : Json} {v v' : List Byte} (h : ChatRecord j v)
    (h' : ChatRecord j v') : v = v' := by
  obtain ⟨es, hes, hps⟩ := h
  obtain ⟨es', hes', hps'⟩ := h'
  obtain rfl := hes.unique hes'
  cases hps with
  | cons he hnil =>
      cases hps' with
      | cons he' _ =>
          obtain ⟨value, hslot, hv⟩ := slot_written he.2
          obtain ⟨value', hslot', hv'⟩ := slot_written he'.2
          obtain rfl : value = value' := Option.some.inj (hslot.symm.trans hslot')
          exact hv.unique hv'

/-- A state has one log. -/
theorem Chat.Logs.unique {log' : List (ι × List Byte)} (h : s.Logs log) (h' : s.Logs log') :
    log = log' := by
  obtain ⟨js, hjs, hrecords⟩ := h.reg
  obtain ⟨js', hjs', hrecords'⟩ := h'.reg
  obtain rfl := hjs.unique hjs'
  have hvalues : log.map Prod.snd = log'.map Prod.snd :=
    List.right_unique_forall₂' (fun _ _ _ hv hv' => hv.unique hv') hrecords hrecords'
  rw [List.zip_of_prod (h.addedBy.symm.trans h'.addedBy) hvalues, ← List.zip_of_prod rfl rfl]

/-- The frame built for an entry is the frame of its value in the log. -/
theorem Chat.Logs.syncEntry_eq (h : s.Logs log) {k : Nat} {b : ι} {v : List Byte}
    (hk : log[k]? = some (b, v)) : syncEntry s.reg k = .ok (frame v) := by
  obtain ⟨js, j, hjs, hget, hrecord⟩ := h.record_at hk
  obtain ⟨hlt, rfl⟩ := List.getElem?_eq_some_iff.mp hget
  exact Vip.syncEntry_eq hjs hlt hrecord

/-- A registration appends the value of an accepted text, and else does nothing. -/
theorem Chat.Logs.register (h : s.Logs log) {buf : Block Byte} {w : List Byte}
    (hbuf : CStr buf w) (hregister : s.register c buf = .ok s₁) :
    if msgPrefix <+: w then s₁.Logs (log ++ [(c, chatValue w)]) else s₁ = s := by
  obtain ⟨js, hjs, hrecords⟩ := h.reg
  obtain ⟨reg, hprocess, hpure⟩ := bind_eq_ok.mp hregister
  cases hpure
  have hreturns := (processMsgFromClient_returns hjs hbuf).result hprocess
  split
  · rename_i haccept
    rw [if_pos haccept] at hreturns
    obtain ⟨j, hj, hrecord⟩ := hreturns
    have hgrows : reg.size > s.reg.size := by
      rw [hj.size_eq, hjs.size_eq, List.length_append, List.length_singleton]
      exact Nat.lt_succ_self _
    refine ⟨⟨js ++ [j], hj, ?_⟩, ?_⟩
    · rw [List.map_append]
      exact List.rel_append hrecords (.cons hrecord .nil)
    · rw [List.map_append, ← h.addedBy]
      exact if_pos hgrows
  · rename_i hreject
    rw [if_neg hreject] at hreturns
    subst hreturns
    simp

end Logs

/-! ## Refinement -/

/-- The thread is at the cursor of the reader, was sent what the reader was
given, and owes a count when its message was stored. -/
structure Client.Refines (cl : Client) (r : Broadcast.Reader (List Byte)) : Prop where
  cursor : cl.msgcounter = r.cursor
  sent : cl.sent = r.seen.map fun d => ⟨d.index, frame d.entry, d.upto⟩
  counted : cl.counted = r.counted
  owing : r.owing = true ↔ ∃ buf, cl.pc = .count buf ∧ Accepted buf

structure Chat.Refines {ι : Type} (s : Chat ι) (a : Broadcast.State ι (List Byte)) : Prop where
  logs : s.Logs a.log
  client : ∀ c, (s.client c).Refines (a.reader c)

/-- The events the thread of `c` makes, by where it is. -/
inductive Chat.Allows {ι : Type} (s : Chat ι) (c : ι) : Broadcast.Event ι (List Byte) → Prop where
  | append {buf : Block Byte} {x : List Byte} : (s.client c).pc = .process buf →
      s.Allows c (.append c x)
  | deliver : (s.client c).pc = .sync → s.Allows c (.deliver c)
  | count {buf : Block Byte} : (s.client c).pc = .count buf → s.Allows c (.count c)

section Refines

variable {ι : Type} {s s₁ s' : Chat ι} {a : Broadcast.State ι (List Byte)} {c : ι} {r : Recv}

theorem Client.Refines.indices_eq {cl : Client} {rd : Broadcast.Reader (List Byte)}
    (h : cl.Refines rd) : cl.indices = rd.indices := by
  rw [Client.indices, h.sent, List.map_map]
  rfl

theorem init_refines : (Chat.init : Chat ι).Refines .fresh where
  logs := init_logs
  client c := ⟨rfl, rfl, rfl, by simp [Chat.init, Client.fresh, Broadcast.State.fresh,
    Broadcast.Reader.fresh]⟩

/-! ### Single moves -/

section Moves

variable {cl : Client} {rd : Broadcast.Reader (List Byte)}

theorem Client.Refines.not_owing (h : cl.Refines rd) (hpc : ∀ buf, cl.pc ≠ .count buf) :
    rd.owing = false := by
  rw [Bool.eq_false_iff]
  intro howing
  obtain ⟨buf, hbuf, _⟩ := h.owing.mp howing
  exact hpc buf hbuf

/-- A thread that owes nothing moves to a point where it owes nothing. -/
theorem Client.Refines.set_pc (h : cl.Refines rd) (hbefore : ∀ buf, cl.pc ≠ .count buf) {pc : Pc}
    (hafter : ∀ buf, pc = .count buf → ¬ Accepted buf) :
    Client.Refines { cl with pc := pc } rd where
  cursor := h.cursor
  sent := h.sent
  counted := h.counted
  owing := by
    rw [h.not_owing hbefore]
    constructor
    · intro howing
      cases howing
    · rintro ⟨buf, hbuf, haccepted⟩
      exact absurd haccepted (hafter buf hbuf)

theorem Client.Refines.receive (h : cl.Refines rd) (hpc : cl.pc = .recv) (r : Recv) :
    (cl.receive r).Refines rd := by
  have hbefore : ∀ buf, cl.pc ≠ .count buf := by simp [hpc]
  unfold Client.receive
  split
  · exact h.set_pc hbefore (by simp)
  · split
    · have hset : Client.Refines { cl with pc := .process r.buf } rd :=
        h.set_pc hbefore (by simp)
      exact ⟨hset.cursor, hset.sent, hset.counted, hset.owing⟩
    · exact h.set_pc hbefore (by simp)

theorem Client.Refines.deliver (h : cl.Refines rd) (hpc : cl.pc = .sync) (v : List Byte)
    (size : Nat) : (cl.deliver (frame v) size).Refines (rd.deliver v size) where
  cursor := congrArg (· + 1) h.cursor
  sent := by
    simp only [Client.deliver, Broadcast.Reader.deliver, List.map_append, List.map_singleton,
      h.sent, h.cursor]
  counted := h.counted
  owing := by
    have howing := h.not_owing (by simp [hpc])
    simp [Client.deliver, Broadcast.Reader.deliver, howing, hpc]

theorem Client.Refines.count (h : cl.Refines rd) : cl.count.Refines rd.count where
  cursor := congrArg (· + 1) h.cursor
  sent := h.sent
  counted := congrArg (· + 1) h.counted
  owing := by simp [Client.count, Broadcast.Reader.count]

theorem Client.Refines.stored (h : cl.Refines rd) {buf : Block Byte} (hbuf : Accepted buf) :
    Client.Refines { cl with pc := .count buf } { rd with owing := true } where
  cursor := h.cursor
  sent := h.sent
  counted := h.counted
  owing := ⟨fun _ => ⟨buf, rfl, hbuf⟩, fun _ => rfl⟩

end Moves

variable [DecidableEq ι]

/-- The move of one thread and of its reader. -/
theorem set_refines {cl : Client} {rd : Broadcast.Reader (List Byte)}
    (h : ∀ d, (s.client d).Refines (a.reader d)) (hcl : cl.Refines rd) (d : ι) :
    ((s.set c cl).client d).Refines ((a.set c rd).reader d) := by
  rcases eq_or_ne d c with rfl | hd
  · simpa [Broadcast.State.set] using hcl
  · simpa [Broadcast.State.set, hd] using h d

/-- The move of one thread without its reader. -/
theorem Chat.Refines.set_silent {cl : Client} (h : s.Refines a)
    (hcl : cl.Refines (a.reader c)) : (s.set c cl).Refines a where
  logs := ⟨h.logs.reg, h.logs.addedBy⟩
  client := forall_client_set (P := fun d cl => cl.Refines (a.reader d)) h.client hcl

/-- A step of a thread is answered by at most one event. -/
theorem step_refines (h : s.Refines a) (hs : Step s (c, r) s') :
    ∃ a', Run Broadcast.Step (fun b e => b = a ∧ s.Allows c e) a a' ∧ s'.Refines a' := by
  have hc := h.client c
  cases step_moved hs with
  | @silent pc hbefore hafter =>
      refine ⟨a, .init, h.set_silent (hc.set_pc ?_ ?_)⟩
      · intro buf hbuf
        rw [hbuf] at hbefore
        cases hbefore
      · rintro buf rfl
        cases hafter
  | @deliver f hpc hlt hframe =>
      rw [hc.cursor, h.logs.size_eq] at hlt
      obtain ⟨⟨b, v⟩, hget⟩ : ∃ e, a.log[(a.reader c).cursor]? = some e :=
        ⟨_, List.getElem?_eq_getElem hlt⟩
      rw [hc.cursor, h.logs.syncEntry_eq hget, Except.ok.injEq] at hframe
      refine ⟨_, .single ⟨rfl, .deliver hpc⟩ (.deliver hget (hc.not_owing (by simp [hpc]))),
        ⟨h.logs.reg, h.logs.addedBy⟩, ?_⟩
      rw [← hframe, h.logs.size_eq]
      exact set_refines h.client (hc.deliver hpc v a.log.length)
  | receive hpc => exact ⟨a, .init, h.set_silent (hc.receive hpc r)⟩
  | @process buf n s₁ hpc hprint hregister =>
      obtain ⟨w, hw⟩ := exists_cstr_of_strLen hprint
      have heffect := h.logs.register hw hregister
      split at heffect
      · rename_i haccept
        refine ⟨_, .single ⟨rfl, .append hpc⟩ (.append (c := c) (x := chatValue w)),
          ⟨heffect.reg, heffect.addedBy⟩, ?_⟩
        exact set_refines (register_client hregister ▸ h.client) (hc.stored ⟨w, hw, haccept⟩)
      · rename_i hreject
        subst heffect
        refine ⟨a, .init, h.set_silent (hc.set_pc (by simp [hpc]) ?_)⟩
        rintro buf' hbuf' ⟨w', hw', haccept⟩
        cases hbuf'
        exact hreject (hw.unique hw' ▸ haccept)
  | @count buf hpc =>
      exact ⟨_, .single ⟨rfl, .count hpc⟩ .count, ⟨h.logs.reg, h.logs.addedBy⟩,
        set_refines h.client hc.count⟩

/-- A guarded run of the threads is answered by a guarded run of the broadcast. -/
theorem run_refines {G : Chat ι → ι × Recv → Prop}
    {H : Broadcast.State ι (List Byte) → Broadcast.Event ι (List Byte) → Prop}
    (h : Run Step G .init s)
    (hG : ∀ s a l e, G s l → s.Refines a → s.Allows l.1 e → H a e) :
    ∃ a, Run Broadcast.Step H .fresh a ∧ s.Refines a := by
  refine h.simulate (R := Chat.Refines) init_refines fun s l s' a hl hR hs => ?_
  obtain ⟨a', hrun, hR'⟩ := step_refines (c := l.1) (r := l.2) hR hs
  refine ⟨a', hrun.mono ?_, hR'⟩
  rintro b e ⟨rfl, hallows⟩
  exact hG s b l e hl hR hallows

end Refines

end TelnetChat.Vip
