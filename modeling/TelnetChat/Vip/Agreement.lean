import TelnetChat.Vip.Conversation
import TelnetChat.Vip.Sending

/-!
# One conversation

The bytes that a client receives are the frames of entries in the order of the
registry, cut anywhere.  It misses no more of the entries that its thread passed than
the thread received messages of the client itself.  So a client that has sent nothing
receives the registry from its first entry on, and of two such clients one has
received what the other has, and maybe more (`conversation_ordered`).

This holds in every interleaving, and however the bytes are cut, if each `send` takes
the whole message.
-/

namespace TelnetChat.Vip

open CRuntime TelnetChat Machine

/-- What the clients receive is one conversation. -/
structure World.Ordered {ι : Type} (s : World ι) : Prop where
  /-- A client is sent the frames of entries that its thread has passed, in order, each at
  most once. -/
  frames : ∃ fs, entryFrames s.chat.reg 0 s.chat.reg.size = .ok fs ∧
    (∀ f ∈ fs, ∃ v, s.Said v ∧ f = frame v) ∧
    ∀ c, ∃ gs, gs.Sublist (fs.take (s.chat.client c).msgcounter) ∧
      (s.down c).received <+: gs.flatten ∧
      (s.chat.client c).msgcounter ≤ gs.length + (s.chat.client c).received.length ∧
      ((s.chat.client c).received = [] → gs <+: fs)
  listeners : ∀ c d, (s.chat.client c).received = [] → (s.chat.client d).received = [] →
    (s.down c).received <+: (s.down d).received ∨ (s.down d).received <+: (s.down c).received

section Agreement

variable {ι : Type} [DecidableEq ι] {s s' : World ι} {c d : ι}

/-- The bytes on the way to a client are the frames that its thread sent. -/
def World.Sends (s : World ι) : Prop :=
  ∀ c, (s.down c).total = ((s.chat.client c).sent.map Sent.frame).flatten

theorem World.Sends.server {n : Option Nat} (h : s.Sends) (hs : s.server c n none = .ok s') :
    s'.Sends := by
  obtain ⟨r, _, hrest⟩ := bind_eq_ok.mp hs
  obtain ⟨chat, hstep, hpure⟩ := bind_eq_ok.mp hrest
  cases hpure
  have hstep : Step s.chat (c, r) chat := hstep
  intro d
  rcases eq_or_ne d c with rfl | hne
  · simp only [Function.update_self, Channel.total_send, h d]
    rw [← List.flatten_append, append_framesSince (step_sent hstep)]
  · simp only [Function.update_of_ne hne, step_client_of_ne hstep hne]
    exact h d

theorem World.Sends.testchat {rand : Nat → Nat} {n : Option Nat} (h : s.Sends)
    (hs : s.testchat c rand n none = .ok s') : s'.Sends := by
  rw [World.testchat] at hs
  split at hs
  · obtain ⟨r, _, hrest⟩ := bind_eq_ok.mp hs
    obtain ⟨_, _, hpure⟩ := bind_eq_ok.mp hrest
    cases hpure
    intro d
    rcases eq_or_ne d c with rfl | hne
    · simp only [Function.update_self, (recvFrom_returns (s.down d) n).1]
      exact h d
    · simp only [Function.update_of_ne hne]
      exact h d
  · obtain ⟨_, _, hrest⟩ := bind_eq_ok.mp hs
    obtain ⟨_, _, hpure⟩ := bind_eq_ok.mp hrest
    cases hpure
    exact h

theorem run_sends (h : Run WorldStep (fun _ e => e.whole = true) .init s) : s.Sends := by
  apply h.invariant (I := World.Sends) (fun _ => rfl)
  intro s e s' hwhole hI hs
  cases e with
  | server c n taken =>
      obtain rfl : taken = none := Option.isNone_iff_eq_none.mp hwhole
      exact hI.server hs
  | client c rand n taken =>
      obtain rfl : taken = none := Option.isNone_iff_eq_none.mp hwhole
      exact hI.testchat hs

/-! ### The frames of the entries -/

/-- The entries have frames, each of a value that was said. -/
theorem World.Inv.entryFrames (h : s.Inv) :
    ∃ fs, entryFrames s.chat.reg 0 s.chat.reg.size = .ok fs ∧
      ∀ f ∈ fs, ∃ v, s.Said v ∧ f = frame v := by
  have hentries : ∀ k < s.chat.reg.size, ∃ f, syncEntry s.chat.reg (0 + k) = .ok f := by
    intro k hk
    obtain ⟨_, v, _, _, _, _, hframe⟩ := h.frame_said hk
    exact ⟨frame v, by rw [Nat.zero_add, hframe]⟩
  obtain ⟨fs, hfs⟩ := entryFrames_returns hentries
  obtain ⟨hlen, hget⟩ := entryFrames_getElem? hfs
  refine ⟨fs, hfs, fun f hf => ?_⟩
  obtain ⟨k, hk⟩ := List.getElem?_of_mem hf
  obtain ⟨hlt, _⟩ := List.getElem?_eq_some_iff.mp hk
  obtain ⟨b, v, t, _, ht, hv, hframe⟩ := h.frame_said (hlen ▸ hlt)
  have hsync := hget k f hk
  rw [Nat.zero_add, hframe, Except.ok.injEq] at hsync
  exact ⟨v, ⟨b, t, ht, hv⟩, hsync.symm⟩

/-- A client is sent frames of the entries below its cursor in order, and those of the
first entries if it sent nothing. -/
theorem World.Inv.sent_frames (h : s.Inv) {fs : List (List Byte)}
    (hfs : Vip.entryFrames s.chat.reg 0 s.chat.reg.size = .ok fs) (c : ι) :
    ((s.chat.client c).sent.map Sent.frame).Sublist (fs.take (s.chat.client c).msgcounter) ∧
      (s.chat.client c).msgcounter ≤
        (s.chat.client c).sent.length + (s.chat.client c).received.length ∧
      ((s.chat.client c).received = [] → (s.chat.client c).sent.map Sent.frame <+: fs) := by
  obtain ⟨a, hrun, hR⟩ := run_refines (H := fun _ _ => True) h.chat.reachable
    fun _ _ _ _ _ _ _ => trivial
  have hordered := Broadcast.run_ordered hrun c
  have horder := hR.inOrder hordered
  have hcounts := run_counts h.chat.reachable c
  rw [Client.Counts] at hcounts
  obtain ⟨hlen, hget⟩ := entryFrames_getElem? hfs
  let reads := (s.chat.client c).sent.map fun d => (d.index, d.frame)
  have hindices : reads.map Prod.fst = (s.chat.client c).indices := List.map_map ..
  have hframes : reads.map Prod.snd = (s.chat.client c).sent.map Sent.frame := List.map_map ..
  have hreads : ∀ r ∈ reads, fs[r.1]? = some r.2 := by
    intro r hr
    obtain ⟨d, hd, rfl⟩ := List.mem_map.mp hr
    obtain ⟨hlt, hle, hsync⟩ := horder.entries d hd
    obtain ⟨f, hf⟩ : ∃ f, fs[d.index]? = some f :=
      ⟨_, List.getElem?_eq_getElem (by omega)⟩
    have hsync' := hget _ f hf
    rw [Nat.zero_add, hsync, Except.ok.injEq] at hsync'
    rw [hf, hsync']
  rw [← hframes]
  refine ⟨?_, ?_, fun hnone => ?_⟩
  · apply sublist_of_reads
    · rw [hindices]
      exact horder.increasing
    · intro r hr
      obtain ⟨d, hd, rfl⟩ := List.mem_map.mp hr
      have hindex : d.index ∈ (s.chat.client c).indices := List.mem_map_of_mem hd
      rw [(hR.client c).indices_eq] at hindex
      have hbelow := hordered.below _ hindex
      rw [← (hR.client c).cursor] at hbelow
      rw [List.getElem?_take_of_lt hbelow]
      exact hreads _ (List.mem_map_of_mem hd)
  · have htotal := horder.total
    omega
  · rw [hnone, List.length_nil, (hR.client c).counted] at hcounts
    apply prefix_of_reads (n := (a.reader c).cursor) _ hreads
    rw [hindices, (hR.client c).indices_eq]
    exact (hordered.indices_eq_range (Nat.eq_zero_of_add_eq_zero_right hcounts)).1

/-- All clients receive the same conversation: frames of what was said, in the order of
the registry.  Of two clients that have sent nothing, one has received what the other
has, and maybe more. -/
theorem conversation_ordered (h : Run WorldStep (fun _ e => e.whole = true) .init s) :
    s.Ordered := by
  have hI := run_inv h
  have hsends := run_sends h
  obtain ⟨fs, hfs, hsaid⟩ := hI.entryFrames
  have hreceived : ∀ c, (s.down c).received <+:
      ((s.chat.client c).sent.map Sent.frame).flatten := by
    intro c
    rw [← hsends c]
    exact List.prefix_append _ _
  constructor
  · refine ⟨fs, hfs, hsaid, fun c => ⟨_, (hI.sent_frames hfs c).1, hreceived c, ?_, ?_⟩⟩
    · rw [List.length_map]
      exact (hI.sent_frames hfs c).2.1
    · exact (hI.sent_frames hfs c).2.2
  · intro c d hc hd
    have hstart : ∀ c, (s.chat.client c).received = [] →
        (s.down c).received <+: fs.flatten :=
      fun c hnone => (hreceived c).trans ((hI.sent_frames hfs c).2.2 hnone).flatten
    exact List.prefix_or_prefix_of_prefix (hstart c hc) (hstart d hd)

/-- A message goes from one client to the other, in pieces. -/
theorem conversation_ordered_relayed : ∃ s : World Bool,
    (s.down false).received = bytes "msg:ab" ∧ s.Ordered := by
  have hview : (replay (fun (s : World Bool) e => (s.step e).toOption) relayed .init).map
      (fun s => (s.down false).received) = some (bytes "msg:ab") := by
    decide +kernel
  have hwhole : ∀ e ∈ relayed, e.whole = true := by simp [relayed, WorldEvent.whole]
  have hstep : ∀ e ∈ relayed, ∀ s s', (World.step s e).toOption = some s' →
      e.whole = true ∧ WorldStep s e s' :=
    fun e he _ _ hs => ⟨hwhole e he, toOption_eq_some hs⟩
  obtain ⟨s, hrun, hview⟩ := replay_view hstep hview
  exact ⟨s, hview, conversation_ordered hrun⟩

end Agreement

end TelnetChat.Vip
