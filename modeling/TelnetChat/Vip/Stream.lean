import TelnetChat.Text.Framing
import TelnetChat.Vip.ChatClient
import TelnetChat.Vip.Delivery

/-!
# Messages over a byte stream

A client sends each message with its NUL, and TCP may cut the bytes anywhere.
`manageChat` takes what one `recv` returns as one message: it keeps the bytes
before the first NUL and drops the others.  Nothing joins the parts of a frame
that arrives in several chunks.

So the entries of a client are prefixes of distinct messages, in order, in any
interleaving with other clients.  They are all the messages, unaltered, if and
only if each frame arrives in a chunk of its own, whose NUL may come alone in
the next chunk (`stream_entries`).
-/

namespace TelnetChat.Vip

open CRuntime TelnetChat Machine

/-! ## What is stored of a buffer -/

/-- The bytes before the first NUL. -/
def textOf : Block Byte → List Byte
  | some x :: b => if x = 0 then [] else x :: textOf b
  | _ => []

/-- The value stored for a received buffer, if one is. -/
def chatEntry (buf : Block Byte) : Option (List Byte) :=
  if msgPrefix <+: textOf buf then some (chatValue (textOf buf)) else none

theorem textOf_eq {b : Block Byte} {w : List Byte} (h : CStr b w) : textOf b = w := by
  obtain ⟨rest, rfl⟩ := h.exists_rest
  have h0 := h.nul_free
  clear h
  induction w with
  | nil => simp [textOf]
  | cons x w ih =>
      obtain ⟨hx, hw⟩ : ¬ 0 = x ∧ 0 ∉ w := by simpa using h0
      simp [textOf, Ne.symm hx, ih hw]

/-- The received buffers that were not processed yet. -/
def Pc.unprocessed : Pc → List (Block Byte)
  | .process buf => [buf]
  | _ => []

/-- The values in a log that are of `c`, oldest first. -/
def authored {ι : Type} [DecidableEq ι] (log : List (ι × List Byte)) (c : ι) :
    List (List Byte) :=
  (log.filter fun e => e.1 = c).map Prod.snd

/-- The entries of `c` are what its processed buffers store. -/
def Client.Stores {ι : Type} [DecidableEq ι] (log : List (ι × List Byte)) (c : ι)
    (cl : Client) : Prop :=
  authored log c ++ cl.pc.unprocessed.filterMap chatEntry = cl.received.filterMap chatEntry

/-- The entries of `c` in the registry, in order, have the values `es`. -/
def Entries {ι : Type} [DecidableEq ι] (s : Chat ι) (c : ι) (es : List (List Byte)) : Prop :=
  ∃ log, s.Logs log ∧ authored log c = es

section Stores

variable {ι : Type} [DecidableEq ι] {s s' : Chat ι} {c d : ι} {r : Recv} {v : List Byte}
  {log : List (ι × List Byte)}

theorem Entries.unique {es es' : List (List Byte)} (h : Entries s c es) (h' : Entries s c es') :
    es = es' := by
  obtain ⟨log, hlog, rfl⟩ := h
  obtain ⟨log', hlog', rfl⟩ := h'
  rw [hlog.unique hlog']

theorem authored_append_self : authored (log ++ [(c, v)]) c = authored log c ++ [v] := by
  simp [authored]

theorem authored_append_of_ne (h : c ≠ d) : authored (log ++ [(c, v)]) d = authored log d := by
  simp [authored, h]

theorem unprocessed_of_buffer {pc : Pc} (h : pc.buffer = none) : pc.unprocessed = [] := by
  cases pc with
  | process buf => cases h
  | _ => rfl

theorem Client.Stores.receive {cl : Client} (h : cl.Stores log c) (hpc : cl.pc = .recv) (r : Recv) :
    (cl.receive r).Stores log c := by
  unfold Client.Stores at h ⊢
  rw [hpc] at h
  unfold Client.receive
  split
  · exact h
  · split
    · simp only [List.filterMap_append, ← h]
      simp [Pc.unprocessed]
    · exact h

/-- The log after a step: the entries of the others are as before, and those of
the thread that moved are what its processed buffers store. -/
theorem mover_stores (hlogs : s.Logs log) (hc : (s.client c).Stores log c)
    (hs : Step s (c, r) s') :
    ∃ log', s'.Logs log' ∧ (∀ d, d ≠ c → authored log' d = authored log d) ∧
      (s'.client c).Stores log' c := by
  cases step_moved hs with
  | silent hbefore hafter =>
      refine ⟨log, ⟨hlogs.reg, hlogs.addedBy⟩, fun _ _ => rfl, ?_⟩
      rw [Client.Stores, unprocessed_of_buffer hbefore] at hc
      rwa [set_client_self, Client.Stores, unprocessed_of_buffer hafter]
  | deliver =>
      refine ⟨log, ⟨hlogs.reg, hlogs.addedBy⟩, fun _ _ => rfl, ?_⟩
      rw [set_client_self]
      exact hc
  | receive hpc =>
      refine ⟨log, ⟨hlogs.reg, hlogs.addedBy⟩, fun _ _ => rfl, ?_⟩
      rw [set_client_self]
      exact hc.receive hpc r
  | @process buf n s₁ hpc hprint hregister =>
      obtain ⟨w, hw⟩ := exists_cstr_of_strLen hprint
      have hlogs₁ := hlogs.register hw hregister
      rw [Client.Stores, hpc] at hc
      split at hlogs₁
      · rename_i haccept
        have hentry : chatEntry buf = some (chatValue w) := by
          rw [chatEntry, textOf_eq hw, if_pos haccept]
        refine ⟨_, ⟨hlogs₁.reg, hlogs₁.addedBy⟩, fun d hd => authored_append_of_ne hd.symm, ?_⟩
        rw [set_client_self, Client.Stores, authored_append_self, ← hc]
        simp [Pc.unprocessed, hentry]
      · rename_i hreject
        subst hlogs₁
        have hentry : chatEntry buf = none := by
          rw [chatEntry, textOf_eq hw, if_neg hreject]
        refine ⟨log, ⟨hlogs.reg, hlogs.addedBy⟩, fun _ _ => rfl, ?_⟩
        rw [set_client_self, Client.Stores, ← hc]
        simp [Pc.unprocessed, hentry]
  | count hpc =>
      refine ⟨log, ⟨hlogs.reg, hlogs.addedBy⟩, fun _ _ => rfl, ?_⟩
      rw [Client.Stores, hpc] at hc
      rw [set_client_self]
      exact hc

theorem step_stores (hlogs : s.Logs log) (h : ∀ d, (s.client d).Stores log d)
    (hs : Step s (c, r) s') : ∃ log', s'.Logs log' ∧ ∀ d, (s'.client d).Stores log' d := by
  obtain ⟨log', hlogs', hothers, hmover⟩ := mover_stores hlogs (h c) hs
  refine ⟨log', hlogs', fun d => ?_⟩
  rcases eq_or_ne d c with rfl | hd
  · exact hmover
  · rw [step_client_of_ne hs hd, Client.Stores, hothers d hd]
    exact h d

theorem run_stores (h : Reachable Step .init s) :
    ∃ log, s.Logs log ∧ ∀ c, (s.client c).Stores log c := by
  refine h.invariant (I := fun s => ∃ log, s.Logs log ∧ ∀ c, (s.client c).Stores log c)
    ⟨[], init_logs, fun _ => rfl⟩ ?_
  rintro s l s' _ ⟨log, hlogs, hstores⟩ hs
  exact step_stores (c := l.1) (r := l.2) hlogs hstores hs

end Stores

/-! ## Chunks -/

/-- What a client that sends the messages passes to `send`. -/
def sendAll : List (List Byte) → Exec (List Byte)
  | [] => pure []
  | v :: vs => do
      let msg ← ChatClient.createColonString (cstr msgKey) (cstr v)
      let sent ← ChatClient.sendMsg msg.string
      let rest ← sendAll vs
      pure (sent ++ rest)

/-- The buffers `manageChat` has when its `recv`s return the chunks. -/
def recvAll : List Chunk → Exec (List (Block Byte))
  | [] => pure []
  | chunk :: cs => do
      let r ← recvFromSocket (.data chunk) (calloc 20)
      let rest ← recvAll cs
      pure (r.buf :: rest)

theorem recvAll_eq (cs : List Chunk) : recvAll cs = .ok (cs.map fun chunk => chunk.recv.buf) := by
  induction cs with
  | nil => rfl
  | cons chunk cs ih =>
      rw [recvAll, recvFromSocket_data, ok_bind, ih]
      rfl

/-- The text of a message. -/
def msgText (v : List Byte) : List Byte := msgPrefix ++ v

section Chunks

variable {v w p : List Byte} {vs ps : List (List Byte)} {chunk : Chunk} {cs : List Chunk}

/-- The client sends the stream of the texts. -/
theorem sendAll_eq (h : ∀ v ∈ vs, 0 ∉ v) :
    sendAll vs = .ok (Framing.stream 0 (vs.map msgText)) := by
  induction vs with
  | nil => rfl
  | cons v vs ih =>
      have hv := h v List.mem_cons_self
      obtain ⟨msg, hmsg, hholds⟩ := createColonString_returns
        (cstr_cstr (by decide) : CStr _ msgKey) (cstr_cstr hv)
      rw [sendAll, ChatClient.createColonString, hmsg, ok_bind, ChatClient.sendMsg,
        sendMsg_eq hholds.text, ok_bind, ih fun v hv => h v (List.mem_cons_of_mem _ hv)]
      simp [msgText, msgPrefix_eq]

/-- No part of a message after its start looks like a message, since its only
separator is the fourth byte. -/
theorem msgText_framed (hcolon : colon ∉ v) (h0 : 0 ∉ v) :
    Framing.Framed 0 (msgPrefix <+: ·) (msgText v) where
  stop_free := by
    rw [msgText, List.mem_append, not_or]
    exact ⟨by decide, h0⟩
  tails x r hx ht y hy hstart := by
    obtain ⟨q, rfl⟩ := hstart
    obtain ⟨a, b, rfl⟩ := hy
    have hsplit : (x ++ a ++ msgKey ++ [colon]) ++ (q ++ b) = msgKey ++ colon :: v := by
      rw [msgText, msgPrefix_eq] at ht
      simpa using ht.symm
    have hlen := List.length_pos_iff.mpr hx
    rcases Framing.cut hsplit with ⟨r, hkey, _⟩ | ⟨x', hx', hv⟩
    · have heq := congrArg List.length hkey
      simp only [List.length_append, List.length_singleton] at heq
      omega
    · -- the separator is the last byte of `x'`, a part of the value
      have heq := congrArg List.length hx'
      have hlast := congrArg List.getLast? hx'
      cases x' with
      | nil =>
          simp only [List.length_append, List.length_cons, List.length_nil] at heq
          omega
      | cons z x' =>
          obtain ⟨y, hy⟩ : ∃ y, (z :: x').getLast? = some y :=
            ⟨_, List.getLast?_eq_some_getLast (List.cons_ne_nil z x')⟩
          rw [List.getLast?_concat, List.getLast?_append, List.getLast?_cons_cons, hy,
            Option.some_or, Option.some.injEq] at hlast
          exact hcolon (hv ▸ List.mem_append_left _ (hlast ▸ List.mem_of_getLast? hy))

/-- A buffer that holds a C string was not filled, or has a NUL received. -/
theorem textOf_recv (h : CStr chunk.recv.buf w) :
    textOf chunk.recv.buf = Framing.reading 0 chunk.bytes := by
  refine textOf_eq (Chunk.recv_cstr ?_)
  rcases Nat.lt_or_ge chunk.bytes.length 20 with hlt | hge
  · exact Or.inr hlt
  · have hnul : some 0 ∈ chunk.recv.buf := h.starts.subset (by simp)
    rw [Chunk.recv, Nat.sub_eq_zero_of_le hge] at hnul
    exact Or.inl (by simpa [calloc] using hnul)

/-- What the chunks store is what is kept of them. -/
theorem chatEntries_eq (h : ∀ chunk ∈ cs, ∃ w, CStr chunk.recv.buf w) :
    (cs.map fun chunk => chunk.recv.buf).filterMap chatEntry =
      (Framing.reads 0 (msgPrefix <+: ·) (cs.map Chunk.bytes)).map chatValue := by
  induction cs with
  | nil => rfl
  | cons chunk cs ih =>
      obtain ⟨w, hw⟩ := h chunk List.mem_cons_self
      have ih := ih fun chunk hchunk => h chunk (List.mem_cons_of_mem _ hchunk)
      rw [List.map_cons, List.map_cons, List.filterMap_cons, chatEntry, textOf_recv hw]
      by_cases hgood : msgPrefix <+: Framing.reading 0 chunk.bytes
      · rw [if_pos hgood, Framing.reads_cons_of_good hgood, List.map_cons, ih]
      · rw [if_neg hgood, Framing.reads_cons_of_not_good hgood, ih]

/-- A kept reading of a message is a message whose value is a prefix. -/
theorem chatValue_of_prefix (h : p <+: msgText v) (hp : msgPrefix <+: p) (hcolon : colon ∉ v) :
    msgText (chatValue p) = p ∧ chatValue p <+: v := by
  obtain ⟨q, rfl⟩ := hp
  have hq : q <+: v := (List.prefix_append_right_inj msgPrefix).mp h
  have hqc : colon ∉ q := fun hmem => hcolon (hq.subset hmem)
  rw [chatValue_append, Text.takeWhile_of_notMem hqc]
  exact ⟨rfl, hq⟩

theorem chatValues_of_prefix (h : List.Forall₂ (· <+: ·) ps (vs.map msgText))
    (hps : ∀ p ∈ ps, msgPrefix <+: p) (hcolon : ∀ v ∈ vs, colon ∉ v) :
    (ps.map chatValue).map msgText = ps ∧ List.Forall₂ (· <+: ·) (ps.map chatValue) vs := by
  induction vs generalizing ps with
  | nil =>
      cases h
      exact ⟨rfl, .nil⟩
  | cons v vs ih =>
      cases h with
      | @cons p _ ps _ hp hrest =>
          obtain ⟨htext, hstarts⟩ := chatValue_of_prefix hp (hps p List.mem_cons_self)
            (hcolon v List.mem_cons_self)
          obtain ⟨htexts, hvalues⟩ := ih hrest (fun p hp => hps p (List.mem_cons_of_mem _ hp))
            fun v hv => hcolon v (List.mem_cons_of_mem _ hv)
          exact ⟨by rw [List.map_cons, List.map_cons, htext, htexts], .cons hstarts hvalues⟩

theorem chatValues_msgText (hcolon : ∀ v ∈ vs, colon ∉ v) :
    (vs.map msgText).map chatValue = vs := by
  rw [List.map_map]
  refine (List.map_congr_left fun v hv => ?_).trans (List.map_id vs)
  rw [Function.comp, msgText, chatValue_append, Text.takeWhile_of_notMem (hcolon v hv)]
  rfl

/-- The values kept of a cut stream of messages. -/
theorem cut_values {bs : List (List Byte)} (hvs : ∀ v ∈ vs, colon ∉ v ∧ 0 ∉ v)
    (hne : ∀ b ∈ bs, b ≠ []) (hflat : bs.flatten = Framing.stream 0 (vs.map msgText)) :
    (∃ vs', List.Forall₂ (· <+: ·)
        ((Framing.reads 0 (msgPrefix <+: ·) bs).map chatValue) vs' ∧ vs'.Sublist vs) ∧
    ((Framing.reads 0 (msgPrefix <+: ·) bs).map chatValue = vs ↔
      Framing.Whole 0 (vs.map msgText) bs) := by
  have hframed : ∀ t ∈ vs.map msgText, Framing.Framed 0 (msgPrefix <+: ·) t ∧ msgPrefix <+: t := by
    intro t ht
    obtain ⟨v, hv, rfl⟩ := List.mem_map.mp ht
    exact ⟨msgText_framed (hvs v hv).1 (hvs v hv).2, List.prefix_append _ _⟩
  have hgood : ∀ p ∈ Framing.reads 0 (msgPrefix <+: ·) bs, msgPrefix <+: p := fun p hp =>
    of_decide_eq_true (List.mem_filter.mp hp).2
  obtain ⟨us, hus, hsub⟩ := Framing.reads_prefixes (fun t ht => (hframed t ht).1) hne hflat
  obtain ⟨vs', hsub', rfl⟩ := List.sublist_map_iff.mp hsub
  obtain ⟨htexts, hvalues⟩ := chatValues_of_prefix hus hgood fun v hv => (hvs v (hsub'.subset hv)).1
  refine ⟨⟨vs', hvalues, hsub'⟩, ?_⟩
  rw [← Framing.reads_eq_iff (by decide) hframed hne hflat]
  constructor
  · intro heq
    rw [← htexts, heq]
  · intro heq
    rw [heq, chatValues_msgText fun v hv => (hvs v hv).1]

/-- No chunk of a stream of short frames fills the buffer without a NUL. -/
theorem cut_cstr (hvs : ∀ v ∈ vs, (frame v).length ≤ 20)
    (hflat : (cs.map Chunk.bytes).flatten = Framing.stream 0 (vs.map msgText)) :
    ∀ chunk ∈ cs, ∃ w, CStr chunk.recv.buf w := by
  intro chunk hchunk
  refine ⟨_, Chunk.recv_cstr ?_⟩
  by_cases hnul : 0 ∈ chunk.bytes
  · exact Or.inl hnul
  · have hinfix : chunk.bytes <:+: Framing.stream 0 (vs.map msgText) := by
      rw [← hflat]
      exact List.infix_of_mem_flatten (List.mem_map_of_mem hchunk)
    rcases Framing.infix_of_stream hinfix hnul with hnil | ⟨t, ht, hpart⟩
    · exact absurd hnil chunk.ne_nil
    · obtain ⟨v, hv, rfl⟩ := List.mem_map.mp ht
      have hlen := hvs v hv
      have hle := hpart.length_le
      rw [frame, ← msgText, List.length_append, List.length_singleton] at hlen
      exact Or.inr (by omega)

end Chunks

/-! ## Any segmentation -/

section Stream

variable {ι : Type} [DecidableEq ι] {s : Chat ι} {c : ι} {vs : List (List Byte)}
  {cs : List Chunk}

/-- However the stream is cut and whatever the other clients do: every buffer
holds a C string, the entries are prefixes of distinct messages in order, and
they are the messages if and only if each frame arrives in a chunk of its own. -/
theorem stream_entries (h : Reachable Step .init s)
    (hvs : ∀ v ∈ vs, colon ∉ v ∧ 0 ∉ v ∧ (frame v).length ≤ 20)
    (hsent : sendAll vs = .ok (cs.map Chunk.bytes).flatten)
    (hrecv : recvAll cs = .ok (s.client c).received)
    (hpc : ∀ buf, (s.client c).pc ≠ .process buf) :
    (∀ chunk ∈ cs, ∃ w, CStr chunk.recv.buf w) ∧
    ∃ es, Entries s c es ∧
      (∃ vs', List.Forall₂ (· <+: ·) es vs' ∧ vs'.Sublist vs) ∧
      (es = vs ↔ Framing.Whole 0 (vs.map msgText) (cs.map Chunk.bytes)) := by
  obtain ⟨log, hlogs, hstores⟩ := run_stores h
  have hflat : (cs.map Chunk.bytes).flatten = Framing.stream 0 (vs.map msgText) := by
    rw [sendAll_eq fun v hv => (hvs v hv).2.1, Except.ok.injEq] at hsent
    exact hsent.symm
  have hne : ∀ b ∈ cs.map Chunk.bytes, b ≠ [] := by
    intro b hb
    obtain ⟨chunk, _, rfl⟩ := List.mem_map.mp hb
    exact chunk.ne_nil
  have hcstr := cut_cstr (fun v hv => (hvs v hv).2.2) hflat
  have hentries : authored log c =
      (Framing.reads 0 (msgPrefix <+: ·) (cs.map Chunk.bytes)).map chatValue := by
    have hc := hstores c
    have hdone : (s.client c).pc.unprocessed = [] := by
      cases hpc' : (s.client c).pc with
      | process buf => exact absurd hpc' (hpc buf)
      | _ => rfl
    rw [recvAll_eq, Except.ok.injEq] at hrecv
    rw [Client.Stores, hdone, ← hrecv, chatEntries_eq hcstr] at hc
    simpa using hc
  exact ⟨hcstr, _, ⟨log, hlogs, hentries⟩,
    cut_values (fun v hv => ⟨(hvs v hv).1, (hvs v hv).2.1⟩) hne hflat⟩

end Stream

/-! ### Two messages -/

/-- Two frames in one chunk. -/
def chunkAB : Chunk := ⟨chunkA.bytes ++ chunkB.bytes, by decide, by decide⟩

/-- One client whose `recv` returns the chunks one after the other. -/
def receiving (cs : List Chunk) : List (Unit × Recv) :=
  cs.flatMap fun chunk => List.replicate 4 ((), chunk.recv)

theorem receiving_reachable {β : Type} {cs : List Chunk} {view : Chat Unit → β} {v : β}
    (h : (replay (fun s l => (s.step l.1 l.2).toOption) (receiving cs) .init).map view = some v) :
    ∃ s, Reachable Step .init s ∧ view s = v :=
  replay_view (fun _ _ _ _ hs => ⟨trivial, toOption_eq_some hs⟩) h

theorem stream_entries_two_chunks : ∃ s : Chat Unit,
    recvAll [chunkA, chunkB] = .ok (s.client ()).received ∧
    (∀ chunk ∈ [chunkA, chunkB], ∃ w, CStr chunk.recv.buf w) ∧
    ∃ es, Entries s () es ∧
      (∃ vs', List.Forall₂ (· <+: ·) es vs' ∧ vs'.Sublist [bytes "a", bytes "b"]) ∧
      (es = [bytes "a", bytes "b"] ↔
        Framing.Whole 0 ([bytes "a", bytes "b"].map msgText)
          ([chunkA, chunkB].map Chunk.bytes)) := by
  have hview : (replay (fun (s : Chat Unit) l => (s.step l.1 l.2).toOption)
      (receiving [chunkA, chunkB]) .init).map
      (fun s => ((s.client ()).received, (s.client ()).pc)) =
      some ([chunkA.recv.buf, chunkB.recv.buf], .top) := by
    decide +kernel
  obtain ⟨s, hreach, hview⟩ := receiving_reachable hview
  obtain ⟨hbufs, hpc⟩ := Prod.mk.inj hview
  have hrecv : recvAll [chunkA, chunkB] = .ok (s.client ()).received := by
    rw [recvAll_eq, hbufs]
    rfl
  refine ⟨s, hrecv, stream_entries hreach (by decide) ?_ hrecv
    (by simp [hpc])⟩
  rw [sendAll_eq (by decide)]
  rfl

/-- When both frames arrive in one chunk, the second message is lost. -/
theorem joined_frames_lost : ∃ s : Chat Unit, Reachable Step .init s ∧
    sendAll [bytes "a", bytes "b"] = .ok chunkAB.bytes ∧
    recvAll [chunkAB] = .ok (s.client ()).received ∧ (s.client ()).pc = .top ∧
    Entries s () [bytes "a"] ∧ ¬ Entries s () [bytes "a", bytes "b"] := by
  have hview : (replay (fun (s : Chat Unit) l => (s.step l.1 l.2).toOption)
      (receiving [chunkAB]) .init).map (fun s => ((s.client ()).received, (s.client ()).pc)) =
      some ([chunkAB.recv.buf], .top) := by
    decide +kernel
  obtain ⟨s, hreach, hview⟩ := receiving_reachable hview
  obtain ⟨hrecv, hpc⟩ := Prod.mk.inj hview
  obtain ⟨log, hlogs, hstores⟩ := run_stores hreach
  have hentries : Entries s () [bytes "a"] := by
    have hc := hstores ()
    have hstored : [chunkAB.recv.buf].filterMap chatEntry = [bytes "a"] := by decide
    rw [Client.Stores, hrecv, hpc, hstored] at hc
    exact ⟨log, hlogs, by simpa [Pc.unprocessed] using hc⟩
  refine ⟨s, hreach, ?_, ?_, hpc, hentries, fun hboth => ?_⟩
  · rw [sendAll_eq (by decide)]
    rfl
  · rw [recvAll_eq, hrecv]
    rfl
  · exact absurd (hentries.unique hboth) (by decide)

end TelnetChat.Vip
