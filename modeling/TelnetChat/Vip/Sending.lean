import TelnetChat.CRuntime.Socket
import TelnetChat.Vip.Relay

/-!
# What the socket takes of a sync

`syncMsgToClient` moves `msgcounter` on before it sends the frame of an entry,
and `sendMsg` only prints what `send` returned.  The socket is non-blocking, so
it may refuse a frame or take a part of it.  The entry is passed all the same.

The loop sends the frames of all new entries, whatever is taken of them
(`syncToSocket_eq`).  So the client has the whole frames of the entries passed
exactly when every `send` takes all it was asked to (`delivered_iff`).
-/

namespace TelnetChat.Vip

open CRuntime TelnetChat

/-! ## The source -/

/-- `syncMsgToClient` on a socket; it returns the new `msgcounter`.  What `send`
returns is only printed. -/
def syncToSocket (chat_reg : Registry) (msgcounter : Nat) (sock : Socket) : Exec (Nat × Socket) :=
  if chat_reg.size > msgcounter then do
    let frame ← syncEntry chat_reg msgcounter
    let (_msendlen, sock) := sock.send frame
    syncToSocket chat_reg (msgcounter + 1) sock
  else pure (msgcounter, sock)
termination_by chat_reg.size - msgcounter

/-- The frames of `n` entries, from `msgcounter` on. -/
def entryFrames (chat_reg : Registry) (msgcounter n : Nat) : Exec (List (List Byte)) :=
  (List.range' msgcounter n).mapM (syncEntry chat_reg)

/-- The client has what the cursor says: the bytes taken are the whole frames of
the entries passed, and no frame that was refused or cut is among them. -/
structure Delivered (chat_reg : Registry) (msgcounter : Nat) (sock : Socket) (msgcounter' : Nat)
    (sock' : Socket) : Prop where
  bytes : ∃ fs, entryFrames chat_reg msgcounter (msgcounter' - msgcounter) = .ok fs ∧
    sock'.taken = sock.taken ++ fs.flatten
  passed : ∀ k f, syncEntry chat_reg (msgcounter + k) = .ok f → ¬ sock.TakesAll k f.length →
    msgcounter' ≤ msgcounter + k

section Sending

variable {reg : Registry} {msgcounter : Nat} {sock : Socket} {fs : List (List Byte)}

/-! ## The frames of a batch -/

theorem entryFrames_succ (reg : Registry) (msgcounter n : Nat) :
    entryFrames reg msgcounter (n + 1) = (do
      let f ← syncEntry reg msgcounter
      let fs ← entryFrames reg (msgcounter + 1) n
      pure (f :: fs)) := by
  rw [entryFrames, List.range'_succ, List.mapM_cons]
  rfl

theorem entryFrames_getElem? {n : Nat} (h : entryFrames reg msgcounter n = .ok fs) :
    fs.length = n ∧ ∀ k f, fs[k]? = some f → syncEntry reg (msgcounter + k) = .ok f := by
  induction n generalizing msgcounter fs with
  | zero =>
      cases h
      exact ⟨rfl, fun k f hf => by cases hf⟩
  | succ n ih =>
      rw [entryFrames_succ] at h
      obtain ⟨f, hf, hrest⟩ := bind_eq_ok.mp h
      obtain ⟨fs, hfs, hpure⟩ := bind_eq_ok.mp hrest
      cases hpure
      obtain ⟨hlen, hget⟩ := ih hfs
      refine ⟨congrArg (· + 1) hlen, fun k g hg => ?_⟩
      cases k with
      | zero =>
          cases hg
          exact hf
      | succ k =>
          have hentry := hget k g hg
          rwa [Nat.add_assoc, Nat.add_comm 1 k] at hentry

theorem entryFrames_returns {n : Nat} (h : ∀ k < n, ∃ f, syncEntry reg (msgcounter + k) = .ok f) :
    ∃ fs, entryFrames reg msgcounter n = .ok fs := by
  induction n generalizing msgcounter with
  | zero => exact ⟨[], rfl⟩
  | succ n ih =>
      obtain ⟨f, hf⟩ := h 0 n.succ_pos
      have hlater : ∀ k < n, ∃ g, syncEntry reg (msgcounter + 1 + k) = .ok g := by
        intro k hk
        rw [Nat.add_assoc, Nat.add_comm 1 k]
        exact h (k + 1) (Nat.succ_lt_succ hk)
      obtain ⟨fs, hfs⟩ := ih hlater
      replace hf : syncEntry reg msgcounter = .ok f := hf
      exact ⟨f :: fs, by rw [entryFrames_succ, hf, ok_bind, hfs]; rfl⟩

/-- A frame has at least its NUL. -/
theorem sendMsg_ne_nil {msg : Block Byte} {f : List Byte} (h : sendMsg msg = .ok f) : f ≠ [] := by
  obtain ⟨len, hlen, _⟩ := bind_eq_ok.mp h
  obtain ⟨w, hw⟩ := exists_cstr_of_strLen hlen
  rw [sendMsg_eq hw] at h
  cases h
  exact List.append_ne_nil_of_right_ne_nil w (List.cons_ne_nil 0 [])

theorem syncEntry_ne_nil {i : Nat} {f : List Byte} (h : syncEntry reg i = .ok f) : f ≠ [] := by
  simp only [syncEntry, bind_eq_ok] at h
  obtain ⟨_, _, _, _, _, _, _, _, _, _, _, _, _, _, _, _, _, _, _, _, hsend⟩ := h
  exact sendMsg_ne_nil hsend

/-! ## The loop -/

/-- The loop sends one frame for each new entry and passes all of them. -/
theorem syncToSocket_eq (reg : Registry) (msgcounter : Nat) (sock : Socket) :
    syncToSocket reg msgcounter sock = (do
      let fs ← entryFrames reg msgcounter (reg.size - msgcounter)
      pure (max msgcounter reg.size, sock.sendAll fs)) := by
  induction hm : reg.size - msgcounter generalizing msgcounter sock with
  | zero =>
      rw [syncToSocket, if_neg (by omega), Nat.max_eq_left (by omega)]
      rfl
  | succ m ih =>
      rw [syncToSocket, if_pos (by omega), entryFrames_succ]
      cases hf : syncEntry reg msgcounter with
      | error e => rfl
      | ok f =>
          have hmax : max (msgcounter + 1) reg.size = max msgcounter reg.size := by omega
          simp only [ok_bind, ih (msgcounter + 1) (sock.send f).2 (by omega), hmax]
          cases entryFrames reg (msgcounter + 1) m <;> rfl

/-- It passes to `send` what the model without a socket says is sent. -/
theorem syncToSocket_of_sync {sent : List Sent} {p : Nat × List Sent}
    (h : syncMsgToClient reg msgcounter sent = .ok p) (sock : Socket) :
    ∃ new, p.2 = sent ++ new ∧
      syncToSocket reg msgcounter sock = .ok (p.1, sock.sendAll (new.map Sent.frame)) := by
  induction msgcounter, sent using syncMsgToClient.induct reg generalizing sock with
  | case1 msgcounter sent hlt ih =>
      rw [syncMsgToClient, if_pos hlt] at h
      obtain ⟨f, hf, hrest⟩ := bind_eq_ok.mp h
      obtain ⟨new, hnew, hloop⟩ := ih f hrest (sock.send f).2
      refine ⟨⟨msgcounter, f, reg.size⟩ :: new, ?_, ?_⟩
      · rw [hnew, List.append_assoc, List.singleton_append]
      · rw [syncToSocket, if_pos hlt, hf, ok_bind]
        exact hloop
  | case2 msgcounter sent hle =>
      rw [syncMsgToClient, if_neg hle] at h
      cases h
      exact ⟨[], (List.append_nil sent).symm, by rw [syncToSocket, if_neg hle]; rfl⟩

/-- A sync of entries with a frame returns.  When it does, the client has the
whole frames of the entries passed, and of no other, exactly when every `send`
of the sync takes all the bytes of its frame. -/
theorem delivered_iff (reg : Registry) (msgcounter : Nat) (sock : Socket) :
    ((∀ k, msgcounter + k < reg.size → ∃ f, syncEntry reg (msgcounter + k) = .ok f) →
      ∃ msgcounter' sock', syncToSocket reg msgcounter sock = .ok (msgcounter', sock')) ∧
    ∀ msgcounter' sock', syncToSocket reg msgcounter sock = .ok (msgcounter', sock') →
      (Delivered reg msgcounter sock msgcounter' sock' ↔
        ∀ k f, msgcounter + k < reg.size → syncEntry reg (msgcounter + k) = .ok f →
          sock.TakesAll k f.length) := by
  constructor
  · intro hframes
    have hbatch : ∀ k < reg.size - msgcounter, ∃ f, syncEntry reg (msgcounter + k) = .ok f :=
      fun k hk => hframes k (by omega)
    obtain ⟨fs, hfs⟩ := entryFrames_returns hbatch
    exact ⟨_, _, by rw [syncToSocket_eq, hfs, ok_bind]; rfl⟩
  · intro msgcounter' sock' hsync
    rw [syncToSocket_eq] at hsync
    obtain ⟨fs, hfs, hpure⟩ := bind_eq_ok.mp hsync
    cases hpure
    obtain ⟨hlen, hget⟩ := entryFrames_getElem? hfs
    have hne : ∀ f ∈ fs, f ≠ [] := by
      intro f hf
      obtain ⟨k, hk⟩ := List.getElem?_of_mem hf
      exact syncEntry_ne_nil (hget k f hk)
    have hbatch : max msgcounter reg.size - msgcounter = reg.size - msgcounter := by omega
    constructor
    · intro hdelivered k f hk hf
      obtain ⟨fs', hfs', htaken⟩ := hdelivered.bytes
      rw [hbatch, hfs, Except.ok.injEq] at hfs'
      rw [← hfs'] at htaken
      refine (Socket.sendAll_taken_iff hne).mp htaken k f ?_
      have hlt : k < fs.length := by omega
      have heq := hget k fs[k] (List.getElem?_eq_getElem hlt)
      rw [hf, Except.ok.injEq] at heq
      rw [List.getElem?_eq_getElem hlt, heq]
    · intro hall
      have hcalls : ∀ k f, fs[k]? = some f → sock.TakesAll k f.length := by
        intro k f hkf
        obtain ⟨hlt, _⟩ := List.getElem?_eq_some_iff.mp hkf
        exact hall k f (by omega) (hget k f hkf)
      refine ⟨⟨fs, by rw [hbatch, hfs], (Socket.sendAll_taken_iff hne).mpr hcalls⟩, ?_⟩
      intro k f hf hrefused
      by_contra hpassed
      exact hrefused (hall k f (by omega) hf)

/-- A socket that takes all it is asked to, and one that takes nothing. -/
def wideSocket : Socket := ⟨fun _ len => some (Fin.last len), 0, []⟩

def fullSocket : Socket := ⟨fun _ _ => none, 0, []⟩

/-- A registry with the message `"a"`, and its frame. -/
theorem one_message : ∃ reg, processMsgFromClient createRegister (cstr (bytes "msg:a")) = .ok reg ∧
    reg.size = 1 ∧ syncEntry reg 0 = .ok (frame (bytes "a")) := by
  obtain ⟨reg, hreg, _, hsize, _, hframe, _⟩ := processMsgFromClient_accepted createRegister_holds
    (cstr_cstr (by decide) : CStr _ (bytes "msg:a")) (by decide)
  exact ⟨reg, hreg, hsize, hframe⟩

theorem delivered_iff_one : ∃ reg sock', reg.size = 1 ∧
    syncToSocket reg 0 wideSocket = .ok (1, sock') ∧
    Delivered reg 0 wideSocket 1 sock' := by
  obtain ⟨reg, _, hsize, hframe⟩ := one_message
  have hentries : ∀ k, 0 + k < reg.size → ∃ f, syncEntry reg (0 + k) = .ok f := by
    intro k hk
    obtain rfl : k = 0 := by omega
    exact ⟨_, hframe⟩
  have hiff := delivered_iff reg 0 wideSocket
  obtain ⟨msgcounter', sock', hsync⟩ := hiff.1 hentries
  have hcursor := hsync
  rw [syncToSocket_eq] at hcursor
  obtain ⟨fs, _, hpure⟩ := bind_eq_ok.mp hcursor
  cases hpure
  rw [hsize] at hsync
  exact ⟨reg, _, hsize, hsync, (hiff.2 _ _ hsync).mpr fun _ _ _ _ => rfl⟩

/-- A client that takes nothing of the frame of the only message is taken to
have it. -/
theorem refused_frame_passed : ∃ reg sock', reg.size = 1 ∧
    syncToSocket reg 0 fullSocket = .ok (1, sock') ∧ sock'.taken = [] ∧
    ¬ Delivered reg 0 fullSocket 1 sock' := by
  obtain ⟨reg, _, hsize, hframe⟩ := one_message
  have hframes : entryFrames reg 0 1 = .ok [frame (bytes "a")] := by
    rw [entryFrames_succ, hframe]
    rfl
  refine ⟨reg, fullSocket.sendAll [frame (bytes "a")], hsize, ?_, rfl,
    fun hdelivered => ?_⟩
  · rw [syncToSocket_eq, hsize, hframes]
    rfl
  · have hpassed := hdelivered.passed 0 _ hframe (fun htakes => by cases htakes)
    exact absurd hpassed (by decide)

end Sending

end TelnetChat.Vip
