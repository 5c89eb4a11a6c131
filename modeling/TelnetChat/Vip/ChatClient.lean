import TelnetChat.Vip.Relay

/-!
# The chat client (`chat_client_vip.c`)

`testchat` fills a buffer with `randstr`, builds the record of `"msg"` and that
text, and sends it.  The server stores such a frame as one entry with the same
value, and relays it byte for byte (`testchat_agrees`).

`createColonString` and `sendMsg` have the bodies of their namesakes in the
server.
-/

namespace TelnetChat.Vip.ChatClient

open CRuntime TelnetChat

/-! ## The source -/

/-- The characters of a random text; the array ends with a NUL. -/
def charset : List Byte := bytes "abcdefghijklmnopqrstuvwxyzABCDEFGHIJK..."

/-- The body of the loop of `randstr`.  `rand n` is what `rand` returns in
iteration `n`. -/
def randChar (rand : Nat → Nat) (n : Nat) (str : Block Byte) : Exec (Block Byte) := do
  let key := rand n % ((cstr charset).length - 1)
  let x ← (cstr charset).load key
  str.store n x

def randstr (rand : Nat → Nat) (str : Block Byte) (size : Nat) : Exec (Block Byte) :=
  if size ≠ 0 then do
    let str ← forUp (randChar rand) (size - 1) 0 str
    str.store (size - 1) 0
  else pure str

def createColonString (key value : Block Byte) : Exec Str := Vip.createColonString key value

/-- The bytes passed to `send`. -/
def sendMsg (msg : Block Byte) : Exec (List Byte) := Vip.sendMsg msg

/-- What one pass of the loop of `testchat` sends, with the random text and the
record it is built from; the source has `n = 10`. -/
def testchat (rand : Nat → Nat) (n : Nat) : Exec (Block Byte × Str × List Byte) := do
  let sendmsg ← randstr rand (calloc n) n
  let msg ← createColonString (cstr msgKey) sendmsg
  let sent ← sendMsg msg.string
  pure (sendmsg, msg, sent)

/-! ## Random texts -/

section Randstr

variable {rand : Nat → Nat} {str : Block Byte} {n : Nat}

theorem load_charset (k : Nat) :
    ∃ x, (cstr charset).load (k % ((cstr charset).length - 1)) = .ok x ∧ x ≠ 0 ∧ x ≠ colon := by
  have hlt : k % ((cstr charset).length - 1) < charset.length := by
    rw [cstr, List.length_append, List.length_map, List.length_singleton, Nat.add_sub_cancel]
    exact Nat.mod_lt k (by decide)
  have hmem := List.getElem_mem hlt
  refine ⟨_, Block.load_map_some charset [some 0] hlt, fun h0 => ?_, fun hcolon => ?_⟩
  · rw [h0] at hmem
    exact absurd hmem (by decide)
  · rw [hcolon] at hmem
    exact absurd hmem (by decide)

/-- The block is the text `w` and the cells of `str` after it. -/
def Filled (str : Block Byte) (s : Block Byte) (w : List Byte) : Prop :=
  s = w.map some ++ str.drop w.length ∧ 0 ∉ w ∧ colon ∉ w

/-- A store at the end of the text makes it one byte longer. -/
theorem Filled.store {s : Block Byte} {w : List Byte} (h : Filled str s w)
    (hlt : w.length < str.length) (x : Byte) :
    s.store w.length x = .ok (w.map some ++ some x :: str.drop (w.length + 1)) := by
  rw [h.1, List.drop_eq_getElem_cons hlt, Block.store_append _ _ _ _ (List.length_map _)]

/-- `randstr` writes `n - 1` characters and a NUL over the first `n` cells, and
nothing else. -/
theorem randstr_returns (rand : Nat → Nat) (hn : 1 ≤ n) (hstr : n ≤ str.length) :
    Returns (randstr rand str n) fun s => ∃ w : List Byte,
      s = w.map some ++ some 0 :: str.drop n ∧ w.length = n - 1 ∧ 0 ∉ w ∧ colon ∉ w := by
  have hstep : ∀ j s, 0 ≤ j → j < 0 + (n - 1) → (∃ w, w.length = j ∧ Filled str s w) →
      Returns (randChar rand j s) fun s' => ∃ w, w.length = j + 1 ∧ Filled str s' w := by
    rintro j s _ hj ⟨w, rfl, hw⟩
    obtain ⟨x, hload, hx0, hxc⟩ := load_charset (rand w.length)
    rw [randChar, hload, ok_bind, hw.store (by omega) x, returns_ok]
    refine ⟨w ++ [x], by simp, by simp, ?_, ?_⟩
    · simpa using ⟨hw.2.1, Ne.symm hx0⟩
    · simpa using ⟨hw.2.2, Ne.symm hxc⟩
  rw [randstr, if_pos (Nat.ne_of_gt hn)]
  apply (forUp_returns (n - 1) 0 str ⟨[], rfl, by simp [Filled]⟩ hstep).bind
  intro s hs
  obtain ⟨w, hlen, hw⟩ := hs
  rw [Nat.zero_add] at hlen
  rw [← hlen, hw.store (by omega) 0, returns_ok, hlen, Nat.sub_add_cancel hn]
  exact ⟨w, rfl, hlen, hw.2⟩

end Randstr

/-! ## Client and server -/

/-- For every size and every random sequence, `randstr` writes below `n` only and
leaves `n - 1` bytes and a NUL.  The server stores the message as one entry with
that text, its frame is what the client sent, and it fits 20 bytes exactly when
`n ≤ 16`. -/
theorem testchat_agrees {n : Nat} (rand : Nat → Nat) (hn : 1 ≤ n) :
    (∀ str : Block Byte, n ≤ str.length → Returns (randstr rand str n) fun s =>
      ∃ w : List Byte, s = w.map some ++ some 0 :: str.drop n ∧ w.length = n - 1) ∧
    Returns (testchat rand n) fun (s, m, f) =>
      ∃ w, CStr s w ∧ s.length = n ∧ w.length = n - 1 ∧ m.Holds (msgPrefix ++ w) ∧
        (∀ reg js buf, reg.Holds js → f.map some <+: buf →
          Returns (processMsgFromClient reg buf) fun reg' =>
            reg'.size = reg.size + 1 ∧
            (∃ value, storedValue reg' reg.size = .ok (some value) ∧ value.Holds w) ∧
            syncEntry reg' reg.size = .ok f ∧
            ∀ i < reg.size, reg'.cells.load i = reg.cells.load i) ∧
        (f.length ≤ 20 ↔ n ≤ 16) := by
  constructor
  · intro str hstr
    exact (randstr_returns rand hn hstr).mono fun s ⟨w, hs, hlen, _⟩ => ⟨w, hs, hlen⟩
  · refine (randstr_returns rand hn (by rw [length_calloc])).bind fun s hs => ?_
    obtain ⟨w, rfl, hlen, h0, hcolon⟩ := hs
    have hs : CStr (w.map some ++ some 0 :: (calloc n).drop n) w := .of_eq _ h0 rfl
    apply (createColonString_returns (cstr_cstr (by decide)) hs).bind
    intro m hm
    have htext : msgKey ++ colon :: w = msgPrefix ++ w := by rw [msgPrefix_eq]; simp
    rw [htext] at hm
    rw [sendMsg, sendMsg_eq hm.text, ok_bind, pure_eq_ok, returns_ok]
    refine ⟨w, hs, ?_, hlen, hm, ?_, ?_⟩
    · rw [List.length_append, List.length_map, List.length_cons, List.length_drop, length_calloc]
      omega
    · intro reg js buf hreg hbuf
      have hstarts : msgPrefix <+: msgPrefix ++ w := List.prefix_append _ _
      refine (processMsgFromClient_accepted hreg (cstr_of_frame h0 hbuf) hstarts).mono
        fun reg' hreg' => ?_
      rw [chatValue_append, Text.takeWhile_of_notMem hcolon] at hreg'
      exact hreg'.2
    · have hfour : msgPrefix.length = 4 := rfl
      rw [List.length_append, List.length_append, List.length_singleton, hlen, hfour]
      omega

theorem testchat_agrees_ten : (∀ str : Block Byte, 10 ≤ str.length →
      Returns (randstr (fun n => 7 * n) str 10) fun s =>
        ∃ w : List Byte, s = w.map some ++ some 0 :: str.drop 10 ∧ w.length = 10 - 1) ∧
    Returns (testchat (fun n => 7 * n) 10) fun (s, m, f) =>
      ∃ w, CStr s w ∧ s.length = 10 ∧ w.length = 10 - 1 ∧ m.Holds (msgPrefix ++ w) ∧
        (∀ reg js buf, reg.Holds js → f.map some <+: buf →
          Returns (processMsgFromClient reg buf) fun reg' =>
            reg'.size = reg.size + 1 ∧
            (∃ value, storedValue reg' reg.size = .ok (some value) ∧ value.Holds w) ∧
            syncEntry reg' reg.size = .ok f ∧
            ∀ i < reg.size, reg'.cells.load i = reg.cells.load i) ∧
        (f.length ≤ 20 ↔ 10 ≤ 16) :=
  testchat_agrees (fun n => 7 * n) (by decide)

end TelnetChat.Vip.ChatClient
