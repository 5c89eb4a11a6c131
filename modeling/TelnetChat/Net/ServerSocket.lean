import TelnetChat.CRuntime.Walk

/-!
# The socket of the server

Both servers walk the address list of `getaddrinfo` and keep the first socket
they can create and bind.  The body of the loop is the same.  The step is
`p = p->ai_next` in `main` of `chat_server.c`, and
`servinfo = servinfolist->ai_next` in `createAndBindSocket` of
`chat_server_vip.c`, where `servinfolist` is the head of the list.  So the
second loop goes back to the second node after each failure.  It makes the
choice of the first one, and ends, exactly when it does not need a third node
(`createAndBindSocket_iff`).
-/

namespace TelnetChat

open CRuntime

/-! ## The source -/

/-- What the system calls answer for each node of the list; `none` is the `-1`
of `socket`, and `false` that of the other two. -/
structure SocketCalls (ν : Type) where
  socket : ν → Option Nat
  setsockopt : ν → Bool
  bind : ν → Bool

/-- How a search ends, with the nodes it tried, in order. -/
structure Search (ν : Type) where
  result : Exec Nat
  tried : List ν

section Source

variable {ν : Type} (calls : SocketCalls ν)

/-- The body of the loops.  A failed `socket` or `bind` is a `continue`. -/
def bindNode (p : ν) : Exec (Option Nat) :=
  match calls.socket p with
  | none => pure none
  | some sockfd =>
      if calls.setsockopt p = false then .error (.exit 1)
      else if calls.bind p = false then pure none
      else pure (some sockfd)

/-- What follows the loops: `exit(1)` when they ended at `NULL`. -/
def Search.ofWalk (w : Walk Fault ν Nat) : Search ν where
  result := do
    match ← w.result with
    | some sockfd => pure sockfd
    | none => .error (.exit 1)
  tried := w.visited

/-- The loop of `main`, with `n` tests. -/
def Server.bindSocket (servinfo : List ν) (n : Nat) : Option (Search ν) :=
  (walk (bindNode calls) List.tail n servinfo []).map .ofWalk

def Vip.createAndBindSocket (servinfolist : List ν) (n : Nat) : Option (Search ν) :=
  (walk (bindNode calls) (fun _ => servinfolist.tail) n servinfolist []).map .ofWalk

end Source

/-! ## The first usable address -/

section Search

variable {ν : Type} {calls : SocketCalls ν} {nodes : List ν} {s : Search ν}

/-- Both calls succeed. -/
def SocketCalls.Usable (calls : SocketCalls ν) (p : ν) : Prop :=
  (calls.socket p).isSome = true ∧ calls.bind p = true

instance (p : ν) : Decidable (calls.Usable p) :=
  inferInstanceAs (Decidable (_ ∧ _))

/-- The nodes are tried in order, each once, up to the first usable one, whose
socket is the result.  Without one all are tried and the process exits. -/
inductive FirstUsable (calls : SocketCalls ν) : List ν → Search ν → Prop where
  | found {pre post : List ν} {p : ν} {sockfd : Nat} : (∀ q ∈ pre, ¬ calls.Usable q) →
      calls.Usable p → calls.socket p = some sockfd →
      FirstUsable calls (pre ++ p :: post) ⟨.ok sockfd, pre ++ [p]⟩
  | exhausted {nodes : List ν} : (∀ q ∈ nodes, ¬ calls.Usable q) →
      FirstUsable calls nodes ⟨.error (.exit 1), nodes⟩

theorem exists_firstUsable (calls : SocketCalls ν) (nodes : List ν) :
    ∃ s, FirstUsable calls nodes s := by
  induction nodes with
  | nil => exact ⟨_, .exhausted fun q hq => absurd hq List.not_mem_nil⟩
  | cons p nodes ih =>
      by_cases hp : calls.Usable p
      · obtain ⟨sockfd, hsock⟩ := Option.isSome_iff_exists.mp hp.1
        exact ⟨_, @FirstUsable.found _ _ [] _ _ _ (fun q hq => absurd hq List.not_mem_nil) hp hsock⟩
      · obtain ⟨s, hs⟩ := ih
        cases hs with
        | @found pre post q sockfd hpre hq hsock =>
            exact ⟨_, @FirstUsable.found _ _ (p :: pre) _ _ _ (List.forall_mem_cons.mpr ⟨hp, hpre⟩) hq hsock⟩
        | exhausted hnone => exact ⟨_, .exhausted (List.forall_mem_cons.mpr ⟨hp, hnone⟩)⟩

/-! ### The body -/

theorem bindNode_usable {p : ν} {sockfd : Nat} (hopt : calls.setsockopt p = true)
    (hp : calls.Usable p) (hsock : calls.socket p = some sockfd) :
    bindNode calls p = .ok (some sockfd) := by
  simp [bindNode, hsock, hopt, hp.2]

theorem bindNode_unusable {p : ν} (hopt : calls.setsockopt p = true) (hp : ¬ calls.Usable p) :
    bindNode calls p = .ok none := by
  rw [bindNode]
  cases hsock : calls.socket p with
  | none => rfl
  | some sockfd =>
      cases hbind : calls.bind p with
      | false => simp [hopt]
      | true => exact absurd ⟨by rw [hsock]; rfl, hbind⟩ hp

/-! ### The loops -/

/-- The loop of `main` ends on every list, and picks the first usable address. -/
theorem FirstUsable.bindSocket (h : FirstUsable calls nodes s)
    (hopt : ∀ p ∈ nodes, calls.setsockopt p = true) :
    Halts (Server.bindSocket calls nodes) s := by
  cases h with
  | @found pre post p sockfd hpre hp hsock =>
      have hskip : ∀ q ∈ pre, bindNode calls q = .ok none := fun q hq =>
        bindNode_unusable (hopt q (List.mem_append_left _ hq)) (hpre q hq)
      have hbody := bindNode_usable (hopt p (by simp)) hp hsock
      have hwalk : walk (bindNode calls) List.tail _ (pre ++ p :: post) [] = _ :=
        walk_tail_answer hskip hbody []
      exact ⟨_, congrArg (Option.map Search.ofWalk) hwalk⟩
  | exhausted hnone =>
      have hskip : ∀ q ∈ nodes, bindNode calls q = .ok none := fun q hq =>
        bindNode_unusable (hopt q hq) (hnone q hq)
      have hwalk := walk_tail_none hskip []
      exact ⟨_, congrArg (Option.map Search.ofWalk) hwalk⟩

/-- So `main` always finds the first usable address, or exits without one. -/
theorem bindSocket_halts (hopt : ∀ p ∈ nodes, calls.setsockopt p = true) :
    ∃ s, Halts (Server.bindSocket calls nodes) s ∧ FirstUsable calls nodes s := by
  obtain ⟨s, hs⟩ := exists_firstUsable calls nodes
  exact ⟨s, hs.bindSocket hopt, hs⟩

/-- A search that needs no third node is the one of `main`. -/
theorem createAndBindSocket_found (hopt : ∀ p ∈ nodes, calls.setsockopt p = true)
    (h : nodes.length ≤ 1 ∨ ∃ p ∈ nodes.take 2, calls.Usable p) :
    ∃ s, Halts (Vip.createAndBindSocket calls nodes) s ∧ FirstUsable calls nodes s := by
  cases nodes with
  | nil => exact ⟨_, ⟨1, rfl⟩, .exhausted fun q hq => absurd hq List.not_mem_nil⟩
  | cons p rest =>
      have hp := hopt p List.mem_cons_self
      by_cases hfirst : calls.Usable p
      · obtain ⟨sockfd, hsock⟩ := Option.isSome_iff_exists.mp hfirst.1
        have hwalk : walk (bindNode calls) (fun _ => rest) 1 (p :: rest) [] = _ :=
          walk_answer (bindNode_usable hp hfirst hsock) 0 rest []
        exact ⟨_, ⟨1, congrArg (Option.map Search.ofWalk) hwalk⟩,
          @FirstUsable.found _ _ [] _ _ _ (fun q hq => absurd hq List.not_mem_nil) hfirst hsock⟩
      · have hskip : walk (bindNode calls) (fun _ => rest) 2 (p :: rest) [] = _ :=
          walk_continue (bindNode_unusable hp hfirst) 1 rest []
        cases rest with
        | nil =>
            exact ⟨_, ⟨2, congrArg (Option.map Search.ofWalk) hskip⟩,
              .exhausted (List.forall_mem_singleton.mpr hfirst)⟩
        | cons q rest =>
            have hsecond : calls.Usable q := by
              simpa [hfirst] using h
            obtain ⟨sockfd, hsock⟩ := Option.isSome_iff_exists.mp hsecond.1
            have hbody := bindNode_usable (hopt q (by simp)) hsecond hsock
            rw [walk_answer hbody] at hskip
            exact ⟨_, ⟨2, congrArg (Option.map Search.ofWalk) hskip⟩,
              @FirstUsable.found _ _ [p] _ _ _ (List.forall_mem_singleton.mpr hfirst) hsecond hsock⟩

/-- If neither of the first two nodes is usable, the second is tried forever. -/
theorem createAndBindSocket_diverges {p q : ν} {rest : List ν}
    (hopt : ∀ r ∈ [p, q], calls.setsockopt r = true) (h : ∀ r ∈ [p, q], ¬ calls.Usable r) (n : Nat) :
    Vip.createAndBindSocket calls (p :: q :: rest) n = none := by
  have hbody : ∀ r ∈ [p, q], bindNode calls r = .ok none := fun r hr =>
    bindNode_unusable (hopt r hr) (h r hr)
  have hstays : ∀ ps, (∃ r ∈ [p, q], ∃ tail, ps = r :: tail) →
      ∃ r tail, ps = r :: tail ∧ bindNode calls r = .ok none ∧
        ∃ r ∈ [p, q], ∃ tail, q :: rest = r :: tail := by
    rintro ps ⟨r, hr, tail, rfl⟩
    exact ⟨r, tail, rfl, hbody r hr, q, by simp, rest, rfl⟩
  have hwalk : walk (bindNode calls) (fun _ => q :: rest) n (p :: q :: rest) [] = none :=
    walk_diverges hstays ⟨p, by simp, q :: rest, rfl⟩ n []
  exact congrArg (Option.map Search.ofWalk) hwalk

/-- `createAndBindSocket` ends with the choice of `main`, the first usable
address, exactly when the list has at most one node or one of its first two
nodes is usable. -/
theorem createAndBindSocket_iff (hopt : ∀ p ∈ nodes, calls.setsockopt p = true) :
    (∃ s, Halts (Vip.createAndBindSocket calls nodes) s ∧ FirstUsable calls nodes s ∧
      Halts (Server.bindSocket calls nodes) s) ↔
    nodes.length ≤ 1 ∨ ∃ p ∈ nodes.take 2, calls.Usable p := by
  constructor
  · rintro ⟨s, ⟨n, hn⟩, _⟩
    by_contra hnone
    rw [not_or] at hnone
    match nodes, hopt, hnone, hn with
    | [], _, hnone, _ => exact hnone.1 (Nat.zero_le 1)
    | [_], _, hnone, _ => exact hnone.1 (Nat.le_refl 1)
    | p :: q :: rest, hopt, hnone, hn =>
        have htwo : ∀ r ∈ [p, q], ¬ calls.Usable r := fun r hr husable => hnone.2 ⟨r, hr, husable⟩
        have hopt' : ∀ r ∈ [p, q], calls.setsockopt r = true := fun r hr =>
          hopt r (List.mem_of_mem_take (i := 2) hr)
        rw [createAndBindSocket_diverges hopt' htwo n] at hn
        cases hn
  · intro h
    obtain ⟨s, hhalts, hfirst⟩ := createAndBindSocket_found hopt h
    exact ⟨s, hhalts, hfirst, hfirst.bindSocket hopt⟩

/-- Three addresses; the numbers in `unusable` cannot be bound. -/
def sampleCalls (unusable : List Nat) : SocketCalls Nat :=
  ⟨fun p => some (p + 3), fun _ => true, fun p => p ∉ unusable⟩

theorem createAndBindSocket_iff_second :
    (∃ s, Halts (Vip.createAndBindSocket (sampleCalls [0]) [0, 1, 2]) s ∧
      FirstUsable (sampleCalls [0]) [0, 1, 2] s ∧
      Halts (Server.bindSocket (sampleCalls [0]) [0, 1, 2]) s) ↔
    [0, 1, 2].length ≤ 1 ∨ ∃ p ∈ [0, 1, 2].take 2, (sampleCalls [0]).Usable p :=
  createAndBindSocket_iff fun _ _ => rfl

/-- With only the third address usable `main` finds it, and
`createAndBindSocket` does not end. -/
theorem createAndBindSocket_misses_third :
    (∀ n, Vip.createAndBindSocket (sampleCalls [0, 1]) [0, 1, 2] n = none) ∧
    ∃ s, Halts (Server.bindSocket (sampleCalls [0, 1]) [0, 1, 2]) s ∧ s.result = .ok 5 := by
  refine ⟨createAndBindSocket_diverges (fun _ _ => rfl) (by decide), _, ⟨3, rfl⟩, rfl⟩

end Search

end TelnetChat
