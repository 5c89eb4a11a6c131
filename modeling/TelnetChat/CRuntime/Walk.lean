import Mathlib.Data.List.Basic
import TelnetChat.CRuntime.Exec

/-!
# Walks along a linked list

The loop `for (p = head; p != NULL; p = next) …` over a linked list.  A pointer
into the list is the list from the node it points to, and `NULL` is the empty
list.  The step expression is a parameter: `List.tail` is `p = p->next`, but C
lets the loop step to any node.

The body answers, which leaves the loop, or does not, which is `continue`.
`walk body next n p seen` makes at most `n` tests of `p != NULL`, and is `none`
when more are needed.  A loop halts when some number of tests is enough.
-/

namespace CRuntime

variable {ε ν β α : Type}

/-- How a walk is left: with what its body answered, or at `NULL`, and the nodes
it visited, in order. -/
structure Walk (ε ν β : Type) where
  result : Except ε (Option β)
  visited : List ν

def walk (body : ν → Except ε (Option β)) (next : List ν → List ν) :
    Nat → List ν → List ν → Option (Walk ε ν β)
  | 0, _, _ => none
  | _ + 1, [], seen => some ⟨.ok none, seen⟩
  | n + 1, p :: ps, seen =>
      match body p with
      | .error e => some ⟨.error e, seen ++ [p]⟩
      | .ok (some b) => some ⟨.ok (some b), seen ++ [p]⟩
      | .ok none => walk body next n (next (p :: ps)) (seen ++ [p])

/-- The loop ends, and leaves `a`. -/
def Halts (loop : Nat → Option α) (a : α) : Prop := ∃ n, loop n = some a

section Walk

variable {body : ν → Except ε (Option β)} {next : List ν → List ν}

@[simp] theorem walk_nil (n : Nat) (seen : List ν) :
    walk body next (n + 1) [] seen = some ⟨.ok none, seen⟩ := rfl

theorem walk_answer {p : ν} {b : β} (h : body p = .ok (some b)) (n : Nat) (ps seen : List ν) :
    walk body next (n + 1) (p :: ps) seen = some ⟨.ok (some b), seen ++ [p]⟩ := by
  rw [walk, h]

theorem walk_continue {p : ν} (h : body p = .ok none) (n : Nat) (ps seen : List ν) :
    walk body next (n + 1) (p :: ps) seen = walk body next n (next (p :: ps)) (seen ++ [p]) := by
  rw [walk, h]

/-- A walk by `p = p->next` leaves at the first node that answers. -/
theorem walk_tail_answer {p : ν} {b : β} {pre post : List ν} (hpre : ∀ q ∈ pre, body q = .ok none)
    (hp : body p = .ok (some b)) (seen : List ν) :
    walk body List.tail (pre.length + 1) (pre ++ p :: post) seen =
      some ⟨.ok (some b), seen ++ (pre ++ [p])⟩ := by
  induction pre generalizing seen with
  | nil => exact walk_answer hp 0 post seen
  | cons q pre ih =>
      have hrest := ih (fun r hr => hpre r (List.mem_cons_of_mem q hr)) (seen ++ [q])
      rw [List.append_assoc] at hrest
      rw [List.length_cons, List.cons_append, walk_continue (hpre q List.mem_cons_self)]
      exact hrest

/-- Without an answer it ends at `NULL`, after all nodes. -/
theorem walk_tail_none {ps : List ν} (h : ∀ q ∈ ps, body q = .ok none) (seen : List ν) :
    walk body List.tail (ps.length + 1) ps seen = some ⟨.ok none, seen ++ ps⟩ := by
  induction ps generalizing seen with
  | nil => rw [List.append_nil, List.length_nil, walk_nil]
  | cons p ps ih =>
      have hrest := ih (fun q hq => h q (List.mem_cons_of_mem p hq)) (seen ++ [p])
      rw [List.append_assoc] at hrest
      rw [List.length_cons, walk_continue (h p List.mem_cons_self)]
      exact hrest

/-- A walk does not halt from a set of pointers that it never leaves, if no node
there answers. -/
theorem walk_diverges {I : List ν → Prop}
    (hI : ∀ ps, I ps → ∃ p rest, ps = p :: rest ∧ body p = .ok none ∧ I (next ps))
    {ps : List ν} (h : I ps) (n : Nat) (seen : List ν) : walk body next n ps seen = none := by
  induction n generalizing ps seen with
  | zero => rfl
  | succ n ih =>
      obtain ⟨p, rest, rfl, hbody, hnext⟩ := hI ps h
      rw [walk_continue hbody]
      exact ih hnext (seen ++ [p])

end Walk

end CRuntime
