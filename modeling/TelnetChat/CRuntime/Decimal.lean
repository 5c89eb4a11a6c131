import Mathlib.Data.Nat.Digits.Lemmas
import TelnetChat.CRuntime.Block

/-!
# Decimal text

`sprintf(dst, "%d", n)` of a number that is not negative.  It writes the
decimal digits and a NUL, so it faults exactly when the block has no more cells
than there are digits.

`atoi` reads such a text back (`atoi_decimal`).  A value that is no `int` is
undefined behaviour.
-/

namespace CRuntime

/-- The character of a digit. -/
def digitChar (d : Nat) : Byte := (48 + d).toUInt8

/-- The decimal digits of `n`, the first one not `0` unless `n` is. -/
def decimal (n : Nat) : List Byte :=
  if n = 0 then [digitChar 0] else ((Nat.digits 10 n).map digitChar).reverse

/-- `sprintf(dst, "%d", n)`. -/
def sprintfInt (dst : Block Byte) (n : Nat) : Exec (Block Byte) :=
  dst.copyInto (cstr (decimal n)) 0 ((decimal n).length + 1)

/-- White space in the C locale. -/
def isspace (x : Byte) : Bool := x = 32 || (9 ≤ x && x ≤ 13)

def isdigit (x : Byte) : Bool := 48 ≤ x && x ≤ 57

def skipSpace : Block Byte → Block Byte
  | some x :: b => if isspace x then skipSpace b else some x :: b
  | b => b

/-- The number that the digits here continue, after those with the value `n`. -/
def digitsFrom : Block Byte → Nat → Exec Nat
  | some x :: b, n => if isdigit x then digitsFrom b (n * 10 + (x.toNat - 48)) else pure n
  | _, _ => .error .undefined

/-- An optional sign and digits. -/
def signedFrom : Block Byte → Exec Int
  | some x :: b =>
      if x = 45 then do
        let n ← digitsFrom b 0
        pure (-(n : Int))
      else if x = 43 then do
        let n ← digitsFrom b 0
        pure n
      else do
        let n ← digitsFrom (some x :: b) 0
        pure n
  | _ => .error .undefined

def atoi (str : Block Byte) : Exec Int := do
  let n ← signedFrom (skipSpace str)
  if -2 ^ 31 ≤ n ∧ n < 2 ^ 31 then pure n else .error .undefined

/-- A byte that is no digit is not in a decimal text. -/
theorem notMem_decimal {x : Byte} (h : ∀ d < 10, digitChar d ≠ x) (n : Nat) : x ∉ decimal n := by
  unfold decimal
  split
  · rw [List.mem_singleton]
    exact Ne.symm (h 0 (by decide))
  · rw [List.mem_reverse, List.mem_map]
    rintro ⟨d, hd, hx⟩
    exact h d (Nat.digits_lt_base (by decide) hd) hx

theorem nul_notMem_decimal (n : Nat) : 0 ∉ decimal n := notMem_decimal (by decide) n

theorem length_decimal_le_iff {k : Nat} (hk : 0 < k) (n : Nat) :
    (decimal n).length ≤ k ↔ n < 10 ^ k := by
  unfold decimal
  split
  · rename_i hn
    subst hn
    exact iff_of_true hk (Nat.pow_pos (by decide))
  · rw [List.length_reverse, List.length_map]
    exact Nat.digits_length_le_iff (by decide) n

theorem sprintfInt_returns {dst : Block Byte} {n : Nat} (h : (decimal n).length < dst.length) :
    Returns (sprintfInt dst n) fun b => CStr b (decimal n) ∧ b.length = dst.length := by
  have hcopy := Block.copyInto_eq (decimal n ++ [0]) [] [] (dst.take ((decimal n).length + 1))
    (dst.drop ((decimal n).length + 1)) (by simp; omega)
  simp only [List.nil_append, List.take_append_drop, List.append_nil, List.map_append,
    List.map_singleton, List.length_nil, List.length_append, List.length_singleton] at hcopy
  rw [sprintfInt, cstr, hcopy, returns_ok]
  refine ⟨.of_eq _ (nul_notMem_decimal n) (by rw [List.append_assoc]; rfl), ?_⟩
  simp only [List.length_append, List.length_map, List.length_singleton, List.length_drop]
  omega

/-- The digits and the NUL are all stored in the block. -/
theorem sprintfInt_fits {dst b : Block Byte} {n : Nat} (h : sprintfInt dst n = .ok b) :
    (decimal n).length < dst.length := by
  simpa using Block.copyInto_inBounds h

/-! ## Reading a number back -/

theorem digitChar_isdigit : ∀ d < 10, isdigit (digitChar d) = true := by decide

theorem digitChar_value : ∀ d < 10, (digitChar d).toNat - 48 = d := by decide

/-- The digits are read up to the NUL. -/
theorem digitsFrom_eq (ds : List Nat) (hds : ∀ d ∈ ds, d < 10) (n : Nat) (rest : Block Byte) :
    digitsFrom ((ds.map digitChar).map some ++ some 0 :: rest) n =
      .ok (ds.foldl (fun n d => n * 10 + d) n) := by
  induction ds generalizing n with
  | nil => rfl
  | cons d ds ih =>
      have hd := hds d List.mem_cons_self
      rw [List.map_cons, List.map_cons, List.cons_append, digitsFrom,
        if_pos (digitChar_isdigit d hd), digitChar_value d hd,
        ih (fun e he => hds e (List.mem_cons_of_mem d he)), List.foldl_cons]

/-- The decimal text as digits, most significant first. -/
theorem decimal_eq_map (n : Nat) :
    ∃ d ds, decimal n = (d :: ds).map digitChar ∧ (∀ e ∈ d :: ds, e < 10) ∧
      (d :: ds).foldl (fun n d => n * 10 + d) 0 = n := by
  unfold decimal
  split
  · rename_i hn
    exact ⟨0, [], rfl, by simp, hn.symm⟩
  · rename_i hn
    have hne : (Nat.digits 10 n).reverse ≠ [] := by
      rw [ne_eq, List.reverse_eq_nil_iff, Nat.digits_eq_nil_iff_eq_zero]
      exact hn
    obtain ⟨d, ds, hdigits⟩ := List.exists_cons_of_ne_nil hne
    refine ⟨d, ds, by rw [← hdigits, List.map_reverse], ?_, ?_⟩
    · intro e he
      rw [← hdigits, List.mem_reverse] at he
      exact Nat.digits_lt_base (by decide) he
    · rw [← hdigits, List.foldl_reverse]
      have hvalue := Nat.ofDigits_digits 10 n
      rw [Nat.ofDigits_eq_foldr] at hvalue
      simpa only [Nat.cast_id, Nat.add_comm, Nat.mul_comm] using hvalue

/-- A text that starts with a digit has no space and no sign to skip. -/
theorem digitChar_plain : ∀ d < 10,
    isspace (digitChar d) = false ∧ digitChar d ≠ 45 ∧ digitChar d ≠ 43 := by decide

theorem atoi_decimal {b : Block Byte} {n : Nat} (hb : CStr b (decimal n)) (hn : n < 2 ^ 31) :
    atoi b = .ok (n : Int) := by
  obtain ⟨rest, rfl⟩ := hb.exists_rest
  obtain ⟨d, ds, htext, hds, hvalue⟩ := decimal_eq_map n
  obtain ⟨hspace, hminus, hplus⟩ := digitChar_plain d (hds d List.mem_cons_self)
  have hread := digitsFrom_eq (d :: ds) hds 0 rest
  rw [hvalue] at hread
  rw [htext]
  rw [List.map_cons, List.map_cons, List.cons_append] at hread ⊢
  rw [atoi, skipSpace, hspace, if_neg Bool.false_ne_true, signedFrom, if_neg hminus,
    if_neg hplus, hread, ok_bind, pure_eq_ok, ok_bind, if_pos (by omega)]
  rfl

end CRuntime
