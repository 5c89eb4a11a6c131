import TelnetChat.CRuntime.Block

/-!
# Which cells a computation reads

`ReadsBelow n f b` says that `f`, run on the block `b`, reads cells below `n`
only: on every block with the same first `n` cells it does the same.  Those
blocks may be longer or shorter than `b`, and hold anything from the cell `n`
on.  So the bound is about the run, and not about the size of `b`.
-/

namespace CRuntime

variable {α β γ : Type}

/-- The blocks have the same first `n` cells. -/
def Agree (n : Nat) (b b' : Block α) : Prop := b.take n = b'.take n

def ReadsBelow (n : Nat) (f : Block α → Exec β) (b : Block α) : Prop :=
  ∀ b', Agree n b b' → f b' = f b

section Agree

variable {n m : Nat} {b b' : Block α}

theorem Agree.mono (h : Agree n b b') (hle : m ≤ n) : Agree m b b' := by
  have htake := congrArg (List.take m) h
  rwa [List.take_take, List.take_take, Nat.min_eq_left hle] at htake

theorem Agree.load_eq (h : Agree n b b') {i : Nat} (hi : i < n) : b.load i = b'.load i := by
  have hget : b[i]? = b'[i]? := by
    rw [← List.getElem?_take_of_lt hi, h, List.getElem?_take_of_lt hi]
  rw [Block.load, Block.load, hget]

/-- A copy loop reads as many cells as it copies. -/
theorem Agree.copyInto_eq (h : Agree n b b') (hle : m ≤ n) (dst : Block α) (off : Nat) :
    dst.copyInto b off m = dst.copyInto b' off m := by
  apply forUp_congr
  intro c s _ hc
  rw [h.load_eq (by omega)]

/-- Blocks that agree on a C string and its NUL both start with it. -/
theorem Agree.cstr {b b' : Block Byte} {w : List Byte} (h : Agree n b b') (hlt : w.length < n)
    (hb : CStr b w) : CStr b' w where
  nul_free := hb.nul_free
  starts := by
    have hlen : (w.map some ++ [some 0] : Block Byte).length = w.length + 1 := by simp
    have htake := List.prefix_iff_eq_take.mp hb.starts
    rw [hlen, h.mono (m := w.length + 1) hlt] at htake
    rw [htake]
    exact List.take_prefix _ b'

end Agree

section ReadsBelow

variable {n m : Nat} {f : Block α → Exec β} {b : Block α}

theorem ReadsBelow.mono (h : ReadsBelow m f b) (hle : m ≤ n) : ReadsBelow n f b :=
  fun b' hb' => h b' (hb'.mono hle)

/-- What follows a computation adds no reads if it does not use the block. -/
theorem ReadsBelow.bind (h : ReadsBelow n f b) (g : β → Exec γ) :
    ReadsBelow n (fun b => f b >>= g) b := by
  intro b' hb'
  show f b' >>= g = f b >>= g
  rw [h b' hb']

end ReadsBelow

end CRuntime
