import TelnetChat.Json

/-!
# The registry (`registry.c`)

A `Registry` is a growable array of `Json` structs, shared by threads under a
mutex.  One call of `addReg` holds the mutex from its first to its last
access, so it is one step of its thread.

The growth step allocates `(capacity + incr) * sizeof(Registry)` bytes for
elements of `sizeof(Json)` bytes.  The two structs have one layout, a pointer
and two `int`s, so these are `capacity + incr` elements.
-/

namespace TelnetChat

open CRuntime

/-- `struct Registry`. -/
abbrev Registry : Type := GrowArray Json

/-- `sizeof(Registry)`: a `Json *` and two `int`s. -/
def sizeofRegistry : Nat := 8 + 4 + 4

/-- `sizeof(Json)`: an `Entry *` and two `int`s. -/
def sizeofJson : Nat := 8 + 4 + 4

def createRegister : Registry := .create 16

def incrRegCapacity (reg : Registry) (incr : Nat) : Exec Registry :=
  reg.grow ((reg.capacity + incr) * sizeofRegistry / sizeofJson) incr

def addReg (reg : Registry) (json : Json) : Exec Registry :=
  reg.push 2 (fun reg => incrRegCapacity reg 16) json

theorem createRegister_holds : createRegister.Holds [] := GrowArray.create_holds (Nat.succ_pos _)

theorem incrRegCapacity_returns {reg : Registry} {js : List Json} (h : reg.Holds js) :
    Returns (incrRegCapacity reg 16) (GrowArray.Grown reg js) := by
  have halloc : reg.capacity + 16 ≤ (reg.capacity + 16) * sizeofRegistry / sizeofJson := by
    rw [sizeofRegistry, sizeofJson, Nat.mul_div_cancel _ (by decide)]
  exact GrowArray.grow_returns h (by decide) halloc

/-- `addReg` appends, and every record keeps its index. -/
theorem addReg_returns {reg : Registry} {js : List Json} (h : reg.Holds js) (j : Json) :
    Returns (addReg reg j) fun reg' => reg'.Holds (js ++ [j]) :=
  (GrowArray.push_returns h (by decide) (incrRegCapacity_returns h) j).mono fun _ h => h.1

theorem addReg_appendOnly :
    GrowArray.AppendOnly pure (fun reg => reg.reserve 2 fun reg => incrRegCapacity reg 16) addReg
      createRegister :=
  GrowArray.push_appendOnly (by decide) (fun _ _ => incrRegCapacity_returns) (fun _ _ => rfl)
    createRegister_holds

end TelnetChat
