import Mathlib.Data.List.Basic
import Mathlib.Data.UInt

/-!
# Buffers that are written through a pointer

Memory seen from a pointer: a byte at every distance. Copies and fills write an interval and leave the rest as it is,
so that a write outside of what the caller provided can be stated.
-/

namespace Rpcsx.Lib

abbrev Buffer := Nat → UInt8

namespace Buffer

def put (buf : Buffer) (pos : Nat) (data : List UInt8) : Buffer := fun a =>
  if pos ≤ a ∧ a < pos + data.length then data.getD (a - pos) 0 else buf a

def copy (buf : Buffer) (pos len : Nat) (src : Buffer) : Buffer := fun a =>
  if pos ≤ a ∧ a < pos + len then src (a - pos) else buf a

def fill (buf : Buffer) (pos len : Nat) (value : UInt8) : Buffer := fun a =>
  if pos ≤ a ∧ a < pos + len then value else buf a

variable {buf : Buffer} {pos len a : Nat} {data : List UInt8} {value : UInt8}

theorem put_apply {i : Nat} (h : i < data.length) : buf.put pos data (pos + i) = data.getD i 0 := by
  rw [put, if_pos (by omega), Nat.add_sub_cancel_left]

theorem fill_of_not_mem (h : ¬ (pos ≤ a ∧ a < pos + len)) : buf.fill pos len value a = buf a := if_neg h

theorem fill_of_mem (h : pos ≤ a ∧ a < pos + len) : buf.fill pos len value a = value := if_pos h

def xorBlocks (key : Nat → Nat → UInt8) (buf : Buffer) : Nat → Buffer
  | 0 => buf
  | blocks + 1 => fun a =>
    if 16 * blocks ≤ a ∧ a < 16 * blocks + 16 then xorBlocks key buf blocks a ^^^ key blocks (a - 16 * blocks)
    else xorBlocks key buf blocks a

theorem xorBlocks_apply (key : Nat → Nat → UInt8) (buf : Buffer) (blocks a : Nat) :
    xorBlocks key buf blocks a = if a < 16 * blocks then buf a ^^^ key (a / 16) (a % 16) else buf a := by
  induction blocks with
  | zero => simp [xorBlocks]
  | succ n ih =>
    rw [xorBlocks]
    dsimp only
    rw [ih]
    by_cases hblock : 16 * n ≤ a ∧ a < 16 * n + 16
    · have hdiv : a / 16 = n := by omega
      have hmod : a - 16 * n = a % 16 := by omega
      rw [if_pos hblock, if_neg (by omega), if_pos (by omega), hdiv, hmod]
    rw [if_neg hblock]
    congr 1
    exact propext ⟨fun h => by omega, fun h => by omega⟩

end Buffer

end Rpcsx.Lib
