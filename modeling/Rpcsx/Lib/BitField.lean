import Mathlib.Data.Nat.Bitwise

/-!
# Bit fields

Masks and shifts as divisions and remainders: what a mask keeps of a number, and the joining of
numbers whose bits do not meet.
-/

namespace Rpcsx.Lib

open Nat

/-- A mask of `k` bits from bit `i` on. -/
theorem and_field (x k i : Nat) : x &&& ((2 ^ k - 1) <<< i) = x / 2 ^ i % 2 ^ k * 2 ^ i := by
  rw [← shiftRight_eq_div_pow, ← and_two_pow_sub_one_eq_mod, ← shiftLeft_eq]
  refine eq_of_testBit_eq fun j => ?_
  rw [testBit_and, testBit_shiftLeft, testBit_shiftLeft, testBit_and, testBit_shiftRight]
  by_cases h : i ≤ j
  · rw [Nat.add_sub_cancel' h, decide_eq_true h, Bool.true_and, Bool.true_and]
  · rw [decide_eq_false h, Bool.false_and, Bool.false_and, Bool.and_false]

/-- Bits below bit `i` are added. -/
theorem or_eq_add {a b : Nat} (i : Nat) (ha : 2 ^ i ∣ a) (hb : b < 2 ^ i) : a ||| b = a + b := by
  obtain ⟨c, rfl⟩ := ha
  exact (two_pow_add_eq_or_of_lt hb c).symm

theorem or_eq_add' {a b : Nat} (i : Nat) (ha : a < 2 ^ i) (hb : 2 ^ i ∣ b) : a ||| b = a + b := by
  rw [Nat.or_comm, or_eq_add i hb ha, Nat.add_comm]

/-- Flipping bit `k` loses nothing if whether it is flipped can be told by the other bits. -/
theorem flip_inj {a b c d : Nat} (k : Nat) (h : a ^^^ (c &&& 1) <<< k = b ^^^ (d &&& 1) <<< k)
    (hflip : (∀ i, i ≠ k → a.testBit i = b.testBit i) → c.testBit 0 = d.testBit 0) : a = b := by
  have hone (i : Nat) : Nat.testBit 1 i = decide (i < 1) := testBit_two_pow_sub_one 1 i
  have hbit (x : Nat) (i : Nat) (hi : i ≠ k) : ((x &&& 1) <<< k).testBit i = false := by
    rw [testBit_shiftLeft, testBit_and, hone]
    by_cases hle : k ≤ i
    · rw [decide_eq_false (show ¬i - k < 1 by omega), Bool.and_false, Bool.and_false]
    · rw [decide_eq_false hle, Bool.false_and]
  have hother (i : Nat) (hi : i ≠ k) : a.testBit i = b.testBit i := by
    have hi' := congrArg (Nat.testBit · i) h
    simpa only [testBit_xor, hbit c i hi, hbit d i hi, Bool.xor_false] using hi'
  have hcd : c &&& 1 = d &&& 1 := by
    refine eq_of_testBit_eq fun i => ?_
    rw [testBit_and, testBit_and, hone]
    by_cases hi : i < 1
    · rw [lt_one_iff.mp hi, hflip hother]
    · rw [decide_eq_false hi, Bool.and_false, Bool.and_false]
  rw [hcd] at h
  exact xor_left_injective h

end Rpcsx.Lib
