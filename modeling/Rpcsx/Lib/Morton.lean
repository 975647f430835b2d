import Mathlib.Algebra.BigOperators.Ring.Finset
import Mathlib.Algebra.BigOperators.Group.Finset.Piecewise
import Mathlib.Data.Nat.Bitwise
import Mathlib.Data.Set.Function
import Mathlib.Tactic.IntervalCases

/-!
# Morton codes

A mask is the list of its bits, the lowest one first. `deposit m k` puts the bits of `k`, one after the
other, at the places that the mask has; stepping from one such number to the next needs no more than a
subtraction of the mask. A Morton code weaves the bits of several coordinates into one number, as a
list tells from which coordinate the next bit comes. It is a bijection, and the sum of what is deposited
for every coordinate.
-/

namespace Rpcsx.Lib

open Function List Bool Nat

/-! ## Depositing bits -/

/-- The number that has the bits of `k` at the places of the mask. -/
def deposit : List Bool → Nat → Nat
  | [], _ => 0
  | true :: m, k => k % 2 + 2 * deposit m (k / 2)
  | false :: m, k => 2 * deposit m k

def maskValue : List Bool → Nat
  | [] => 0
  | b :: m => b.toNat + 2 * maskValue m

theorem maskValue_lt (m : List Bool) : maskValue m < 2 ^ m.length := by
  induction m with
  | nil => exact one_pos
  | cons b m ih =>
    have hb := b.toNat_le
    rw [length_cons, pow_succ, maskValue]
    omega

theorem deposit_le (m : List Bool) (k : Nat) : deposit m k ≤ maskValue m := by
  induction m generalizing k with
  | nil => exact le_refl 0
  | cons b m ih =>
    cases b with
    | true =>
      have hrest := ih (k / 2)
      rw [deposit, maskValue, toNat_true]
      omega
    | false =>
      have hrest := ih k
      rw [deposit, maskValue, toNat_false]
      omega

theorem deposit_lt (m : List Bool) (k : Nat) : deposit m k < 2 ^ m.length := (deposit_le m k).trans_lt (maskValue_lt m)

/-- Two numbers with a lowest bit each. -/
theorem and_low {a b : Nat} (x y : Nat) (ha : a < 2) (hb : b < 2) :
    (a + 2 * x) &&& (b + 2 * y) = (a &&& b) + 2 * (x &&& y) := by
  have hab : a &&& b < 2 := and_lt_two_pow (n := 1) a hb
  have hhalf {c z : Nat} (hc : c < 2) : (c + 2 * z) / 2 = z := by omega
  refine eq_of_testBit_eq fun j => ?_
  cases j with
  | zero =>
    rw [testBit_and]
    simp only [testBit_zero, add_mul_mod_self_left]
    interval_cases a <;> interval_cases b <;> rfl
  | succ j =>
    rw [testBit_and, testBit_succ, testBit_succ, testBit_succ, hhalf ha, hhalf hb, hhalf hab, testBit_and]

/-- What is deposited lies in the mask: ones at all the other places are masked off again. -/
theorem deposit_and (m : List Bool) (k : Nat) :
    (deposit m k + (2 ^ m.length - 1 - maskValue m)) &&& maskValue m = deposit m k := by
  induction m generalizing k with
  | nil => exact and_zero _
  | cons b m ih =>
    have hlt := maskValue_lt m
    rw [length_cons, pow_succ, maskValue]
    cases b with
    | true =>
      rw [deposit, toNat_true, show k % 2 + 2 * deposit m (k / 2) + (2 ^ m.length * 2 - 1 - (1 + 2 * maskValue m)) =
          k % 2 + 2 * (deposit m (k / 2) + (2 ^ m.length - 1 - maskValue m)) by omega,
        and_low _ _ (mod_lt k two_pos) Nat.one_lt_two, ih, and_one_is_mod, mod_mod]
    | false =>
      rw [deposit, toNat_false, show 2 * deposit m k + (2 ^ m.length * 2 - 1 - (0 + 2 * maskValue m)) =
          1 + 2 * (deposit m k + (2 ^ m.length - 1 - maskValue m)) by omega,
        and_low _ _ Nat.one_lt_two two_pos, ih, and_zero, zero_add]

/-- The carry runs over the places between: to subtract the mask is to add one to what is deposited. -/
theorem deposit_succ (m : List Bool) (k : Nat) :
    (2 ^ m.length - maskValue m + deposit m k) % 2 ^ m.length &&& maskValue m = deposit m (k + 1) := by
  induction m generalizing k with
  | nil => exact and_zero _
  | cons b m ih =>
    have hlt := maskValue_lt m
    have hdouble (n : Nat) : 0 + 2 * n % (2 ^ m.length * 2) = 0 + 2 * (n % 2 ^ m.length) := by
      rw [mul_comm (2 ^ m.length), mul_mod_mul_left]
    rw [length_cons, pow_succ, maskValue]
    cases b with
    | true =>
      rw [deposit, deposit, toNat_true]
      rcases mod_two_eq_zero_or_one k with heven | hodd
      · -- the lowest place takes the one, and what is above stays
        have hle := deposit_le m (k / 2)
        rw [show 2 ^ m.length * 2 - (1 + 2 * maskValue m) + (k % 2 + 2 * deposit m (k / 2)) =
            1 + 2 * (deposit m (k / 2) + (2 ^ m.length - 1 - maskValue m)) by omega,
          mod_eq_of_lt (by omega), and_low _ _ Nat.one_lt_two Nat.one_lt_two, deposit_and,
          show (k + 1) / 2 = k / 2 by omega, show (k + 1) % 2 = 1 by omega, Nat.and_self]
      rw [show 2 ^ m.length * 2 - (1 + 2 * maskValue m) + (k % 2 + 2 * deposit m (k / 2)) =
          2 * (2 ^ m.length - maskValue m + deposit m (k / 2)) by omega,
        ← zero_add (2 * _ % _), hdouble, and_low _ _ two_pos Nat.one_lt_two, ih,
        show (k + 1) / 2 = k / 2 + 1 by omega, show (k + 1) % 2 = 0 by omega, zero_and]
    | false =>
      rw [deposit, deposit, toNat_false, show 2 ^ m.length * 2 - (0 + 2 * maskValue m) + 2 * deposit m k =
          2 * (2 ^ m.length - maskValue m + deposit m k) by omega,
        ← zero_add (2 * _ % _), hdouble, and_low _ _ two_pos two_pos, ih, zero_and,
        zero_add]

/-- The step from one deposited number to the next, in words of the length of the mask. -/
theorem deposit_step {w : Nat} {m : List Bool} (hw : m.length = w) (k : Nat) :
    (BitVec.ofNat w (deposit m k) - BitVec.ofNat w (maskValue m)) &&& BitVec.ofNat w (maskValue m) =
      BitVec.ofNat w (deposit m (k + 1)) := by
  subst hw
  refine BitVec.eq_of_toNat_eq ?_
  rw [BitVec.toNat_and, BitVec.toNat_sub, BitVec.toNat_ofNat, BitVec.toNat_ofNat, BitVec.toNat_ofNat,
    mod_eq_of_lt (maskValue_lt m), mod_eq_of_lt (deposit_lt m k),
    mod_eq_of_lt (deposit_lt m (k + 1)), deposit_succ]

theorem deposit_append (m m' : List Bool) (k : Nat) :
    deposit (m ++ m') k = deposit m k + 2 ^ m.length * deposit m' (k / 2 ^ m.count true) := by
  induction m generalizing k with
  | nil => simp [deposit]
  | cons b m ih =>
    cases b with
    | true =>
      rw [cons_append, deposit, deposit, ih, count_cons_self, pow_succ',
        ← Nat.div_div_eq_div_mul, length_cons, pow_succ', mul_add, mul_assoc,
        add_assoc]
    | false =>
      rw [cons_append, deposit, deposit, ih, count_cons_of_ne (by decide), length_cons, pow_succ', mul_add, mul_assoc]

/-- Bits above those that the mask has are dropped. -/
theorem deposit_mul_add (m : List Bool) (q k : Nat) : deposit m (2 ^ m.count true * q + k) = deposit m k := by
  induction m generalizing k with
  | nil => rfl
  | cons b m ih =>
    cases b with
    | true =>
      rw [deposit, deposit, count_cons_self, pow_succ', mul_assoc, mul_add_mod, mul_add_div two_pos, ih]
    | false => rw [deposit, deposit, count_cons_of_ne (by decide), ih]

theorem deposit_replicate_true (n k : Nat) : deposit (List.replicate n true) k = k % 2 ^ n := by
  induction n generalizing k with
  | zero => exact (mod_one k).symm
  | succ n ih => rw [replicate_succ, deposit, ih, pow_succ', mod_mul]

theorem deposit_replicate_false (n k : Nat) : deposit (List.replicate n false) k = 0 := by
  induction n with
  | zero => rfl
  | succ n ih => rw [replicate_succ, deposit, ih]

theorem deposit_eq_zero_iff {m : List Bool} {k : Nat} : deposit m k = 0 ↔ 2 ^ m.count true ∣ k := by
  induction m generalizing k with
  | nil => exact iff_of_true rfl (one_dvd k)
  | cons b m ih =>
    cases b with
    | true =>
      have hih := ih (k := k / 2)
      rw [deposit, count_cons_self, pow_succ']
      constructor
      · intro h
        obtain ⟨c, hc⟩ := hih.mp (by omega)
        exact ⟨c, by rw [mul_assoc, ← hc]; omega⟩
      rintro ⟨c, hc⟩
      rw [mul_assoc] at hc
      have hzero := hih.mpr ⟨c, by omega⟩
      omega
    | false =>
      rw [deposit, count_cons_of_ne (by decide), ← ih]
      omega

/-! ## Weaving coordinates -/

section Weave

variable {ι : Type} [DecidableEq ι] {s : List ι} {p : ι → Nat} {k : Nat}

/-- The code of a point: `s` tells which coordinate the next bit is taken from. -/
def weave : List ι → (ι → Nat) → Nat
  | [], _ => 0
  | i :: s, p => p i % 2 + 2 * weave s (Function.update p i (p i / 2))

/-- The point of a code. -/
def unweave : List ι → Nat → ι → Nat
  | [], _ => fun _ => 0
  | i :: s, k => Function.update (unweave s (k / 2)) i (k % 2 + 2 * unweave s (k / 2) i)

/-- The points whose coordinates have as many bits as `s` takes from them. -/
def Box (s : List ι) (p : ι → Nat) : Prop := ∀ i, p i < 2 ^ s.count i

theorem box_nil : Box ([] : List ι) p ↔ ∀ i, p i = 0 := by simp only [Box, count_nil, pow_zero, lt_one_iff]

theorem Box.half {i : ι} (h : Box (i :: s) p) : Box s (update p i (p i / 2)) := by
  intro j
  have hj := h j
  by_cases hij : j = i
  · subst hij
    rw [count_cons_self, pow_succ] at hj
    rw [update_self]
    omega
  rwa [update_of_ne hij, ← count_cons_of_ne (Ne.symm hij)]

theorem weave_lt (s : List ι) (p : ι → Nat) : weave s p < 2 ^ s.length := by
  induction s generalizing p with
  | nil => exact one_pos
  | cons i s ih =>
    have hrest := ih (update p i (p i / 2))
    rw [weave, length_cons, pow_succ]
    omega

theorem weave_zero (s : List ι) (h : ∀ i, p i = 0) : weave s p = 0 := by
  induction s generalizing p with
  | nil => rfl
  | cons i s ih =>
    have hrest : update p i (p i / 2) = p := by rw [h i, Nat.zero_div, ← h i, update_eq_self]
    rw [weave, hrest, ih h, h i]

theorem box_unweave (s : List ι) (k : Nat) : Box s (unweave s k) := by
  induction s generalizing k with
  | nil => exact fun _ => one_pos
  | cons i s ih =>
    intro j
    have hj := ih (k / 2) j
    by_cases hij : j = i
    · subst hij
      rw [unweave, update_self, count_cons_self, pow_succ]
      omega
    rwa [unweave, update_of_ne hij, count_cons_of_ne (Ne.symm hij)]

theorem unweave_weave (h : Box s p) : unweave s (weave s p) = p := by
  induction s generalizing p with
  | nil => exact funext fun i => (box_nil.mp h i).symm
  | cons i s ih =>
    have hhalf : weave (i :: s) p / 2 = weave s (update p i (p i / 2)) := by
      rw [weave]
      omega
    have hlow : weave (i :: s) p % 2 = p i % 2 := by
      rw [weave]
      omega
    rw [unweave, hhalf, ih h.half, hlow, update_self, update_idem, mod_add_div, update_eq_self]

theorem weave_unweave (h : k < 2 ^ s.length) : weave s (unweave s k) = k := by
  induction s generalizing k with
  | nil => exact (lt_one_iff.mp h).symm
  | cons i s ih =>
    rw [length_cons, pow_succ] at h
    have hhalf : (k % 2 + 2 * unweave s (k / 2) i) / 2 = unweave s (k / 2) i := by omega
    rw [weave, unweave, update_self, update_idem, hhalf, update_eq_self, ih (by omega)]
    omega

/-- Every code below `2 ^ s.length` is that of exactly one point of the box. -/
theorem weave_bijOn (s : List ι) : Set.BijOn (weave s) {p | Box s p} (Set.Iio (2 ^ s.length)) :=
  ⟨fun p _ => weave_lt s p, fun p hp q hq h => by rw [← unweave_weave hp, ← unweave_weave hq, h],
    fun k hk => ⟨unweave s k, box_unweave s k, weave_unweave hk⟩⟩

/-- A code is the sum of what is deposited for the coordinates. -/
theorem weave_eq_sum [Fintype ι] (s : List ι) (p : ι → Nat) : weave s p = ∑ i, deposit (s.map (· == i)) (p i) := by
  induction s generalizing p with
  | nil => exact (Finset.sum_const_zero).symm
  | cons i s ih =>
    have hcoord (j : ι) : deposit ((i :: s).map (· == j)) (p j) = (if j = i then p i % 2 else 0) +
          2 * deposit (s.map (· == j)) (update p i (p i / 2) j) := by
      by_cases hij : j = i
      · subst hij
        rw [map_cons, beq_self_eq_true, deposit, if_pos rfl, update_self]
      rw [map_cons, beq_false_of_ne (Ne.symm hij), deposit, if_neg hij, update_of_ne hij, zero_add]
    rw [weave, ih, Finset.sum_congr rfl fun j _ => hcoord j, Finset.sum_add_distrib,
      Finset.sum_ite_eq' Finset.univ i, if_pos (Finset.mem_univ i), Finset.mul_sum]

end Weave

end Rpcsx.Lib
