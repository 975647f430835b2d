import Mathlib.Data.Nat.Digits.Lemmas
import Rpcsx.Lib.ByteString

/-!
# Numbers as text

The text of a number in a base of at most ten, most significant digit first and without leading
zeros, and the reading of such a text up to the first byte that is not a digit.
-/

namespace Rpcsx.Lib

open List Nat

variable {b n d : Nat} {c : UInt8}

def digitByte (d : Nat) : UInt8 := UInt8.ofNat (48 + d)

def isDigit (b : Nat) (c : UInt8) : Bool := 48 ≤ c.toNat ∧ c.toNat < 48 + b

/-- The text of a number; empty for zero. -/
def digitText (b n : Nat) : List UInt8 := (Nat.digits b n).reverse.map digitByte

/-- The number that digits spell. -/
def ofDigitText (b : Nat) (text : List UInt8) : Nat :=
  text.foldl (fun acc c => acc * b + (c.toNat - 48)) 0

theorem digitByte_toNat (h : d < 10) : (digitByte d).toNat = 48 + d := by
  rw [digitByte, UInt8.toNat_ofNat', mod_eq_of_lt (by omega)]

theorem isDigit_digitByte (hb : b ≤ 10) (h : d < b) : isDigit b (digitByte d) := by
  rw [isDigit, digitByte_toNat (by omega), decide_eq_true_eq]
  omega

theorem digitText_zero (b : Nat) : digitText b 0 = [] := by
  rw [digitText, digits_zero]
  rfl

theorem length_digitText (b n : Nat) : (digitText b n).length = (Nat.digits b n).length := by
  rw [digitText, length_map, length_reverse]

theorem digitText_ne_nil (h : n ≠ 0) : digitText b n ≠ [] := by
  rw [digitText, Ne, map_eq_nil_iff, reverse_eq_nil_iff]
  exact digits_ne_nil_iff_ne_zero.mpr h

/-- The last digit is the remainder. -/
theorem digitText_eq_append (hb : 1 < b) (h : n ≠ 0) : digitText b n = digitText b (n / b) ++ [digitByte (n % b)] := by
  rw [digitText, digits_def' hb (pos_of_ne_zero h), reverse_cons, map_append]
  rfl

/-- Every byte of the text is a digit. -/
theorem isDigit_of_mem (hb : 1 < b) (hb' : b ≤ 10) (h : c ∈ digitText b n) : isDigit b c := by
  rw [digitText, List.mem_map] at h
  obtain ⟨d, hd, rfl⟩ := h
  exact isDigit_digitByte hb' (digits_lt_base hb (mem_reverse.mp hd))

/-- The text spells the number. -/
theorem ofDigitText_digitText (hb : 1 < b) (hb' : b ≤ 10) (n : Nat) : ofDigitText b (digitText b n) = n := by
  induction n using Nat.strong_induction_on with
  | h n ih =>
    by_cases hn : n = 0
    · rw [hn, digitText_zero]
      rfl
    have hlt : n / b < n := div_lt_self (pos_of_ne_zero hn) hb
    have hmod : n % b < b := mod_lt _ (by omega)
    rw [digitText_eq_append hb hn, ofDigitText, foldl_append]
    change ofDigitText b (digitText b (n / b)) * b + ((digitByte (n % b)).toNat - 48) = n
    rw [ih _ hlt, digitByte_toNat (by omega), Nat.add_sub_cancel_left, Nat.mul_comm]
    exact div_add_mod n b

/-- Reading stops behind the digits. -/
theorem takeWhile_digitText (hb : 1 < b) (hb' : b ≤ 10) (hc : isDigit b c = false)
    (n : Nat) (rest : List UInt8) : (digitText b n ++ c :: rest).takeWhile (isDigit b) = digitText b n := by
  rw [takeWhile_append_of_pos fun x hx => isDigit_of_mem hb hb' hx,
    takeWhile_cons_of_neg (by rw [hc]; exact Bool.false_ne_true), append_nil]

/-- The number of octal digits, from the number of bits. -/
theorem length_octal (h : n ≠ 0) : (digitText 8 n).length = (Nat.log2 n + 3) / 3 := by
  have hlow : 2 ^ n.log2 ≤ n := log2_self_le h
  have hhigh : n < 2 ^ (n.log2 + 1) := lt_log2_self
  have hlog : Nat.log 8 n = n.log2 / 3 := by
    rw [log_eq_iff (.inr ⟨by decide, h⟩), show 8 = 2 ^ 3 from rfl, ← pow_mul, ← pow_mul]
    exact ⟨(Nat.pow_le_pow_right (by decide) (by omega)).trans hlow,
      hhigh.trans_le (Nat.pow_le_pow_right (by decide) (by omega))⟩
  rw [length_digitText, length_digits 8 n (by decide) h, hlog]
  omega

theorem length_digitText_le_iff (hb : 1 < b) {k : Nat} : (digitText b n).length ≤ k ↔ n < b ^ k := by
  rw [length_digitText]
  exact digits_length_le_iff hb n

end Rpcsx.Lib
