import Mathlib.Data.List.Lex
import Mathlib.Data.UInt

/-!
# Byte strings

Byte strings as lists of bytes: their order (lexicographic, bytes compared as unsigned numbers, as
`std::string` does), the C string at the front of one, and the pieces cut out of one by position.
-/

namespace Rpcsx.Lib

open List

/-- Bytes are ordered as unsigned numbers. -/
instance instLinearOrderUInt8 : LinearOrder UInt8 where
  le_refl := UInt8.le_refl
  le_trans _ _ _ := UInt8.le_trans
  le_antisymm _ _ := UInt8.le_antisymm
  le_total := UInt8.le_total
  lt_iff_le_not_ge a b := by
    rw [UInt8.not_le]
    exact ⟨fun h => ⟨UInt8.le_of_lt h, h⟩, fun h => h.2⟩
  toDecidableLE := inferInstance
  toDecidableEq := inferInstance
  toDecidableLT := inferInstance

abbrev Bytes := List UInt8

/-- The bytes of a literal. -/
def ascii (s : String) : List UInt8 := s.toList.map fun c => UInt8.ofNat c.toNat

/-- The C string at the front: everything before the first zero byte. -/
def cString (bytes : List UInt8) : List UInt8 := bytes.takeWhile (· ≠ 0)

variable {s : List UInt8}

theorem cString_append_zero (h : 0 ∉ s) (rest : List UInt8) : cString (s ++ 0 :: rest) = s := by
  have hall : ∀ b ∈ s, decide (b ≠ 0) = true := by
    intro b hb
    rw [decide_eq_true_eq]
    rintro rfl
    exact h hb
  rw [cString, takeWhile_append_of_pos hall]
  simp

/-- What follows a terminator does not matter. -/
theorem cString_append_of_mem (h : 0 ∈ s) (rest : List UInt8) : cString (s ++ rest) = cString s := by
  obtain ⟨a, b, rfl, ha⟩ := eq_append_cons_of_mem h
  rw [append_assoc, cons_append, cString_append_zero ha, cString_append_zero ha]

theorem length_cString_le (s : List UInt8) : (cString s).length ≤ s.length := (takeWhile_sublist _).length_le

/-- Without a terminator all of the bytes are the string. -/
theorem length_cString_eq_iff : (cString s).length = s.length ↔ 0 ∉ s := by
  refine ⟨fun hlen hzero => ?_, fun hzero => ?_⟩
  · obtain ⟨a, b, rfl, ha⟩ := eq_append_cons_of_mem hzero
    rw [cString_append_zero ha, length_append, length_cons] at hlen
    omega
  have hself := congrArg List.length (cString_append_zero hzero [])
  rw [cString, takeWhile_append] at hself
  split at hself
  · assumption
  · exact hself

/-- `n` bytes from position `pos` on, as many of them as there are. -/
def slice (bytes : List UInt8) (pos n : Nat) : List UInt8 := (bytes.drop pos).take n

theorem slice_append {a b c : List UInt8} {pos n : Nat} (hpos : pos = a.length) (hn : n = b.length) :
    slice (a ++ b ++ c) pos n = b := by
  subst hpos hn
  simp [slice, append_assoc]

theorem slice_append_right (a b : List UInt8) (pos n : Nat) : slice (a ++ b) (a.length + pos) n = slice b pos n := by
  rw [slice, drop_length_add_append, slice]

theorem length_slice (bytes : List UInt8) (pos n : Nat) : (slice bytes pos n).length = min n (bytes.length - pos) := by
  simp [slice]

theorem slice_take {bytes : List UInt8} {pos n m : Nat} (h : pos + n ≤ m) : slice (bytes.take m) pos n = slice bytes pos n := by
  rw [slice, slice, drop_take, take_take, Nat.min_eq_left (by omega)]

theorem slice_slice (bytes : List UInt8) (pos n pos' m : Nat) :
    slice (slice bytes pos n) pos' m = slice bytes (pos + pos') (min m (n - pos')) := by
  rw [slice, slice, slice, drop_take, take_take, drop_drop]

theorem slice_append_slice (bytes : List UInt8) (pos n m : Nat) :
    slice bytes pos n ++ slice bytes (pos + n) m = slice bytes pos (n + m) := by
  rw [slice, slice, slice, take_add, drop_drop]

theorem getElem?_slice (bytes : List UInt8) (pos n i : Nat) :
    (slice bytes pos n)[i]? = if i < n then bytes[pos + i]? else none := by rw [slice, getElem?_take, getElem?_drop]

/-- Put `src` over the bytes from position `pos` on. -/
def overwrite (bytes : List UInt8) (pos : Nat) (src : List UInt8) : List UInt8 :=
  bytes.take pos ++ src ++ bytes.drop (pos + src.length)

section

variable {bytes src : List UInt8} {pos at' n : Nat} (h : pos + src.length ≤ bytes.length)

include h

theorem length_overwrite : (overwrite bytes pos src).length = bytes.length := by
  simp only [overwrite, length_append, length_take, length_drop]
  omega

/-- The bytes before and behind are left alone. -/
theorem slice_overwrite_of_disjoint (hd : at' + n ≤ pos ∨ pos + src.length ≤ at') :
    slice (overwrite bytes pos src) at' n = slice bytes at' n := by
  refine ext_getElem? fun i => ?_
  rw [getElem?_slice, getElem?_slice]
  split
  case isFalse => rfl
  have hpos : (bytes.take pos).length = pos := length_take_of_le (by omega)
  rcases hd with hd | hd
  · rw [overwrite, append_assoc, getElem?_append_left (by omega), getElem?_take_of_lt (by omega)]
  rw [overwrite, getElem?_append_right (by rw [length_append]; omega), getElem?_drop, length_append, hpos]
  congr 1
  omega

/-- What was written is there. -/
theorem slice_overwrite_self (hn : src.length ≤ n) :
    slice (overwrite bytes pos src) pos n = src ++ slice bytes (pos + src.length) (n - src.length) := by
  have hpos : (bytes.take pos).length = pos := length_take_of_le (by omega)
  have hdrop : (overwrite bytes pos src).drop pos = src ++ bytes.drop (pos + src.length) := by
    rw [overwrite, append_assoc, drop_append_of_le_length (by omega), drop_of_length_le (by omega), nil_append]
  rw [slice, hdrop, take_append, take_of_length_le hn, slice]

omit h in
/-- Writing a tail and then its front is writing both. -/
theorem overwrite_overwrite {tail : List UInt8} (h : pos + (src ++ tail).length ≤ bytes.length) :
    overwrite (overwrite bytes (pos + src.length) tail) pos src = overwrite bytes pos (src ++ tail) := by
  rw [length_append] at h
  have hlen : (bytes.take (pos + src.length)).length = pos + src.length := length_take_of_le (by omega)
  have htake : (overwrite bytes (pos + src.length) tail).take pos = bytes.take pos := by
    rw [overwrite, append_assoc, take_append_of_le_length (by omega), take_take, Nat.min_eq_left (by omega)]
  have hdrop : (overwrite bytes (pos + src.length) tail).drop (pos + src.length) =
      tail ++ bytes.drop (pos + src.length + tail.length) := by
    rw [overwrite, append_assoc, drop_append_of_le_length (by omega), drop_of_length_le (by omega), nil_append]
  rw [overwrite, htake, hdrop, overwrite, length_append, append_assoc, append_assoc, append_assoc, ← Nat.add_assoc]

end

end Rpcsx.Lib
