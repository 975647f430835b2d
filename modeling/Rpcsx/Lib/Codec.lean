import Mathlib.Data.Nat.Basic
import Mathlib.Data.UInt

/-!
# Byte codecs

A codec writes a value as bytes and reads it back from the front of a byte list, leaving the rest.
Reading fails when there are too few bytes. That reading inverts writing is part of the structure.
Words are stored with the least significant byte first.
-/

namespace Rpcsx.Lib

open List

structure Codec (A : Type) where
  encode : A → List UInt8
  decode : List UInt8 → Option (A × List UInt8)
  decode_encode : ∀ a rest, decode (encode a ++ rest) = some (a, rest)

/-- The `k` low bytes of `n`, least significant first. -/
def leBytes : Nat → Nat → List UInt8
  | 0, _ => []
  | k + 1, n => UInt8.ofNat n :: leBytes k (n / 256)

def ofLeBytes : List UInt8 → Nat
  | [] => 0
  | b :: bs => b.toNat + 256 * ofLeBytes bs

@[simp] theorem length_leBytes (k n : Nat) : (leBytes k n).length = k := by
  induction k generalizing n with
  | zero => rfl
  | succ k ih => simp [leBytes, ih]

theorem ofLeBytes_leBytes (k n : Nat) : ofLeBytes (leBytes k n) = n % 256 ^ k := by
  induction k generalizing n with
  | zero => simp [leBytes, ofLeBytes, Nat.mod_one]
  | succ k ih =>
    rw [leBytes, ofLeBytes, ih, Nat.pow_succ, Nat.mul_comm (256 ^ k) 256, Nat.mod_mul, UInt8.toNat_ofNat']

theorem ofLeBytes_lt (bytes : List UInt8) : ofLeBytes bytes < 256 ^ bytes.length := by
  induction bytes with
  | nil => exact Nat.one_pos
  | cons b bytes ih =>
    have hb := b.toNat_lt
    rw [ofLeBytes, length_cons, Nat.pow_succ]
    omega

def readWord (k : Nat) (bytes : List UInt8) : Option (Nat × List UInt8) :=
  if bytes.length < k then none else some (ofLeBytes (bytes.take k), bytes.drop k)

theorem readWord_leBytes {k n : Nat} (h : n < 256 ^ k) (rest : List UInt8) :
    readWord k (leBytes k n ++ rest) = some (n, rest) := by
  have hlen : ¬ (leBytes k n ++ rest).length < k := by simp
  have htake : (leBytes k n ++ rest).take k = leBytes k n := by
    rw [take_append_of_le_length (by simp), take_of_length_le (by simp)]
  have hdrop : (leBytes k n ++ rest).drop k = rest := by
    rw [drop_append_of_le_length (by simp), drop_of_length_le (by simp), nil_append]
  rw [readWord, if_neg hlen, htake, hdrop, ofLeBytes_leBytes, Nat.mod_eq_of_lt h]

end Rpcsx.Lib
