import Mathlib.Data.List.Basic
import Rpcsx.Lib.Codec

/-!
# Records in memory

A record of `n` bytes as it lies in memory and in a file. Its fields are numbers whose most significant
byte comes first. A table of records is read where its bytes stand (`readRecords_eq_some`).
-/

namespace Rpcsx.Lib

open List Option

/-- The number with these bytes, the most significant one first. -/
def ofBeBytes (bytes : List UInt8) : Nat := ofLeBytes bytes.reverse

/-- The `k` low bytes of `n`, the most significant one first. -/
def beBytes (k n : Nat) : List UInt8 := (leBytes k n).reverse

@[ext]
structure Record (n : Nat) where
  bytes : List UInt8
  length_bytes : bytes.length = n
  deriving DecidableEq

namespace Record

variable {n : Nat}

def field (r : Record n) (off k : Nat) : Nat := ofBeBytes ((r.bytes.drop off).take k)

/-- The record with a field of `k` bytes at `off` replaced. -/
def setField (r : Record n) (off k value : Nat) (h : off + k ≤ n) : Record n :=
  ⟨r.bytes.take off ++ beBytes k value ++ r.bytes.drop (off + k), by
    have := r.length_bytes
    simp only [beBytes, length_append, length_take, length_reverse, length_leBytes,
      length_drop]
    omega⟩

end Record

def tableBytes {n : Nat} (rs : List (Record n)) : List UInt8 := rs.flatMap Record.bytes

theorem length_tableBytes {n : Nat} (rs : List (Record n)) : (tableBytes rs).length = n * rs.length := by
  induction rs with
  | nil => rfl
  | cons r rs ih =>
    have hr := r.length_bytes
    rw [tableBytes, flatMap_cons, length_append, hr, ← tableBytes, ih, length_cons, Nat.mul_succ, Nat.add_comm]

def readRecords (n : Nat) : Nat → List UInt8 → Option (List (Record n))
  | 0, _ => some []
  | k + 1, bytes =>
    if h : n ≤ bytes.length then
      (readRecords n k (bytes.drop n)).map (⟨bytes.take n, length_take_of_le h⟩ :: ·)
    else none

theorem readRecords_eq_some {n k : Nat} {bytes : List UInt8} {rs : List (Record n)} :
    readRecords n k bytes = some rs ↔ rs.length = k ∧ tableBytes rs <+: bytes := by
  induction k generalizing bytes rs with
  | zero =>
    constructor
    · rintro ⟨⟩
      exact ⟨rfl, List.nil_prefix⟩
    rintro ⟨hlen, -⟩
    rw [length_eq_zero_iff.mp hlen]
    rfl
  | succ k ih =>
    rw [readRecords]
    constructor
    · intro h
      split at h
      case isFalse => cases h
      obtain ⟨rs', hrs', rfl⟩ := map_eq_some_iff.mp h
      obtain ⟨hlen, rest, hrest⟩ := ih.mp hrs'
      refine ⟨congrArg (· + 1) hlen, rest, ?_⟩
      rw [tableBytes, flatMap_cons, append_assoc, ← tableBytes, hrest]
      exact take_append_drop n bytes
    rintro ⟨hlen, rest, hrest⟩
    obtain ⟨r, rs, rfl⟩ := exists_cons_of_length_eq_add_one hlen
    have hr := r.length_bytes
    rw [tableBytes, flatMap_cons, append_assoc] at hrest
    have hle : n ≤ bytes.length := by
      rw [← hrest, length_append, hr]
      exact Nat.le_add_right _ _
    have htake : bytes.take n = r.bytes := by
      rw [← hrest, take_append_of_le_length (le_of_eq hr.symm), take_of_length_le (le_of_eq hr)]
    have hdrop : bytes.drop n = tableBytes rs ++ rest := by
      rw [← hrest, drop_append_of_le_length (le_of_eq hr.symm), drop_of_length_le (le_of_eq hr), nil_append]
      rfl
    rw [dif_pos hle, hdrop, ih.mpr ⟨Nat.succ.inj hlen, rest, rfl⟩, map_some]
    congr 2
    exact Record.ext htake

/-- A table can be read where there are enough bytes. -/
theorem isSome_readRecords {n k : Nat} {bytes : List UInt8} :
    (readRecords n k bytes).isSome ↔ n * k ≤ bytes.length := by
  induction k generalizing bytes with
  | zero => simp [readRecords]
  | succ k ih =>
    rw [readRecords, Nat.mul_succ]
    split
    · rw [isSome_map, ih, length_drop]
      omega
    simp only [isSome_none, Bool.false_eq_true, false_iff]
    omega

end Rpcsx.Lib
