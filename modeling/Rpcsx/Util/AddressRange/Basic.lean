import Mathlib.Data.UInt
import Mathlib.Order.Interval.Set.Basic
import Mathlib.Order.Fin.Basic

/-!
# Address ranges

`utils::address_range` and `utils::address_range_vector`. An address is a number of an unsigned type
`T`, here the numbers below `n + 2`: addition and subtraction wrap around, and the greatest number is
`umax`. A range has both of its ends, and is valid if they are in order.
-/

namespace Rpcsx.Util

abbrev Address (n : Nat) := Fin (n + 2)

def umax {n : Nat} : Address n := Fin.last (n + 1)

@[ext]
structure AddressRange (n : Nat) where
  start : Address n
  last : Address n
  deriving DecidableEq

variable {n : Nat}

namespace AddressRange

/-- What an entry is set to when it is removed; it is not valid. -/
def null : AddressRange n := ⟨umax, 0⟩

def Valid (r : AddressRange n) : Prop := r.start ≤ r.last

instance (r : AddressRange n) : Decidable r.Valid := inferInstanceAs (Decidable (_ ≤ _))

/-- The address behind the range, which is 0 behind the last address. -/
def nextAddress (r : AddressRange n) : Address n := r.last + 1

def prevAddress (r : AddressRange n) : Address n := r.start - 1

def Overlaps (r other : AddressRange n) : Prop := r.start ≤ other.last ∧ other.start ≤ r.last

instance (r other : AddressRange n) : Decidable (r.Overlaps other) :=
  inferInstanceAs (Decidable (_ ∧ _))

def OverlapsAddress (r : AddressRange n) (addr : Address n) : Prop :=
  r.start ≤ addr ∧ addr ≤ r.last

instance (r : AddressRange n) (addr : Address n) : Decidable (r.OverlapsAddress addr) :=
  inferInstanceAs (Decidable (_ ∧ _))

def Inside (r other : AddressRange n) : Prop := other.start ≤ r.start ∧ r.last ≤ other.last

instance (r other : AddressRange n) : Decidable (r.Inside other) :=
  inferInstanceAs (Decidable (_ ∧ _))

/-- The ranges overlap, or one begins where the other one ends. -/
def Touches (r other : AddressRange n) : Prop :=
  r.Overlaps other ∨ other.start = r.nextAddress ∨ other.last = r.prevAddress

instance (r other : AddressRange n) : Decidable (r.Touches other) :=
  inferInstanceAs (Decidable (_ ∨ _))

/-- The smallest range around both; a range that is not valid does not count. -/
def getMinMax (r other : AddressRange n) : AddressRange n :=
  ⟨min (if r.Valid then r.start else umax) (if other.Valid then other.start else umax),
    max (if r.Valid then r.last else 0) (if other.Valid then other.last else 0)⟩

end AddressRange

open AddressRange

/-- `address_range_vector`. Entries that are not valid stand for free places. -/
abbrev AddressRangeVector (n : Nat) := List (AddressRange n)

namespace AddressRangeVector

/-! ## Merging -/

/-- The entries that `merge` has passed, with the positions of the entry that has taken up the new
range and of an invalid entry. -/
structure Merging (n : Nat) where
  passed : AddressRangeVector n
  found : Option Nat
  invalid : Option Nat

/-- The turn of the loop for one entry. -/
def mergeEntry (newRange : AddressRange n) (s : Merging n) (existing : AddressRange n) : Merging n :=
  if ¬existing.Valid then
    { s with passed := s.passed ++ [existing], invalid := some s.passed.length }
  else if existing.Touches newRange then
    match s.found with
    | some k => { s with passed := s.passed.modify k (·.getMinMax existing) ++ [null] }
    | none =>
      { s with passed := s.passed ++ [existing.getMinMax newRange], found := some s.passed.length }
  else { s with passed := s.passed ++ [existing] }

/-- `merge`: the first range that touches the new one takes it up, together with all others that do. -/
def merge (data : AddressRangeVector n) (newRange : AddressRange n) : AddressRangeVector n :=
  if ¬newRange.Valid then data
  else
    let s := data.foldl (mergeEntry newRange) ⟨[], none, none⟩
    match s.found, s.invalid with
    | some _, _ => s.passed
    | none, some k => s.passed.set k newRange
    | none, none => s.passed ++ [newRange]

/-! ## Excluding -/

/-- The entries that `exclude` has passed, those that it has put behind the end, and the position of
an invalid entry. -/
structure Excluding (n : Nat) where
  passed : AddressRangeVector n
  pushed : AddressRangeVector n
  invalid : Option Nat

/-- The turn of the loop for one entry, which is removed, cut on one side or split. -/
def excludeEntry (exclusion : AddressRange n) (s : Excluding n) (existing : AddressRange n) : Excluding n :=
  if ¬existing.Valid then
    { s with passed := s.passed ++ [existing], invalid := some s.passed.length }
  else if ¬existing.Overlaps exclusion then { s with passed := s.passed ++ [existing] }
  else if exclusion.OverlapsAddress existing.start ∧ exclusion.OverlapsAddress existing.last then
    { s with passed := s.passed ++ [null], invalid := some s.passed.length }
  else if exclusion.OverlapsAddress existing.start then
    { s with passed := s.passed ++ [{ existing with start := exclusion.nextAddress }] }
  else if exclusion.OverlapsAddress existing.last then
    { s with passed := s.passed ++ [{ existing with last := exclusion.prevAddress }] }
  else
    let head : AddressRange n := { existing with last := exclusion.prevAddress }
    let tail : AddressRange n := ⟨exclusion.nextAddress, existing.last⟩
    match s.invalid with
    | some k => { s with passed := s.passed.set k tail ++ [head], invalid := none }
    | none => { s with passed := s.passed ++ [head], pushed := s.pushed ++ [tail] }

/-- `exclude(range)`. -/
def exclude (data : AddressRangeVector n) (exclusion : AddressRange n) : AddressRangeVector n :=
  if ¬exclusion.Valid then data
  else
    let s := data.foldl (excludeEntry exclusion) ⟨[], [], none⟩
    s.passed ++ s.pushed

/-- `exclude(vector)`. -/
def excludeAll (data other : AddressRangeVector n) : AddressRangeVector n := other.foldl exclude data

/-! ## Queries -/

/-- `check_consistency`: no two valid ranges touch. -/
def checkConsistency : AddressRangeVector n → Bool
  | [] => true
  | r₁ :: rest =>
    (!r₁.Valid || rest.all fun r₂ => !r₂.Valid || !r₁.Touches r₂) && checkConsistency rest

def overlaps (data : AddressRangeVector n) (range : AddressRange n) : Bool :=
  data.any fun cur => cur.Valid && cur.Overlaps range

def contains (data : AddressRangeVector n) (range : AddressRange n) : Bool :=
  data.any fun cur => cur.Valid && cur.Inside range

end AddressRangeVector

end Rpcsx.Util
