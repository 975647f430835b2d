import Mathlib.Data.Finset.Insert
import Rpcsx.Lib.OrdMap
import Rpcsx.Rx.AddressRange

/-!
# `rx::MemoryAreaTable`

The table without payloads: an ordered map from addresses to the markers `O` and `X`. It is
generic in the handler that is told which areas a call invalidates. As in the table with payloads
an iterator is the key it points to, and the result `none` is a failed `assert` or a dereference of
a position that is not in the map.
-/

namespace Rpcsx.Rx

open Lib

/-- `handleInvalidation(address)`, the base class of the table. -/
class InvalidationHandle (H : Type) where
  handleInvalidation : H → Nat → H

structure NoInvalidationHandle where
  deriving DecidableEq

instance : InvalidationHandle NoInvalidationHandle := ⟨fun h _ => h⟩

inductive Kind where
  | o
  | x
  deriving DecidableEq, Repr

def Kind.opens : Kind → Bool
  | .o => true
  | .x => false

structure MemoryAreaTable (H : Type) where
  handle : H
  mAreas : OrdMap Nat Kind

namespace MemoryAreaTable

variable {H : Type} [InvalidationHandle H]

def empty (h : H) : MemoryAreaTable H := ⟨h, OrdMap.empty⟩

def invalidate (t : MemoryAreaTable H) (address : Nat) : MemoryAreaTable H :=
  { t with handle := InvalidationHandle.handleInvalidation t.handle address }

def erase (t : MemoryAreaTable H) (k : Nat) : MemoryAreaTable H :=
  { t with mAreas := t.mAreas.erase k }

def emplace (t : MemoryAreaTable H) (k : Nat) (kind : Kind) : MemoryAreaTable H :=
  { t with mAreas := (t.mAreas.emplace k kind).1 }

def prevOf (t : MemoryAreaTable H) : Option Nat → Option Nat
  | none => t.mAreas.entries.getLast?.map Prod.fst
  | some k => t.mAreas.prev k

/-! ## `map` -/

def extendBegin (t : MemoryAreaTable H) (b : Nat) (beginInserted : Bool) : Option (MemoryAreaTable H × Nat) :=
  if !beginInserted then
    match t.mAreas.find? b with
    | none => none
    | some .x => (t.mAreas.prev b).map fun p => (t, p)
    | some .o => some (t, b)
  else
    match t.mAreas.prev b with
    | none => some (t, b)
    | some p =>
      match t.mAreas.find? p with
      | some .o => some ((t.invalidate b).erase b, p)
      | _ => some (t, b)

def extendEnd (t : MemoryAreaTable H) (e : Nat) (endInserted : Bool) : Option (MemoryAreaTable H × Option Nat) :=
  if !endInserted then
    match t.mAreas.find? e with
    | none => none
    | some .o => some (t, t.mAreas.next e)
    | some .x => some (t, some e)
  else
    match t.mAreas.next e with
    | none => some (t, some e)
    | some n =>
      match t.mAreas.find? n with
      | some .x => (t.mAreas.prev e).map fun q => ((t.invalidate q).erase e, some n)
      | _ => some (t, some e)

/-- `while (beginIt != endIt)`, over the markers after `beginIt`. -/
def eatMiddle (endIt : Option Nat) : List (Nat × Kind) → MemoryAreaTable H → Option (MemoryAreaTable H)
  | [], t => if endIt = none then some t else none
  | (k, _) :: rest, t =>
    if endIt = some k then some t
    else (t.prevOf endIt).bind fun q => eatMiddle endIt rest ((t.invalidate q).erase k)

def map (t : MemoryAreaTable H) (range : AddressRange) : Option (MemoryAreaTable H) :=
  let (areas, beginInserted) := t.mAreas.emplace range.beginAddress .o
  let (areas, endInserted) := areas.emplace range.endAddress .x
  (extendBegin { t with mAreas := areas } range.beginAddress beginInserted).bind
    fun (t, beginIt) => (t.extendEnd range.endAddress endInserted).bind
      fun (t, endIt) => eatMiddle endIt (t.mAreas.after beginIt) t

/-! ## `unmap` -/

/-- `while (beginIt != end() && beginIt->first <= endAddress)`; returns `lastKind` too. -/
def sweep (e : Nat) : List (Nat × Kind) → MemoryAreaTable H → Kind → Option (MemoryAreaTable H × Kind)
  | [], t, lastKind => some (t, lastKind)
  | (k, n) :: rest, t, lastKind =>
    if e < k then some (t, lastKind)
    else
      (if n = .o then (t.mAreas.prev k).map t.invalidate else some t).bind
        fun t => sweep e rest (t.erase k) n

def sweepAndClose (t : MemoryAreaTable H) (e : Nat) (rest : List (Nat × Kind)) : Option (MemoryAreaTable H) :=
  (sweep e rest t .x).map fun (t, lastKind) => if lastKind ≠ .o then t else t.emplace e .o

def unmapFrom (t : MemoryAreaTable H) (b e beginIt : Nat) : Option (MemoryAreaTable H) :=
  match t.mAreas.find? beginIt with
  | none => none
  | some n =>
    if b < beginIt ∧ n = .x then
      (t.mAreas.prev beginIt).bind fun q =>
        let t' := ((t.invalidate q).emplace b .x).erase beginIt
        t'.sweepAndClose e (t'.mAreas.after b)
    else if n = .x then t.sweepAndClose e (t.mAreas.after beginIt)
    else t.sweepAndClose e ((beginIt, n) :: t.mAreas.after beginIt)

def unmap (t : MemoryAreaTable H) (b e : Nat) : Option (MemoryAreaTable H) :=
  match t.mAreas.lowerBound b with
  | none => some t
  | some k =>
    match t.mAreas.find? k with
    | none => none
    | some n =>
      if e ≤ k then
        if n ≠ .x then some t
        else
          match t.mAreas.prev k with
          | none => none
          | some k0 =>
            if e ≤ k0 then some t
            else
              let (t, beginIt) := if k0 < b then ((t.invalidate k0).emplace b .x, b) else (t, k0)
              if e < k then some (t.emplace e .o) else t.unmapFrom b e beginIt
      else t.unmapFrom b e k

/-! ## Iteration and `totalMemory` -/

/-- The areas that `begin()`, `++` and `*` list: the markers in pairs. -/
def areasOf : List (Nat × Kind) → List AddressRange
  | (b, _) :: (e, _) :: rest => ⟨b, e⟩ :: areasOf rest
  | _ => []

omit [InvalidationHandle H] in
def areas (t : MemoryAreaTable H) : List AddressRange := areasOf t.mAreas.entries

/-- The loop of `totalMemory`, which reads the markers in pairs. -/
def totalOf : List (Nat × Kind) → Nat → Option Nat
  | [], result => some result
  | [_], _ => none
  | (b, _) :: (e, _) :: rest, result => totalOf rest (u64 (result + u64Sub e b))

omit [InvalidationHandle H] in
def totalMemory (t : MemoryAreaTable H) : Option Nat := totalOf t.mAreas.entries 0

end MemoryAreaTable

end Rpcsx.Rx
