import Rpcsx.Rx.MemoryTable.Basic

/-!
# `kernel::AllocableResource`

A range of addresses divided into areas, each with an allocation record. `map` finds or cuts out a
range and gives it a new record; `merge` then joins it to neighbours that the record type calls
related. Everything is generic in the record type, which also says whether it wants to be told when
an area is cut (`truncate`).

The result is `none` where the source would fail an assertion or dereference `end()`.
-/

namespace Rpcsx.Kernel

open Rx

/-- `std::errc`, the members that `map` returns. -/
inductive Errc where
  | invalid_argument
  | not_enough_memory
  | file_exists
  deriving DecidableEq, Repr

structure AllocationFlags where
  NoOverwrite : Bool
  NoMerge : Bool
  Fixed : Bool
  Stack : Bool
  Dry : Bool
  deriving DecidableEq, Repr

def AllocationFlags.none : AllocationFlags := ⟨false, false, false, false, false⟩

/-- `concept AllocationInfo`; `truncate` is the member that types may leave out. -/
class AllocationInfo (A : Type) where
  isAllocated : A → Bool
  isRelated : A → A → AddressRange → AddressRange → Bool
  merge : A → A → AddressRange → AddressRange → A
  truncate : Option (A → AddressRange → AddressRange → AddressRange → AddressRange × A)

open AllocationInfo

structure AllocationResult where
  it : Iter
  errc : Option Errc
  range : AddressRange
  deriving DecidableEq, Repr

def AllocationResult.failed (errc : Errc) : AllocationResult := ⟨none, some errc, default⟩

namespace AllocableResource

variable {A : Type} [AllocationInfo A] [Inhabited A] [DecidableEq A]

abbrev Allocations (A : Type) := MemoryTableWithPayload A

/-! ## Truncation -/

def notifyTruncation (t : Allocations A) (node : Nat) (leftRange rightRange : AddressRange) :
    Option (Allocations A) := do
  let info ← t.get? node
  let range ← t.range? node
  if !isAllocated info then some t
  else
    match truncate (A := A) with
    | none => some t
    | some truncate =>
      let (newRange, payload) := truncate info range leftRange rightRange
      if newRange.isValid then (t.map newRange payload true false).map Prod.fst else some t

def notifyMiddle (t : Allocations A) : Nat → Iter → Nat → Option (Allocations A)
  | 0, _, _ => none
  | _ + 1, none, _ => none
  | fuel + 1, some beginIt, endIt =>
    if beginIt = endIt then some t
    else (notifyTruncation t beginIt default default).bind fun t =>
      notifyMiddle t fuel (t.iterNext beginIt) endIt

/-- All areas that a fixed range affects are told, if the record type wants to know. -/
def notifyAll (t : Allocations A) (it endIt : Nat) (fixedRange : AddressRange) : Option (Allocations A) := do
  if (truncate (A := A)).isNone then some t
  else if it = endIt then
    let range ← t.range? it
    notifyTruncation t it (.fromBeginEnd range.beginAddress fixedRange.beginAddress)
      (.fromBeginEnd fixedRange.endAddress range.endAddress)
  else
    let t ← notifyTruncation t it (.fromBeginEnd it fixedRange.beginAddress) default
    let t ← notifyMiddle t (t.mAreas.entries.length + 1) (t.iterNext it) endIt
    let endAddress ← t.endAddress? endIt
    notifyTruncation t endIt default (.fromBeginEnd fixedRange.endAddress endAddress)

/-! ## The search for a free range -/

def hasEnoughSpace (addressHint size alignment : Nat) (flags : AllocationFlags) (range : AddressRange) : Bool :=
  let range :=
    if addressHint ≠ 0 ∧ range.containsAddr addressHint then
      if flags.Stack then .fromBeginEnd (alignDown range.beginAddress alignment) addressHint
      else .fromBeginEnd addressHint range.endAddress
    else if flags.Stack then
      range.intersection
        (.fromBeginEnd (alignDown (u64Sub range.endAddress size) alignment) range.endAddress)
    else range
  let alignedAddress :=
    AddressRange.fromBeginEnd (alignUp range.beginAddress alignment) range.endAddress
  alignedAddress.isValid && size ≤ alignedAddress.size

def isUsable (t : Allocations A) (addressHint size alignment : Nat) (flags : AllocationFlags)
    (it : Nat) : Option Bool := do
  let info ← t.get? it
  let range ← t.range? it
  return !isAllocated info && hasEnoughSpace addressHint size alignment flags range

def searchDown (t : Allocations A) (usable : Nat → Option Bool) : Nat → Nat → Option Nat
  | 0, _ => none
  | fuel + 1, it =>
    if t.begin = some it then some it
    else (usable it).bind fun found =>
      if found then some it
      else (t.iterPrev (some it)).bind fun it => searchDown t usable fuel it

def searchUp (t : Allocations A) (usable : Nat → Option Bool) : Nat → Iter → Option Iter
  | 0, _ => none
  | _ + 1, none => some none
  | fuel + 1, some it => (usable it).bind fun found =>
    if found then some (some it) else searchUp t usable fuel (t.iterNext it)

def searchFree (t : Allocations A) (addressHint size alignment : Nat) (flags : AllocationFlags)
    (it : Nat) : Option Iter := do
  let usable := isUsable t addressHint size alignment flags
  let fuel := t.mAreas.entries.length + 1
  if flags.Stack then
    let it ← searchDown t usable fuel it
    if ← usable it then return some it else return none
  else searchUp t usable fuel (some it)

def freeRange (addressHint size alignment : Nat) (flags : AllocationFlags) (range : AddressRange) : AddressRange :=
  if addressHint ≠ 0 ∧ range.containsAddr addressHint then
    if flags.Stack then .fromBeginSize (alignDown (u64Sub addressHint size) alignment) size
    else .fromBeginEnd addressHint range.endAddress
  else if flags.Stack then
    .fromBeginSize (alignDown (u64Sub range.endAddress size) alignment) size
  else .fromBeginSize (alignUp range.beginAddress alignment) size

def trimRange (size alignment : Nat) (flags : AllocationFlags) (range : AddressRange) : AddressRange :=
  if size < range.size then
    if flags.Stack then .fromBeginSize (alignDown (u64Sub range.endAddress size) alignment) size
    else .fromBeginSize range.beginAddress size
  else range

/-! ## `merge` -/

def joins (left right : A) (leftRange rightRange : AddressRange) : Bool :=
  if isAllocated left then isAllocated right && isRelated left right leftRange rightRange
  else !isAllocated right

/-- Join the areas at `left` and `right`, neighbours, if they are related. Returns the area that
holds what `it` held. -/
def joinAt (t : Allocations A) (left right it : Nat) : Option (Allocations A × Nat) := do
  let leftInfo ← t.get? left
  let rightInfo ← t.get? right
  let leftRange ← t.range? left
  let rightRange ← t.range? right
  if joins leftInfo rightInfo leftRange rightRange then
    t.map (.fromBeginEnd left rightRange.endAddress)
      (AllocationInfo.merge leftInfo rightInfo leftRange rightRange) true false
  else return (t, it)

/-- The first half of `merge(it)`: with the area before. -/
def joinPrev (t : Allocations A) (it : Nat) : Option (Allocations A × Nat) :=
  match if t.begin = some it then none else t.iterPrev (some it) with
  | none => some (t, it)
  | some prevIt => joinAt t prevIt it it

/-- The second half: with the area after. -/
def joinNext (t : Allocations A) (it : Nat) : Option (Allocations A × Nat) :=
  match t.iterNext it with
  | none => some (t, it)
  | some nextIt => joinAt t it nextIt it

def merge (t : Allocations A) (it : Nat) : Option (Allocations A × Nat) :=
  (joinPrev t it).bind fun (t, it) => joinNext t it

/-! ## `map` -/

omit [AllocationInfo A] in
def assign (t : Allocations A) (it : Nat) (fixedRange : AddressRange) (info : A) : Option (Allocations A × Nat) :=
  (t.range? it).bind fun range =>
    if range = fixedRange then (t.setAt it info).map fun t => (t, it)
    else t.map fixedRange info false false

def place (t : Allocations A) (it : Nat) (fixedRange : AddressRange) (info : A)
    (flags : AllocationFlags) : Option (Allocations A × AllocationResult) :=
  (assign t it fixedRange info).bind fun (t, it) =>
    if flags.NoMerge then some (t, ⟨some it, none, fixedRange⟩)
    else (merge t it).map fun (t, it) => (t, ⟨some it, none, fixedRange⟩)

/-- The notifications, which neither `NoOverwrite` nor `Dry` sends. -/
def notify (t : Allocations A) (it endIt : Nat) (fixedRange : AddressRange)
    (flags : AllocationFlags) : Option (Allocations A) :=
  if flags.NoOverwrite || flags.Dry then some t else notifyAll t it endIt fixedRange

/-- `map` with `Fixed`: the range is given, everything in it is replaced. -/
def mapFixed (t : Allocations A) (it : Nat) (addressHint size : Nat) (info : A)
    (flags : AllocationFlags) (alignment : Nat) : Option (Allocations A × AllocationResult) := do
  let fixedRange := AddressRange.fromBeginSize addressHint size
  match t.queryArea (u64Sub (u64 (addressHint + size)) 1) with
  | none => return (t, .failed .not_enough_memory)
  | some endIt =>
    let area ← t.get? it
    let range ← t.range? it
    if flags.NoOverwrite && (isAllocated area || !range.contains fixedRange) then
      return (t, .failed .file_exists)
    else
      let t ← notify t it endIt fixedRange flags
      let fixedRange := trimRange size alignment flags fixedRange
      if flags.Dry then return (t, ⟨none, none, fixedRange⟩)
      else place t it fixedRange info flags

/-- `map` without `Fixed`: search for a free range. -/
def mapSearch (t : Allocations A) (it : Nat) (addressHint size : Nat) (info : A)
    (flags : AllocationFlags) (alignment : Nat) : Option (Allocations A × AllocationResult) := do
  match ← searchFree t addressHint size alignment flags it with
  | none => return (t, .failed .not_enough_memory)
  | some it =>
    let range ← t.range? it
    let fixedRange := trimRange size alignment flags
      (freeRange addressHint size alignment flags range)
    if flags.Dry then return (t, ⟨none, none, fixedRange⟩)
    else place t it fixedRange info flags

def map (t : Allocations A) (addressHint size : Nat) (info : A) (flags : AllocationFlags)
    (alignment : Nat) : Option (Allocations A × AllocationResult) :=
  let addressHint :=
    if flags.Stack then alignDown addressHint alignment else alignUp addressHint alignment
  let it :=
    if flags.Fixed then t.queryArea addressHint
    else if addressHint = 0 ∧ flags.Stack then t.iterPrev none
    else t.lowerBound addressHint
  match it with
  | none => some (t, .failed .invalid_argument)
  | some it =>
    if flags.Fixed then mapFixed t it addressHint size info flags alignment
    else mapSearch t it addressHint size info flags alignment

omit [AllocationInfo A] in
def create (t : Allocations A) (range : AddressRange) : Option (Allocations A) :=
  (t.map range default true false).map Prod.fst

end AllocableResource

end Rpcsx.Kernel
