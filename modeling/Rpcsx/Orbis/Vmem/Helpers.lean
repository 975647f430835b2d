import Rpcsx.Orbis.Dmem.Basic
import Rpcsx.Orbis.Fmem

/-!
# Virtual memory: state and helpers

The state that the calls of a process work on, and the loop they share: the change of records in a
range.
Functions take the kernel and the process and return both with their result; `none` is a place
where the source calls `rx::die`, fails an assertion or follows an invalid iterator. What the host
does for the kernel is an oracle: `Host` says which of its calls fail. Calls of the GPU driver have
no effect on this state.
-/

namespace Rpcsx.Orbis

open Rx Rpcsx.Kernel

/-! ## Budgets -/

structure BudgetItem where
  total : Nat
  used : Nat
  deriving DecidableEq, Repr

inductive BudgetResource where
  | Dmem
  | Fmem
  deriving DecidableEq, Repr

structure Budget where
  Dmem : BudgetItem
  Fmem : BudgetItem
  deriving DecidableEq, Repr

namespace Budget

def get (b : Budget) : BudgetResource → BudgetItem
  | .Dmem => b.Dmem
  | .Fmem => b.Fmem

def set (b : Budget) (resourceId : BudgetResource) (item : BudgetItem) : Budget :=
  match resourceId with
  | .Dmem => { b with Dmem := item }
  | .Fmem => { b with Fmem := item }

def acquire (b : Budget) (resourceId : BudgetResource) (size : Nat) : Option Budget :=
  let item := b.get resourceId
  if item.total < u64 (item.used + size) then none
  else some (b.set resourceId { item with used := u64 (item.used + size) })

/-- `release(resourceId, size)`: the counter stops at zero. -/
def release (b : Budget) (resourceId : BudgetResource) (size : Nat) : Budget :=
  let item := b.get resourceId
  b.set resourceId { item with used := if item.used ≤ size then 0 else item.used - size }

end Budget

/-! ## The state -/

/-- The resources that all processes share. -/
structure Kernel where
  fmem : FlexibleMemoryResource
  dmem : DirectMemoryResource

/-- `orbis::Process`, what the calls read and change. `pmemCalls` lists the calls of `pmem::map` made
for the process, the last one first. -/
structure Process where
  vmem : VirtualMemoryResource
  budget : Budget
  sdkVersion : Nat
  pmemCalls : List PmemCall

/-- Which calls of the host fail, and how. -/
structure Host where
  pmemMap : PmemCall → Option ErrorCode
  protect : AddressRange → Option ErrorCode

namespace vmem

/-! ## `modifyRange` -/

/-- The record that `modifyRange` hands to its callback for a part of an area. -/
def partRecord (a : VirtualMemoryAllocation) (it : Nat) (mapRange : AddressRange) : VirtualMemoryAllocation :=
  if a.file.isSome && !a.flags.PooledMemory then
    { a with deviceOffset := u64 (a.deviceOffset + u64Sub mapRange.beginAddress it) }
  else a

/-- One turn of `modifyRange` at the area `it`: the callback changes a whole area in place, and a part
of one through `map`. Returns the area to go on after. -/
def modifyArea {σ : Type} (cb : σ → VirtualMemoryAllocation → AddressRange → Option (σ × VirtualMemoryAllocation))
    (range : AddressRange) (allocFlags : AllocationFlags) (s : σ) (t : VirtualMemoryResource)
    (it : Nat) : Option (σ × VirtualMemoryResource × Nat) := do
  let itRange ← t.range? it
  let a ← t.get? it
  let mapRange := range.intersection itRange
  if mapRange = itRange then
    let (s, a) ← cb s a mapRange
    let t ← t.setAt it a
    if allocFlags.NoMerge then return (s, t, it)
    else
      let (t, it) ← AllocableResource.merge t it
      return (s, t, it)
  else
    let (s, a) ← cb s (partRecord a it mapRange) mapRange
    let (t, result) ← AllocableResource.map t mapRange.beginAddress mapRange.size a
      { allocFlags with Fixed := true } vmem.kPageSize
    let it ← result.it
    return (s, t, it)

/-- `modifyRange(vmem, it, range, allocFlags, cb)`. -/
def modifyRange {σ : Type} (cb : σ → VirtualMemoryAllocation → AddressRange → Option (σ × VirtualMemoryAllocation))
    (range : AddressRange) (allocFlags : AllocationFlags) :
    Nat → σ → VirtualMemoryResource → Iter → Option (σ × VirtualMemoryResource)
  | 0, _, _, _ => none
  | _ + 1, s, t, none => some (s, t)
  | fuel + 1, s, t, some it =>
    if it < range.endAddress then
      (modifyArea cb range allocFlags s t it).bind fun (s, t, it) =>
        modifyRange cb range allocFlags fuel s t (t.iterNext it)
    else some (s, t)

end vmem

end Rpcsx.Orbis
