import Rpcsx.Orbis.Blockpool.Basic
import Rpcsx.Orbis.Vmem.Basic
import Rpcsx.Rx.MemoryTable.Overlap

/-!
# Direct memory

Direct memory is handed out from pools; the functions here work on pool 0, the one that `vmem`
uses. Each area of the pool keeps the list of its mappings, so that releasing memory can find the
processes that have it mapped.
-/

namespace Rpcsx.Orbis

open Rx Rpcsx.Kernel

/-- `DirectMemoryAllocation::Mapping`; the process is its id, `none` for a null pointer. -/
structure Mapping where
  process : Option Nat
  vmRange : AddressRange
  dmemOffset : Nat
  deriving DecidableEq, Repr

/-- `DirectMemoryAllocation`, with the two bits of `type` as fields. -/
structure DirectMemoryAllocation where
  allocated : Bool := false
  pooled : Bool := false
  memoryType : MemoryType := .WbOnion
  mappings : List Mapping := []
  deriving DecidableEq, Repr

instance : Inhabited DirectMemoryAllocation := ⟨{}⟩

namespace DirectMemoryAllocation

/-- Areas that are allocated are never related. -/
def isRelated (_ _ : DirectMemoryAllocation) (_ _ : AddressRange) : Bool := false

def merge (a other : DirectMemoryAllocation) (_ _ : AddressRange) : DirectMemoryAllocation :=
  { a with mappings := a.mappings ++ other.mappings }

def swapPop (mappings : List Mapping) (i : Nat) : List Mapping :=
  match mappings.getLast? with
  | some last => (mappings.set i last).dropLast
  | none => mappings

/-- The loop of `unmap`; a mapping that is cut in the middle leaves two, the right one at the end of
the list with the process that was passed in. -/
def unmapLoop (process : Option Nat) (range : AddressRange) : Nat → Nat → List Mapping → Option (List Mapping)
  | 0, _, _ => none
  | fuel + 1, i, mappings =>
    match mappings[i]? with
    | none => some mappings
    | some map =>
      let blockRange := range.intersection map.vmRange
      if (process.isSome && map.process ≠ process) || !blockRange.isValid then
        unmapLoop process range fuel (i + 1) mappings
      else if map.vmRange = blockRange then
        unmapLoop process range fuel i (swapPop mappings i)
      else if map.vmRange.beginAddress = blockRange.beginAddress then
        unmapLoop process range fuel (i + 1) (mappings.set i
          { map with
            vmRange := .fromBeginEnd blockRange.endAddress map.vmRange.endAddress
            dmemOffset := u64 (map.dmemOffset + blockRange.size) })
      else if map.vmRange.endAddress = blockRange.endAddress then
        unmapLoop process range fuel (i + 1) (mappings.set i
          { map with vmRange := .fromBeginEnd map.vmRange.beginAddress blockRange.beginAddress })
      else
        let leftAllocation :=
          AddressRange.fromBeginEnd map.vmRange.beginAddress blockRange.beginAddress
        let rightAllocation :=
          AddressRange.fromBeginEnd blockRange.endAddress map.vmRange.endAddress
        unmapLoop process range fuel (i + 1) (mappings.set i { map with vmRange := leftAllocation } ++
          [⟨process, rightAllocation,
            u64 (map.dmemOffset +
              (rightAllocation.beginAddress - leftAllocation.beginAddress))⟩])

/-- `unmap(process, range)`. Every mapping is looked at once, and leaves at most one more. -/
def unmap (a : DirectMemoryAllocation) (process : Option Nat) (range : AddressRange) :
    Option DirectMemoryAllocation :=
  (unmapLoop process range (2 * a.mappings.length + 1) 0 a.mappings).map fun mappings =>
    { a with mappings }

end DirectMemoryAllocation

instance : AllocationInfo DirectMemoryAllocation where
  isAllocated a := a.allocated
  isRelated := DirectMemoryAllocation.isRelated
  merge := DirectMemoryAllocation.merge
  truncate := none

structure DirectMemoryResource where
  allocations : AllocableResource.Allocations DirectMemoryAllocation
  pmemOffset : Nat
  dmemTotalSize : Nat
  dmemReservedSize : Nat

namespace dmem

/-- `dmem::setType(0, range, type)`, with the error code. A range that does not have the type already
gets a new record, without mappings. -/
def setType (d : DirectMemoryResource) (range : AddressRange) (type : MemoryType) :
    Option (DirectMemoryResource × Option ErrorCode) :=
  match d.allocations.queryArea range.beginAddress with
  | none => some (d, some .ACCES)
  | some it => do
    let a ← d.allocations.get? it
    let itRange ← d.allocations.range? it
    if !a.allocated || a.pooled then return (d, some .ACCES)
    else if a.memoryType = type && itRange.contains range then return (d, none)
    else
      let (t, res) ← AllocableResource.map d.allocations range.beginAddress range.size
        { allocated := true, memoryType := type } { AllocationFlags.none with Fixed := true }
        vmem.kPageSize
      return ({ d with allocations := t }, res.errc.map toErrorCode)

end dmem

end Rpcsx.Orbis
