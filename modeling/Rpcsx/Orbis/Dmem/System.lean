import Rpcsx.Orbis.Dmem.Basic

/-!
# Allocating direct memory

The functions of `dmem.cpp` that hand memory out and take it back, on one of the pools. Memory that is
reserved for the system leaves the main table and goes to a table of its own; `allocate_system` searches
there and commits to the main table. The result is `none` where the process dies or an assertion fails.
-/

namespace Rpcsx.Orbis

open Rx Rpcsx.Kernel

/-- `AGAIN` and `WOULDBLOCK` are the same number. -/
abbrev ErrorCode.AGAIN : ErrorCode := .WOULDBLOCK

abbrev ErrorCode.NOENT : ErrorCode := .other 2

/-- `DirectMemoryResource` with its `systemResource`. -/
structure DirectMemoryPool extends DirectMemoryResource where
  systemAllocations : AllocableResource.Allocations DirectMemoryAllocation

namespace dmem

def allocationOf (memoryType : MemoryType) (pooled : Bool) : DirectMemoryAllocation :=
  { allocated := true, pooled, memoryType }

def create (pmemRange : AddressRange) : Option DirectMemoryPool :=
  (AllocableResource.create .empty (.fromBeginSize 0 pmemRange.size)).map fun t =>
    { allocations := t
      pmemOffset := pmemRange.beginAddress
      dmemTotalSize := pmemRange.size
      dmemReservedSize := 0
      systemAllocations := .empty }

def reserveSystemIn (d : DirectMemoryPool) (size : Nat) : Option (DirectMemoryPool × Except ErrorCode Nat) := do
  let (t, result) ← AllocableResource.map d.allocations 0 size (allocationOf .WbOnion false)
    { AllocationFlags.none with Stack := true } kPageSize
  match result.errc with
  | some errc => return ({ d with allocations := t }, .error (toErrorCode errc))
  | none =>
    let (t, _) ← t.unmap result.range
    let (system, _) ← d.systemAllocations.map result.range default true false
    return ({ d with
      allocations := t
      dmemReservedSize := u64 (d.dmemReservedSize + size)
      systemAllocations := system }, .ok result.range.beginAddress)

def reserveSystem (d : DirectMemoryPool) (size : Nat) : Option (DirectMemoryPool × Except ErrorCode Nat) :=
  if size = 0 ∨ size % vmem.kPageSize ≠ 0 then some (d, .error .INVAL)
  else if d.dmemTotalSize < u64 (d.dmemReservedSize + size) then some (d, .error .NOMEM)
  else reserveSystemIn d size

def allocateIn (d : DirectMemoryPool) (begin len : Nat) (allocation : DirectMemoryAllocation)
    (alignment : Nat) : Option (DirectMemoryPool × Except ErrorCode Nat) := do
  let (_, allocResult) ← AllocableResource.map d.allocations begin len allocation
    { AllocationFlags.none with Dry := true } alignment
  if allocResult.errc.isSome then return (d, .error .AGAIN)
  else
    let result := allocResult.range.beginAddress
    let (t, commitResult) ← AllocableResource.map d.allocations result len allocation
      { AllocationFlags.none with Fixed := true } alignment
    -- `dieIf`
    if commitResult.errc.isSome then none else return ({ d with allocations := t }, .ok result)

def allocate (d : DirectMemoryPool) (searchRange : AddressRange) (len : Nat) (memoryType : MemoryType)
    (alignment : Nat) (pooled : Bool) : Option (DirectMemoryPool × Except ErrorCode Nat) :=
  let dmemSize := u64Sub d.dmemTotalSize d.dmemReservedSize
  if searchRange.endAddress ≠ 0 ∧ (!searchRange.isValid ∨ searchRange.size < len) then
    some (d, .error .INVAL)
  else
    let alignment := if alignment = 0 then kPageSize else alignment
    let len := alignUp len kPageSize
    let searchRange :=
      if searchRange.endAddress = 0 ∨ searchRange.endAddress > dmemSize then
        .fromBeginEnd searchRange.beginAddress dmemSize
      else searchRange
    if !searchRange.isValid ∨ searchRange.size < len then some (d, .error .INVAL)
    else if len = 0 then some (d, .error .INVAL)
    else if searchRange.endAddress > dmemSize then some (d, .error .INVAL)
    else allocateIn d searchRange.beginAddress len (allocationOf memoryType pooled) alignment

def systemTag : Nat := 0x4000000000

def allocateSystem (d : DirectMemoryPool) (len : Nat) (memoryType : MemoryType) (alignment : Nat) :
    Option (DirectMemoryPool × Except ErrorCode Nat) := do
  let alignment := if alignment = 0 then kPageSize else alignment
  let len := alignUp len kPageSize
  let allocation := allocationOf memoryType false
  let (_, allocResult) ← AllocableResource.map d.systemAllocations 0 len allocation
    { AllocationFlags.none with Dry := true } alignment
  if allocResult.errc.isSome then return (d, .error .AGAIN)
  else
    let result := allocResult.range.beginAddress
    let (t, commitResult) ← AllocableResource.map d.allocations result len allocation
      { AllocationFlags.none with Fixed := true } alignment
    -- `dieIf`
    if commitResult.errc.isSome then none
    else return ({ d with allocations := t }, .ok (result ||| systemTag))

/-- The part of a mapping that is released, as `release` looks it up. -/
def releasedMapping (range : AddressRange) (mapping : Mapping) : Option Mapping :=
  let mapRange := AddressRange.fromBeginSize mapping.dmemOffset mapping.vmRange.size
  let releaseRange := mapRange.intersection range
  if !releaseRange.isValid then none
  else some
    { process := mapping.process
      vmRange := .fromBeginSize
        (u64 (mapping.vmRange.beginAddress + (releaseRange.beginAddress - mapRange.beginAddress)))
        releaseRange.size
      dmemOffset := 0 }

/-- `release` on pool `dmemIndex`, with the mappings that `vmem` is then told to unmap. The check that
the memory is allocated looks at the first area again and again. -/
def release (dmemIndex : Nat) (d : DirectMemoryPool) (range : AddressRange) (pooled : Bool) :
    Option (DirectMemoryPool × Except ErrorCode (List Mapping)) :=
  if range.beginAddress % kPageSize ≠ 0 ∨ range.size % vmem.kPageSize ≠ 0 ∨ !range.isValid then
    some (d, .error .INVAL)
  else if dmemIndex = 0 ∧
      (AddressRange.fromBeginSize 0x3000000000 0x20000000).containsAddr range.beginAddress then
    some (d, .error .OPNOTSUPP)
  else
    match d.allocations.queryArea range.beginAddress with
    | none => some (d, .error .NOENT)
    | some beginIt => do
      let first ← d.allocations.get? beginIt
      let areas := d.allocations.areasIn range
      if areas.any fun x => !first.allocated || (x.2.pooled && !pooled) then return (d, .error .NOENT)
      else
        let clearMappings := areas.flatMap fun x => x.2.mappings.filterMap (releasedMapping range)
        let t ← d.allocations.updateIn range fun _ a => a.unmap none range
        let (t, result) ← AllocableResource.map t range.beginAddress range.size default
          { AllocationFlags.none with Fixed := true } vmem.kPageSize
        match result.errc with
        | some errc => return ({ d with allocations := t }, .error (toErrorCode errc))
        | none => return ({ d with allocations := t }, .ok clearMappings)

end dmem

end Rpcsx.Orbis
