import Rpcsx.Orbis.Basic

/-!
# Flexible memory

The physical memory that backs flexible mappings is a resource of its own. Its records are a single
flag. Allocations are never merged with each other; a release is a fixed `map` of an empty record.
-/

namespace Rpcsx.Orbis

open Rx Rpcsx.Kernel

structure FlexibleMemoryAllocation where
  allocated : Bool := false
  deriving DecidableEq, Repr, Inhabited

/-- All allocations are related, and the record type does not ask to be told of truncations. -/
instance : AllocationInfo FlexibleMemoryAllocation where
  isAllocated a := a.allocated
  isRelated _ _ _ _ := true
  merge _ other _ _ := other
  truncate := none

abbrev FlexibleMemoryResource := AllocableResource.Allocations FlexibleMemoryAllocation

namespace fmem

def allocate (t : FlexibleMemoryResource) (size : Nat) :
    Option (FlexibleMemoryResource × Except ErrorCode AddressRange) :=
  (AllocableResource.map t 0 size ⟨true⟩ { AllocationFlags.none with NoMerge := true }
    vmem.kPageSize).map fun (t, res) =>
      match res.errc with
      | some errc => (t, .error (toErrorCode errc))
      | none => (t, .ok res.range)

def deallocate (t : FlexibleMemoryResource) (range : AddressRange) :
    Option (FlexibleMemoryResource × Option ErrorCode) :=
  (AllocableResource.map t range.beginAddress range.size ⟨false⟩
    { AllocationFlags.none with Fixed := true } 1).map fun (t, res) =>
      (t, res.errc.map toErrorCode)

end fmem

end Rpcsx.Orbis
