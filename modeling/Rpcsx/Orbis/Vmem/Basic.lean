import Rpcsx.Orbis.Basic

/-!
# Virtual memory: the allocation record

The address space of a process is a resource whose records say what an area is made of: flexible,
direct or pooled memory, the device behind it and the offset there, the protection. This module has
the record with its three hooks (`isRelated`, `merge`, `truncate`), and the checks on protections.
-/

namespace Rpcsx.Orbis

open Rx Rpcsx.Kernel

structure BlockFlags where
  FlexibleMemory : Bool := false
  DirectMemory : Bool := false
  Stack : Bool := false
  PooledMemory : Bool := false
  Commited : Bool := false
  deriving DecidableEq, Repr, Inhabited

structure BlockFlagsEx where
  Allocated : Bool := false
  Private : Bool := false
  Shared : Bool := false
  PoolControl : Bool := false
  Void : Bool := false
  Reserved : Bool := false
  deriving DecidableEq, Repr, Inhabited

/-! ## Protections -/

/-- `EnumBitSet<vmem::Protection>` once `validateProtection` has accepted it. -/
structure Protection where
  CpuRead : Bool := false
  CpuWrite : Bool := false
  CpuExec : Bool := false
  GpuRead : Bool := false
  GpuWrite : Bool := false
  deriving DecidableEq, Repr, Inhabited

def Protection.none : Protection := {}

/-- The bits of an argument: `CpuRead`, `CpuWrite`, `CpuExec` are bits 0 to 2, `GpuRead` and
`GpuWrite` bits 4 and 5. -/
def Protection.ofBits (bits : Nat) : Protection where
  CpuRead := bits.testBit 0
  CpuWrite := bits.testBit 1
  CpuExec := bits.testBit 2
  GpuRead := bits.testBit 4
  GpuWrite := bits.testBit 5

/-- `CpuWrite` comes with `CpuRead`. -/
def Protection.withRead (prot : Protection) : Protection :=
  { prot with CpuRead := prot.CpuRead || prot.CpuWrite }

/-- `validateProtection(prot)`, `none` where it returns false. Only the low eight bits are looked at,
and of those bits 3, 6 and 7 mean nothing. -/
def validateProtection (prot : Nat) : Option Protection :=
  if prot.testBit 3 || prot.testBit 6 || prot.testBit 7 then Option.none
  else some (Protection.ofBits prot).withRead

def toCpuProtection (prot : Protection) : Bool × Bool × Bool :=
  (prot.CpuRead, prot.CpuWrite, prot.CpuExec)

def validateMemoryType (type : MemoryType) (prot : Protection) : Bool :=
  !(type = .WbGarlic && prot.CpuWrite && prot.GpuWrite)

/-! ## The record -/

/-- `orbis::File`: its identity, the block flags of its device, and whether that is the device of
direct memory. -/
structure File where
  id : Nat
  blockFlags : BlockFlags := {}
  isDmem : Bool := false
  deriving DecidableEq, Repr

structure VirtualMemoryAllocation where
  flags : BlockFlags := {}
  flagsEx : BlockFlagsEx := {}
  prot : Protection := {}
  type : MemoryType := .Invalid
  file : Option File := none
  deviceOffset : Nat := 0
  callerAddress : Nat := 0
  name : String := ""
  deriving DecidableEq, Repr, Inhabited

namespace VirtualMemoryAllocation

def isAllocated (a : VirtualMemoryAllocation) : Bool := a.flagsEx.Allocated

def isFlex (a : VirtualMemoryAllocation) : Bool := a.flags.FlexibleMemory

def isDirect (a : VirtualMemoryAllocation) : Bool := a.flags.DirectMemory

def isPooled (a : VirtualMemoryAllocation) : Bool := a.flags.PooledMemory

def isPoolReserved (a : VirtualMemoryAllocation) : Bool :=
  a.flags = { PooledMemory := true : BlockFlags }

def isVoid (a : VirtualMemoryAllocation) : Bool := a.flagsEx.Void

def isRelated (a other : VirtualMemoryAllocation) (selfRange _rightRange : AddressRange) : Bool :=
  if a.flags ≠ other.flags ∨ a.flagsEx ≠ other.flagsEx ∨ a.prot ≠ other.prot ∨
      a.type ≠ other.type ∨ a.file ≠ other.file ∨ a.callerAddress ≠ other.callerAddress then false
  else if !a.isAllocated then true
  else if a.name ≠ other.name then false
  else if a.file = none ∨ a.flags = { PooledMemory := true : BlockFlags } then true
  else u64 (a.deviceOffset + selfRange.size) = other.deviceOffset

def merge (a _other : VirtualMemoryAllocation) (_ _ : AddressRange) : VirtualMemoryAllocation := a

/-- Only the right remainder of an area with a file gets a record of its own. -/
def truncate (a : VirtualMemoryAllocation) (selfRange _leftRange rightRange : AddressRange) :
    AddressRange × VirtualMemoryAllocation :=
  if !rightRange.isValid || a.file.isNone then (default, {})
  else
    let deviceOffset :=
      u64 (u64Sub rightRange.beginAddress selfRange.beginAddress + a.deviceOffset)
    (rightRange, { a with deviceOffset })

def staticString (s : String) : String := String.ofList (s.toList.take 31)

end VirtualMemoryAllocation

instance : AllocationInfo VirtualMemoryAllocation where
  isAllocated := VirtualMemoryAllocation.isAllocated
  isRelated := VirtualMemoryAllocation.isRelated
  merge := VirtualMemoryAllocation.merge
  truncate := some VirtualMemoryAllocation.truncate

abbrev VirtualMemoryResource := AllocableResource.Allocations VirtualMemoryAllocation

namespace VirtualMemoryAllocation

@[simp] theorem isAllocated_eq (a : VirtualMemoryAllocation) : AllocationInfo.isAllocated a = a.isAllocated := rfl

@[simp] theorem merge_eq (a other : VirtualMemoryAllocation) (self right : AddressRange) :
    AllocationInfo.merge a other self right = a := rfl

/-- What related records agree on. -/
theorem isRelated_iff {a other : VirtualMemoryAllocation} {self right : AddressRange} (ha : a.isAllocated) :
    a.isRelated other self right ↔ (a.flags = other.flags ∧ a.flagsEx = other.flagsEx ∧ a.prot = other.prot ∧
        a.type = other.type ∧ a.file = other.file ∧ a.callerAddress = other.callerAddress ∧ a.name = other.name) ∧
      (a.file = none ∨ a.flags = { PooledMemory := true : BlockFlags } ∨
        u64 (a.deviceOffset + self.size) = other.deviceOffset) := by
  unfold isRelated
  split
  · grind
  · grind

end VirtualMemoryAllocation

end Rpcsx.Orbis
