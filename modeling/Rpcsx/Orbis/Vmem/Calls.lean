import Rpcsx.Orbis.Vmem.Helpers

/-!
# Virtual memory: the calls

The calls that change the attributes of what is mapped: `protect`, `setName` and `setTypeAndProtect`.
-/

namespace Rpcsx.Orbis

open Rx Rpcsx.Kernel

namespace vmem

def pageRange (range : AddressRange) : AddressRange :=
  .fromBeginEnd (alignDown range.beginAddress kPageSize) (alignUp range.endAddress kPageSize)

/-- Direct memory, pooled memory and file mappings are not executable. -/
def notExecutable (a : VirtualMemoryAllocation) : Bool :=
  a.isDirect || a.isPooled || (a.isFlex && a.file.isSome)

/-- The pages behind a flexible area whose protection becomes empty, or stops being so: the new
offset. Failures are fatal. -/
def rebackFlex (host : Host) (s : FlexibleMemoryResource × List PmemCall)
    (a : VirtualMemoryAllocation) (blockProt : Protection) (range : AddressRange) :
    Option ((FlexibleMemoryResource × List PmemCall) × Nat) :=
  if !(a.isFlex && a.file.isNone) then some (s, a.deviceOffset)
  else if blockProt ≠ .none ∧ a.prot = .none then
    (fmem.allocate s.1 range.size).bind fun
      | (_, .error _) => none
      | (f, .ok pmemRange) =>
        let call : PmemCall := (range.beginAddress, pmemRange)
        match host.pmemMap call with
        | some _ => none
        | none => some ((f, call :: s.2), pmemRange.beginAddress)
  else if blockProt = .none ∧ a.prot ≠ .none then
    (fmem.deallocate s.1 (.fromBeginSize a.deviceOffset range.size)).bind fun
      | (_, some _) => none
      | (f, none) => some ((f, s.2), a.deviceOffset)
  else some (s, a.deviceOffset)

def protectArea (host : Host) (sdkVersion : Nat) (prot : Protection)
    (s : FlexibleMemoryResource × List PmemCall) (a : VirtualMemoryAllocation) (range : AddressRange) :
    Option ((FlexibleMemoryResource × List PmemCall) × VirtualMemoryAllocation) :=
  if !a.isAllocated || a.flagsEx.Reserved then some (s, a)
  else if a.isVoid then
    some (s, { a with
      prot := if sdkVersion ≤ 0x1500000 then prot else .none
      flags.Commited := false })
  else do
    let blockProt := if a.type = .WbGarlic then { prot with CpuWrite := false, GpuWrite := false }
      else prot
    let (s, deviceOffset) ← rebackFlex host s a blockProt range
    -- the host is told before execution is taken away for old versions
    let hostProt := if sdkVersion > 0x1500000 && notExecutable a
      then { blockProt with CpuExec := false } else blockProt
    if toCpuProtection hostProt ≠ toCpuProtection a.prot ∧ (host.protect range).isSome then none
    else
      let blockProt := if notExecutable a then { blockProt with CpuExec := false } else blockProt
      return (s, { a with
        deviceOffset := deviceOffset
        prot := blockProt
        flags.Commited := blockProt ≠ .none })

/-- The check of `protect` on one area. -/
def protectError (prot : Protection) (a : VirtualMemoryAllocation) : Option ErrorCode :=
  if a.isPoolReserved then some .ACCES
  else if !validateMemoryType a.type prot then some .ACCES
  else none

def togglesFlex (prot : Protection) (a : VirtualMemoryAllocation) : Bool :=
  a.isFlex && decide ((prot = .none) ≠ (a.prot = .none))

def toggledSize (t : VirtualMemoryResource) (range : AddressRange) (prot : Protection) : Nat :=
  (((t.areasIn range).filter fun x => togglesFlex prot x.2).map fun x =>
    (x.1.intersection range).size).sum

def protect (host : Host) (k : Kernel) (p : Process) (range : AddressRange) (prot : Nat) :
    Option (Kernel × Process × Option ErrorCode) :=
  let prot := (Protection.ofBits prot).withRead
  let range := pageRange range
  match p.vmem.lowerBound range.beginAddress with
  | none => some (k, p, some .INVAL)
  | some it =>
    match (p.vmem.areasIn range).findSome? fun x => protectError prot x.2 with
    | some errc => some (k, p, some errc)
    | none =>
      let fmemSize := toggledSize p.vmem range prot
      let charged := if fmemSize ≠ 0 ∧ prot ≠ .none then p.budget.acquire .Fmem fmemSize
        else some p.budget
      match charged with
      | none => some (k, p, some .INVAL)
      | some budget =>
        (modifyRange (protectArea host p.sdkVersion prot) range AllocationFlags.none
          (p.vmem.mAreas.entries.length + 1) (k.fmem, p.pmemCalls) p.vmem (some it)).map
          fun (s, t) =>
            let budget := if fmemSize ≠ 0 ∧ prot = .none then budget.release .Fmem fmemSize
              else budget
            ({ k with fmem := s.1 }, { p with vmem := t, budget := budget, pmemCalls := s.2 }, none)

def renameArea (name : String) (_ : Unit) (a : VirtualMemoryAllocation) (_ : AddressRange) :
    Option (Unit × VirtualMemoryAllocation) :=
  some ((), if a.isAllocated then { a with name := VirtualMemoryAllocation.staticString name } else a)

def setName (p : Process) (range : AddressRange) (name : String) : Option (Process × Option ErrorCode) :=
  match p.vmem.queryArea range.beginAddress with
  | none => some (p, some .INVAL)
  | some it =>
    let modifyFlags := { AllocationFlags.none with NoMerge := p.sdkVersion ≤ 0x1500000 }
    (modifyRange (renameArea name) range modifyFlags (p.vmem.mAreas.entries.length + 1) () p.vmem
      (some it)).map fun x => ({ p with vmem := x.2 }, none)

/-- The callback of `setTypeAndProtect`. Whether the direct memory behind an area takes the type is
ignored. -/
def retypeArea (type : MemoryType) (prot : Protection) (d : DirectMemoryResource)
    (a : VirtualMemoryAllocation) (range : AddressRange) : Option (DirectMemoryResource × VirtualMemoryAllocation) :=
  if !a.isAllocated then some (d, a)
  else
    let a : VirtualMemoryAllocation :=
      { a with type := type, prot := prot, flags.Commited := prot ≠ .none }
    if a.isDirect then
      (dmem.setType d (.fromBeginSize a.deviceOffset range.size) type).map fun x => (x.1, a)
    else some (d, a)

/-- The check of `setTypeAndProtect` on one area. -/
def retypeError (a : VirtualMemoryAllocation) : Option ErrorCode :=
  if a.isPoolReserved then some .ACCES
  else if a.flagsEx.Reserved then some .ACCES
  else if !(a.isPooled || a.isDirect) then some .OPNOTSUPP
  else none

def setTypeAndProtect (host : Host) (k : Kernel) (p : Process) (range : AddressRange)
    (type : MemoryType) (prot : Nat) : Option (Kernel × Process × Option ErrorCode) :=
  match validateProtection prot with
  | none => some (k, p, some .INVAL)
  | some prot =>
    if !validateMemoryType type prot then some (k, p, some .ACCES)
    else
      let prot := { prot with CpuExec := false }
      match p.vmem.queryArea range.beginAddress with
      | none => some (k, p, some .INVAL)
      | some it =>
        match (p.vmem.areasIn range).findSome? fun x => retypeError x.2 with
        | some errc => some (k, p, some errc)
        | none =>
          match host.protect range with
          | some errc => some (k, p, some errc)
          | none =>
            let modifyFlags := { AllocationFlags.none with NoMerge := p.sdkVersion < 0x1700000 }
            (modifyRange (retypeArea type prot) range modifyFlags (p.vmem.mAreas.entries.length + 1)
              k.dmem p.vmem (some it)).map fun x => ({ k with dmem := x.1 }, { p with vmem := x.2 }, none)

end vmem

end Rpcsx.Orbis
