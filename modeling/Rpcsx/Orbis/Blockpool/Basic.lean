import Rpcsx.Orbis.Basic

/-!
# The block pool

Pooled memory is physical memory handed to the kernel by `expand`. It is kept in two pools, one for
cached (`WbOnion`) and one for the other memory types. A pool has free blocks, pages reserved for
control blocks, and a table from committed virtual ranges to the physical address behind them.

The result is `none` where the source would fail an assertion or read past a container. The byte
counters are 64-bit words and wrap.
-/

namespace Rpcsx.Orbis

open Rx AddressRange

structure CommitedBlock where
  pmemAddress : Nat
  type : MemoryType
  deriving DecidableEq, Repr, Inhabited

structure PooledMemoryResource where
  total : Nat
  used : Nat
  freeBlocks : List AddressRange
  usedBlocks : MemoryTableWithPayload CommitedBlock
  reservedPages : List Nat
  deriving DecidableEq

/-- A call of `pmem::map`: the virtual address, and the physical range mapped there. -/
abbrev PmemCall := Nat × AddressRange

namespace PooledMemoryResource

def empty : PooledMemoryResource := ⟨0, 0, [], .empty, []⟩

def calcUsed (p : PooledMemoryResource) : Nat :=
  u64 ((p.usedBlocks.areas.map fun x => x.1.size).sum + p.reservedPages.length * dmem.kPageSize)

def calcFree (p : PooledMemoryResource) : Nat := u64 (p.freeBlocks.map size).sum

def checked (p : PooledMemoryResource) : Option PooledMemoryResource :=
  if p.calcUsed = p.used ∧ u64 (p.calcFree + p.used) = p.total then some p else none

/-! ## Free blocks -/

/-- Insert a block at position `it`, which splits the list into `before` and `after`, unless the block
before it can be extended. -/
def joinPrev (before : List AddressRange) (range : AddressRange) (after : List AddressRange) : List AddressRange :=
  match before.getLast? with
  | some prev =>
    if prev.endAddress = range.beginAddress then
      before.dropLast ++ .fromBeginEnd prev.beginAddress range.endAddress :: after
    else before ++ range :: after
  | none => range :: after

/-- `addFreeBlock(dmemRange)` on the list of free blocks, which is sorted. At most one of the two
neighbours is extended. -/
def insertBlock (blocks : List AddressRange) (range : AddressRange) : List AddressRange :=
  -- `std::upper_bound` by begin address
  let before := blocks.takeWhile fun b => b.beginAddress ≤ range.beginAddress
  match blocks.dropWhile fun b => b.beginAddress ≤ range.beginAddress with
  | it :: rest =>
    if range.endAddress = it.beginAddress then
      before ++ .fromBeginEnd range.beginAddress it.endAddress :: rest
    else joinPrev before range (it :: rest)
  | [] => joinPrev before range []

def addFreeBlock (p : PooledMemoryResource) (range : AddressRange) : PooledMemoryResource :=
  { p with freeBlocks := insertBlock p.freeBlocks range }

def expand (p : PooledMemoryResource) (range : AddressRange) : Option PooledMemoryResource :=
  checked { p.addFreeBlock range with total := u64 (p.total + range.size) }

/-! ## Control pages -/

def reservePage (p : PooledMemoryResource) : Option (PooledMemoryResource × Except ErrorCode Nat) :=
  if u64Sub p.total p.used < dmem.kPageSize then some (p, .error .INVAL)
  else
    p.freeBlocks.getLast?.bind fun block =>
      let allocatedPage := block.beginAddress
      let pageEnd := u64 (allocatedPage + dmem.kPageSize)
      let freeBlocks :=
        if block.endAddress = pageEnd then p.freeBlocks.dropLast
        else p.freeBlocks.dropLast ++ [.fromBeginEnd pageEnd block.endAddress]
      (checked { p with
        used := u64 (p.used + dmem.kPageSize)
        freeBlocks
        reservedPages := p.reservedPages ++ [allocatedPage] }).map fun p => (p, .ok allocatedPage)

def releasePage (p : PooledMemoryResource) : Option (PooledMemoryResource × Except ErrorCode Nat) :=
  match p.reservedPages.getLast? with
  | none => some (p, .error .INVAL)
  | some address =>
    (checked { p with
      used := u64Sub p.used dmem.kPageSize
      total := u64Sub p.total dmem.kPageSize
      reservedPages := p.reservedPages.dropLast }).map fun p => (p, .ok address)

/-! ## Moving free memory to the other pool -/

def moveLoop : Nat → PooledMemoryResource → PooledMemoryResource → Nat →
    Option (PooledMemoryResource × PooledMemoryResource)
  | 0, _, _, _ => none
  | fuel + 1, p, other, size =>
    if size = 0 ∨ p.total = 0 then some (p, other)
    else
      p.freeBlocks.getLast?.bind fun block =>
        if size < block.size then
          let moveRange := fromBeginSize block.beginAddress size
          (other.expand moveRange).map fun other =>
            ({ p with
              total := u64Sub p.total size
              freeBlocks := p.freeBlocks.dropLast ++
                [.fromBeginEnd moveRange.endAddress block.endAddress] }, other)
        else
          (other.expand block).bind fun other =>
            moveLoop fuel
              { p with
                total := u64Sub p.total block.size
                freeBlocks := p.freeBlocks.dropLast }
              other (u64Sub size block.size)

def moveTo (p other : PooledMemoryResource) (size : Nat) : Option (PooledMemoryResource × PooledMemoryResource) :=
  (moveLoop (p.freeBlocks.length + 1) p other size).bind fun (p, other) =>
    p.checked.map fun p => (p, other)

/-! ## `commit` -/

/-- The last block of the list after `size` bytes were taken from its begin, and the value that the
reference `block` then has. A popped block is gone from the list, but nothing has overwritten it. -/
def takeFront (freeBlocks : List AddressRange) (block mapPhysicalRange : AddressRange) :
    List AddressRange × AddressRange :=
  if mapPhysicalRange.endAddress = block.endAddress then (freeBlocks.dropLast, block)
  else
    let block := fromBeginEnd mapPhysicalRange.endAddress block.endAddress
    (freeBlocks.dropLast ++ [block], block)

/-- The loop of `commit`, with the calls of `pmem::map` it makes (which do not return on failure).
The address that the last turn records is the begin of the block *after* the range was taken from
it. -/
def commitLoop (type : MemoryType) : Nat → PooledMemoryResource → AddressRange →
    Option (PooledMemoryResource × List PmemCall)
  | 0, _, _ => none
  | fuel + 1, p, virtualRange =>
    if !virtualRange.isValid then some (p, [])
    else
      p.freeBlocks.getLast?.bind fun block =>
        if virtualRange.size ≤ block.size then
          let mapPhysicalRange := fromBeginSize block.beginAddress virtualRange.size
          let taken := takeFront p.freeBlocks block mapPhysicalRange
          (p.usedBlocks.map virtualRange ⟨taken.2.beginAddress, type⟩ false false).map fun m =>
            ({ p with
              freeBlocks := taken.1
              usedBlocks := m.1
              used := u64 (p.used + virtualRange.size) },
              [(virtualRange.beginAddress, mapPhysicalRange)])
        else
          let mapVirtualRange := fromBeginSize virtualRange.beginAddress block.size
          (p.usedBlocks.map mapVirtualRange ⟨block.beginAddress, type⟩ false false).bind fun m =>
            (commitLoop type fuel
              { p with
                freeBlocks := p.freeBlocks.dropLast
                usedBlocks := m.1
                used := u64 (p.used + mapVirtualRange.size) }
              (.fromBeginEnd mapVirtualRange.endAddress virtualRange.endAddress)).map
                fun (p, calls) => (p, (mapVirtualRange.beginAddress, block) :: calls)

def commit (p : PooledMemoryResource) (virtualRange : AddressRange) (type : MemoryType) :
    Option (PooledMemoryResource × List PmemCall) :=
  (commitLoop type (p.freeBlocks.length + 1) p virtualRange).bind fun (p, calls) =>
    p.checked.map fun p => (p, calls)

/-! ## `decommit` -/

/-- The first part of `decommit`: an area that begins before the range. -/
def decommitHead (p : PooledMemoryResource) (virtualRange : AddressRange) (it : Iter) :
    Option (PooledMemoryResource × Iter) :=
  match it with
  | none => some (p, none)
  | some k =>
    if k < virtualRange.beginAddress then
      (p.usedBlocks.range? k).bind fun itRange =>
      (p.usedBlocks.get? k).bind fun block =>
        let decommitRange := itRange.intersection virtualRange
        let decommitPmemRange := fromBeginSize
          (u64 (block.pmemAddress + u64Sub virtualRange.beginAddress itRange.beginAddress))
          decommitRange.size
        (p.usedBlocks.unmap decommitRange).map fun m =>
          ({ p.addFreeBlock decommitPmemRange with
            used := u64Sub p.used decommitRange.size
            usedBlocks := m.1 }, m.1.iterNext k)
    else some (p, some k)

/-- The loop of `decommit`. The tail of an area that reaches past the range keeps its record. -/
def decommitLoop (virtualRange : AddressRange) : Nat → PooledMemoryResource → Iter → Option PooledMemoryResource
  | 0, _, _ => none
  | _ + 1, p, none => some p
  | fuel + 1, p, some k =>
    if k < virtualRange.endAddress then
      (p.usedBlocks.range? k).bind fun itRange =>
      (p.usedBlocks.get? k).bind fun block =>
        let decommitRange := itRange.intersection virtualRange
        let p' : PooledMemoryResource :=
          { p.addFreeBlock (.fromBeginSize block.pmemAddress decommitRange.size) with
            used := u64Sub p.used decommitRange.size }
        if itRange = decommitRange then
          (p.usedBlocks.unmapAt k).bind fun m =>
            decommitLoop virtualRange fuel { p' with usedBlocks := m.1 } m.2
        else (p.usedBlocks.unmap decommitRange).map fun m => { p' with usedBlocks := m.1 }
    else some p

def decommit (p : PooledMemoryResource) (virtualRange : AddressRange) : Option PooledMemoryResource :=
  (decommitHead p virtualRange (p.usedBlocks.lowerBound virtualRange.beginAddress)).bind
    fun (p, it) =>
      (decommitLoop virtualRange (p.usedBlocks.areas.length + 1) p it).bind checked

end PooledMemoryResource

/-! ## The two pools -/

/-- `g_blockpool` and `g_cachedBlockpool`. -/
structure Blockpools where
  blockpool : PooledMemoryResource
  cachedBlockpool : PooledMemoryResource
  deriving DecidableEq

namespace blockpool

/-- Each function returns the new pools and its error code, `none` for success. -/
def expand (s : Blockpools) (dmemRange : AddressRange) : Option (Blockpools × Option ErrorCode) :=
  if !dmemRange.isValid then some (s, some .INVAL)
  else (s.blockpool.expand dmemRange).map fun p => ({ s with blockpool := p }, none)

def errorOf {α : Type} : Except ErrorCode α → Option ErrorCode
  | .error e => some e
  | .ok _ => none

def reserveCached (s : Blockpools) : Option (Blockpools × Option ErrorCode) :=
  s.cachedBlockpool.reservePage.map fun (p, r) => ({ s with cachedBlockpool := p }, errorOf r)

def allocateControlBlock (s : Blockpools) : Option (Blockpools × Option ErrorCode) :=
  if s.cachedBlockpool.used < s.cachedBlockpool.total then reserveCached s
  else if u64Sub s.blockpool.total s.blockpool.used < dmem.kPageSize then some (s, some .INVAL)
  else
    (s.blockpool.moveTo s.cachedBlockpool dmem.kPageSize).bind fun (p, cached) =>
      reserveCached ⟨p, cached⟩

def releaseControlBlock (s : Blockpools) : Option (Blockpools × Option ErrorCode) :=
  if s.cachedBlockpool.reservedPages.isEmpty then some (s, some .INVAL)
  else
    s.cachedBlockpool.releasePage.bind fun (p, r) =>
      match r with
      | .error e => some ({ s with cachedBlockpool := p }, some e)
      | .ok page =>
        (p.expand (.fromBeginSize page dmem.kPageSize)).map fun p =>
          ({ s with cachedBlockpool := p }, none)

/-- Take what is missing from the other pool. The result is `none` for `NOMEM`. -/
def pull (pool otherPool : PooledMemoryResource) (size : Nat) :
    Option (Option (PooledMemoryResource × PooledMemoryResource)) :=
  let avail := u64Sub pool.total pool.used
  if avail < size then
    let pullSize := u64Sub size avail
    if u64Sub otherPool.total otherPool.used < pullSize then some none
    else (otherPool.moveTo pool pullSize).map fun (other, pool) => some (pool, other)
  else some (some (pool, otherPool))

def commitIn (pool otherPool : PooledMemoryResource) (vmemRange : AddressRange) (type : MemoryType) :
    Option (PooledMemoryResource × PooledMemoryResource × Option ErrorCode × List PmemCall) :=
  (pull pool otherPool vmemRange.size).bind fun
    | none => some (pool, otherPool, some .NOMEM, [])
    | some (pool, otherPool) =>
      (pool.commit vmemRange type).map fun (pool, calls) => (pool, otherPool, none, calls)

def commit (s : Blockpools) (vmemRange : AddressRange) (type : MemoryType) :
    Option (Blockpools × Option ErrorCode × List PmemCall) :=
  if type = .WbOnion then
    (commitIn s.cachedBlockpool s.blockpool vmemRange type).map fun (pool, other, r) =>
      (⟨other, pool⟩, r)
  else
    (commitIn s.blockpool s.cachedBlockpool vmemRange type).map fun (pool, other, r) =>
      (⟨pool, other⟩, r)

def decommit (s : Blockpools) (vmemRange : AddressRange) : Option Blockpools :=
  (s.cachedBlockpool.decommit vmemRange).bind fun cached =>
    (s.blockpool.decommit vmemRange).map fun p => ⟨p, cached⟩

end blockpool

end Rpcsx.Orbis
