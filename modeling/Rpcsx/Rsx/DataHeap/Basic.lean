import Rpcsx.Rx.AddressRange

/-!
# The ring heap

`data_heap` of `ring_buffer_helper.h`, from which the renderer takes its buffers: blocks are taken at the
put position, up to the get position, and a block that does not fit below the end of the heap starts at
zero again. Without guard pages a heap does not grow. `usz` is a number below `2 ^ 64`; where the source
throws there is no result.
-/

namespace Rpcsx.Rsx

open Rx

/-- The alignments of `alloc<int Alignment>`: the masks of `alignUp` presume a power of two. -/
def Alignment := { a : Nat // ∃ k < 31, a = 2 ^ k }

theorem Alignment.pos (alignment : Alignment) : 0 < alignment.val := by
  obtain ⟨a, k, -, rfl⟩ := alignment
  exact Nat.two_pow_pos k

structure DataHeap where
  size : Nat
  putPos : Nat
  minGuardSize : Nat
  currentAllocatedSize : Nat
  largestAllocatedPool : Nat
  getPos : Nat
  deriving DecidableEq

namespace DataHeap

def init (heapSize : Nat) (minGuardSize : Nat) : DataHeap where
  size := heapSize
  putPos := 0
  getPos := u64Sub heapSize 1
  minGuardSize := minGuardSize
  currentAllocatedSize := 0
  largestAllocatedPool := 0

def canAlloc (heap : DataHeap) (alignment : Alignment) (size : Nat) : Bool :=
  let allocSize := alignUp size alignment.val
  let alignedPutPos := alignUp heap.putPos alignment.val
  if u64 (alignedPutPos + allocSize) < heap.size then
    if u64 (alignedPutPos + allocSize) < heap.getPos then true
    else if alignedPutPos > heap.getPos then true
    else false
  else if alignedPutPos < heap.getPos then false
  -- What does not fit below the end starts at zero.
  else if allocSize > heap.getPos then false
  else true

/-- `alloc`, and the position that it returns. -/
def alloc (heap : DataHeap) (alignment : Alignment) (size : Nat) : Option (DataHeap × Nat) :=
  let allocSize := alignUp size alignment.val
  let alignedPutPos := alignUp heap.putPos alignment.val
  if !heap.canAlloc alignment size then none
  else
    let blockLength := u64 (u64Sub alignedPutPos heap.putPos + allocSize)
    let heap := { heap with
      currentAllocatedSize := u64 (heap.currentAllocatedSize + blockLength)
      largestAllocatedPool := max heap.largestAllocatedPool blockLength }
    if u64 (alignedPutPos + allocSize) < heap.size then
      some ({ heap with putPos := u64 (alignedPutPos + allocSize) }, alignedPutPos)
    else some ({ heap with putPos := allocSize }, 0)

def getCurrentPutPosMinusOne (heap : DataHeap) : Nat :=
  if heap.putPos > 0 then heap.putPos - 1 else u64Sub heap.size 1

def resetAllocationStats (heap : DataHeap) : DataHeap :=
  { heap with
    currentAllocatedSize := 0
    largestAllocatedPool := 0
    getPos := heap.getCurrentPutPosMinusOne }

/-- `notify`, which throws if nothing is left between put and get. -/
def notify (heap : DataHeap) : Option DataHeap :=
  if heap.getPos = 0xffffffffffffffff then some { heap with currentAllocatedSize := 0 }
  else if heap.getPos < heap.putPos then
    some { heap with currentAllocatedSize := heap.putPos - heap.getPos - 1 }
  else if heap.getPos > heap.putPos then
    some { heap with currentAllocatedSize := u64 (heap.putPos + u64Sub (u64Sub heap.size heap.getPos) 1) }
  else none

end DataHeap

end Rpcsx.Rsx
