import Rpcsx.Kernel.MemoryResource.Basic

/-!
# Common types of the kernel

Error codes, and the scatter lists through which system calls move bytes. The memory of a guest
process is outside the kernel: reading it is an oracle with the one documented property that a
successful read yields the requested number of bytes.
-/

namespace Rpcsx.Orbis

/-- `orbis::ErrorCode`, the members the modelled code returns or passes on. -/
inductive ErrorCode where
  | PERM
  | SRCH
  | INTR
  | BADF
  | DEADLK
  | NOMEM
  | ACCES
  | FAULT
  | BUSY
  | EXIST
  | INVAL
  | WOULDBLOCK
  | TIMEDOUT
  | CANCELED
  | other (code : Nat)
  deriving DecidableEq, Repr

abbrev ErrorCode.OPNOTSUPP : ErrorCode := .other 45

def toErrorCode : Kernel.Errc → ErrorCode
  | .invalid_argument => .INVAL
  | .not_enough_memory => .NOMEM
  | .file_exists => .EXIST

def vmem.kPageSize : Nat := 0x4000

def dmem.kPageSize : Nat := 0x10000

inductive MemoryType where
  | Invalid
  | WbOnion
  | WcGarlic
  | WbGarlic
  deriving DecidableEq, Repr, Inhabited

structure IoVec where
  base : Nat
  len : Nat
  deriving DecidableEq, Repr

/-- `orbis::Uio`, the fields file operations read and update. -/
structure Uio where
  offset : Nat
  iov : List IoVec
  resid : Int
  deriving DecidableEq, Repr

/-- The memory a call reads from: `ureadRaw(dst, base, len)`. -/
structure UserMemory where
  ureadRaw : Nat → Nat → Except ErrorCode (List UInt8)
  length_eq : ∀ base len bytes, ureadRaw base len = .ok bytes → bytes.length = len

end Rpcsx.Orbis
