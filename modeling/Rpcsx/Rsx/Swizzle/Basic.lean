import Mathlib.Data.Nat.Bitwise

/-!
# Swizzled textures

The functions of `rsx_utils.h` that turn a linear image into a swizzled one and back. A buffer is a
function from the index of a texel; `size` is the size of a texel in bytes. A function gives no value
where the source does not: a shift by more bits than a word has, or a loop that does not end.
-/

namespace Rpcsx.Rsx

open Function

/-! ## Logarithms -/

/-- `std::countl_zero` of a 32-bit value that is not 0. -/
def countlZero (value : Nat) : Nat := 31 - value.log2

def floorLog2 (value : Nat) : Nat := if value ≤ 1 then 0 else countlZero value ^^^ 31

/-- `ceil_log2`, the floor and one more for what is not a power of two. -/
def ceilLog2 (value : Nat) : Nat :=
  floorLog2 value + if value &&& (value - 1) ≠ 0 then 1 else 0

/-! ## The closed form -/

inductive Axis where
  | x
  | y
  | z
  deriving DecidableEq

def perAxis (x y z : Nat) : Axis → Nat
  | .x => x
  | .y => y
  | .z => z

/-- The variables of the loop: what is left of the coordinates and of their bits, and the offset so far. -/
structure ZLoop where
  point : Axis → Nat
  log2 : Axis → Nat
  offset : Nat
  shiftCount : Nat

/-- One branch of the body: the lowest bit of a coordinate that has bits left is put at the next place. -/
def takeBit (i : Axis) (s : ZLoop) : Option ZLoop :=
  if s.log2 i = 0 then some s
  else if s.shiftCount < 32 then
    some
      { point := update s.point i (s.point i >>> 1)
        log2 := update s.log2 i (s.log2 i - 1)
        offset := s.offset ||| (s.point i &&& 1) <<< s.shiftCount
        shiftCount := s.shiftCount + 1 }
  else none

def zRound (s : ZLoop) : Option ZLoop := do takeBit .z (← takeBit .y (← takeBit .x s))

/-- The `do` loop, for at most so many rounds. -/
def zLoop : Nat → ZLoop → Option Nat
  | 0, _ => none
  | rounds + 1, s => do
    let s ← zRound s
    if s.point .x ||| s.point .y ||| s.point .z = 0 then some s.offset else zLoop rounds s

/-- `calculate_z_index`. After as many rounds as the greatest of the logarithms has the body changes
nothing any more, so a loop that goes on behind them does not end. -/
def calculateZIndex (x y z log2Width log2Height log2Depth : Nat) : Option Nat :=
  zLoop (max log2Width (max log2Height log2Depth) + 1)
    ⟨perAxis x y z, perAxis log2Width log2Height log2Depth, 0, 0⟩

/-! ## The walk -/

/-- The end of the bits that the two coordinates share. -/
def limitMask (log2width log2height : Nat) : BitVec 32 :=
  1#32 <<< ((if log2width < log2height then log2width else log2height) <<< 1)

/-- The places of the bits of `x`: every second one below the limit, and all above it. -/
def xMask (limit : BitVec 32) : BitVec 32 := 0x55555555#32 ||| ~~~(limit - 1)

def yMask (limit : BitVec 32) : BitVec 32 := 0xAAAAAAAA#32 &&& (limit - 1)

variable {T : Type}

/-- The variables of the loop over the rows. -/
structure Walk (T : Type) where
  offsY : BitVec 32
  offsX0 : BitVec 32
  rowOffset : BitVec 32
  output : Nat → T

/-- The loop over a row; `copy` moves a texel between an index of the linear image and one of the
swizzled image. -/
def walkRow (copy : Nat → Nat → (Nat → T) → Nat → T) (limit : BitVec 32) (width : Nat)
    (s : Walk T) : BitVec 32 × (Nat → T) :=
  (List.range width).foldl
    (fun r x =>
      ((r.1 - xMask limit) &&& xMask limit,
        copy (s.rowOffset.toNat + x) (s.offsY.toNat + r.1.toNat) r.2))
    (s.offsX0, s.output)

/-- A row. Where the shared bits of `y` are used up, `offs_x0` moves to the next block. -/
def walkStep (copy : Nat → Nat → (Nat → T) → Nat → T) (limit : BitVec 32) (width : Nat)
    (pitchInBlocks : BitVec 32) (s : Walk T) : Walk T :=
  let offsY := (s.offsY - yMask limit) &&& yMask limit
  { offsY := offsY
    offsX0 := if offsY = 0 then s.offsX0 + limit else s.offsX0
    rowOffset := s.rowOffset + pitchInBlocks
    output := (walkRow copy limit width s).2 }

/-- The copy of `convert_linear_swizzle`, which goes either way. -/
def copyTexel (inputIsSwizzled : Bool) (input : Nat → T) (linear swizzled : Nat) (output : Nat → T) : Nat → T :=
  if inputIsSwizzled then update output linear (input swizzled)
  else update output swizzled (input linear)

/-- `convert_linear_swizzle<T, input_is_swizzled>`. -/
def convertLinearSwizzle (size : Nat) (inputIsSwizzled : Bool) (input output : Nat → T)
    (width height pitch : Nat) : Nat → T :=
  let limit := limitMask (ceilLog2 width) (ceilLog2 height)
  let pitchInBlocks := BitVec.ofNat 32 (pitch / size)
  ((walkStep (copyTexel inputIsSwizzled input) limit width pitchInBlocks)^[height]
    ⟨0, 0, 0, output⟩).output

/-- The body of the three loops of `convert_linear_swizzle_3d`. -/
def readTexel (input : Nat → T) (log2w log2h log2d x y z : Nat) (s : Nat × (Nat → T)) : Option (Nat × (Nat → T)) := do
  let offset ← calculateZIndex x y z log2w log2h log2d
  some (s.1 + 1, update s.2 s.1 (input offset))

/-- `convert_linear_swizzle_3d`, which has a case of its own for a depth of 1. -/
def convertLinearSwizzle3d (size : Nat) (input output : Nat → T) (width height depth : Nat) : Option (Nat → T) :=
  if depth = 1 then
    some (convertLinearSwizzle size true input output width height (width * size % 0x100000000))
  else do
    let s ← (List.range depth).foldlM (fun s z => (List.range height).foldlM (fun s y =>
      (List.range width).foldlM (fun s x =>
        readTexel input (ceilLog2 width) (ceilLog2 height) (ceilLog2 depth) x y z s) s) s) (0, output)
    some s.2

end Rpcsx.Rsx
