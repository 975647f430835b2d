import Mathlib.Order.Fin.Basic
import Rpcsx.Rsx.Word
import Rpcsx.Rx.AddressRange

/-!
# Index buffers

The functions of `BufferUtils.cpp` that copy the indices of a draw call, and expand the primitives that
the host does not have. An index is a number of the unsigned type `T`, sixteen or thirty-two bits wide.
The destination is known by the writes that are made to it; where the source throws there is no result.
On x86 the two plain copies are generated code, which computes what the loops here do.
-/

namespace Rpcsx.Rsx

open Rx

inductive IndexArrayType where
  | u32
  | u16
  deriving DecidableEq

def IndexArrayType.size : IndexArrayType → Nat
  | .u32 => 4
  | .u16 => 2

def IndexArrayType.limit : IndexArrayType → Nat
  | .u32 => 0xffffffff
  | .u16 => 0xffff

abbrev Index (t : IndexArrayType) := Fin (t.limit + 1)

def indexLimit {t : IndexArrayType} : Index t := Fin.last t.limit

inductive PrimitiveType where
  | points
  | lines
  | lineLoop
  | lineStrip
  | triangles
  | triangleStrip
  | triangleFan
  | quads
  | quadStrip
  | polygon
  deriving DecidableEq

def isPrimitiveNative : PrimitiveType → Bool
  | .points | .lines | .lineStrip | .triangles | .triangleStrip | .quadStrip => true
  | .lineLoop | .polygon | .triangleFan | .quads => false

def isPrimitiveDisjointed : PrimitiveType → Bool
  | .lineLoop | .lineStrip | .polygon | .quadStrip | .triangleFan | .triangleStrip => false
  | .points | .lines | .triangles | .quads => true

/-- `get_index_count`, with the arithmetic of `u32`. -/
def getIndexCount (drawMode : PrimitiveType) (initialIndexCount : Nat) : Nat :=
  if isPrimitiveNative drawMode then initialIndexCount
  else
    match drawMode with
    | .lineLoop => u32 (initialIndexCount + 1)
    | .polygon | .triangleFan => u32 (u32 (initialIndexCount + 0xfffffffe) * 3)
    | .quads => u32 (6 * initialIndexCount) / 4
    | _ => 0

variable {t : IndexArrayType}

structure Upload (t : IndexArrayType) where
  writes : List (Nat × Index t)
  minIndex : Index t
  maxIndex : Index t
  written : Nat

structure MinMax (t : IndexArrayType) where
  minIndex : Index t
  maxIndex : Index t

def MinMax.start : MinMax t := ⟨indexLimit, 0⟩

def MinMax.add (m : MinMax t) (value : Index t) : MinMax t :=
  ⟨if value < m.minIndex then value else m.minIndex, if value > m.maxIndex then value else m.maxIndex⟩

def sequential (out : List (Index t)) : List (Nat × Index t) := out.zipIdx.map fun x => (x.2, x.1)

def isRestart (restartEnabled : Bool) (restartIndex : Nat) (index : Index t) : Bool :=
  restartEnabled && index.val == restartIndex

/-! ## Copies -/

/-- The loops that copy the indices, with the extremes of those that are copied as they are. -/
def uploadLoop (restartIndex : Option (Index t)) (src : List (Index t)) : MinMax t × List (Index t) :=
  src.foldl
    (fun s index =>
      if restartIndex = some index then (s.1, s.2 ++ [indexLimit]) else (s.1.add index, s.2 ++ [index]))
    (.start, [])

/-- `untouched_impl::upload_untouched` and `primitive_restart_impl::upload_untouched`. -/
def uploadUntouchedWith (restartIndex : Option (Index t)) (src : List (Index t)) : Upload t :=
  let s := uploadLoop restartIndex src
  ⟨sequential s.2, s.1.minIndex, s.1.maxIndex, src.length⟩

def uploadUntouchedSkipRestart (restartIndex : Index t) (src : List (Index t)) : Upload t :=
  let s := src.foldl
    (fun (s : MinMax t × List (Index t)) index =>
      if index ≠ restartIndex then (s.1.add index, s.2 ++ [index]) else s)
    (.start, [])
  ⟨sequential s.2, s.1.minIndex, s.1.maxIndex, s.2.length⟩

def uploadUntouched (src : List (Index t)) (drawMode : PrimitiveType) (restartEnabled : Bool)
    (restartIndex : Nat) : Upload t :=
  if !restartEnabled then uploadUntouchedWith none src
  else if h : restartIndex ≤ t.limit then
    let restartIndex : Index t := ⟨restartIndex, Nat.lt_succ_of_le h⟩
    if isPrimitiveDisjointed drawMode then uploadUntouchedSkipRestart restartIndex src
    else uploadUntouchedWith (some restartIndex) src
  else uploadUntouchedWith none src

/-! ## Expansion -/

structure FanState (t : IndexArrayType) where
  minMax : MinMax t
  out : List (Index t)
  needsAnchor : Bool
  anchor : Index t
  lastIndex : Index t

def fanStep (restartEnabled : Bool) (restartIndex : Nat) (s : FanState t) (index : Index t) : FanState t :=
  if s.needsAnchor then
    if isRestart restartEnabled restartIndex index then s
    else { s with minMax := s.minMax.add index, anchor := index, needsAnchor := false }
  else if isRestart restartEnabled restartIndex index then
    { s with needsAnchor := true, lastIndex := indexLimit }
  else if s.lastIndex = indexLimit then
    { s with minMax := s.minMax.add index, lastIndex := index }
  else
    { s with
      minMax := s.minMax.add index
      out := s.out ++ [s.anchor, s.lastIndex, index]
      lastIndex := index }

def expandIndexedTriangleFan (src : List (Index t)) (dstSize : Nat) (restartEnabled : Bool)
    (restartIndex : Nat) : Option (Upload t) :=
  if dstSize < u64 (3 * u64Sub src.length 2) then none
  else
    let s := src.foldl (fanStep restartEnabled restartIndex) ⟨.start, [], true, indexLimit, indexLimit⟩
    some ⟨sequential s.out, s.minMax.minIndex, s.minMax.maxIndex, s.out.length⟩

structure QuadState (t : IndexArrayType) where
  minMax : MinMax t
  out : List (Index t)
  tmpIndices : List (Index t)

def quadStep (restartEnabled : Bool) (restartIndex : Nat) (s : QuadState t) (index : Index t) : QuadState t :=
  if isRestart restartEnabled restartIndex index then { s with tmpIndices := [] }
  else
    match s.tmpIndices ++ [index] with
    | [a, b, c, d] => ⟨s.minMax.add index, s.out ++ [a, b, c, c, d, a], []⟩
    | tmpIndices => { s with minMax := s.minMax.add index, tmpIndices }

def expandIndexedQuads (src : List (Index t)) (dstSize : Nat) (restartEnabled : Bool)
    (restartIndex : Nat) : Option (Upload t) :=
  if 4 * (dstSize * t.size) < 6 * (src.length * t.size) then none
  else
    let s := src.foldl (quadStep restartEnabled restartIndex) ⟨.start, [], []⟩
    some ⟨sequential s.out, s.minMax.minIndex, s.minMax.maxIndex, s.out.length⟩

def writeIndexArrayDataToBuffer (dstSize : Nat) (src : List (Index t)) (drawMode : PrimitiveType)
    (restartEnabled : Bool) (restartIndex : Nat) (expands : PrimitiveType → Bool) : Option (Upload t) :=
  if !expands drawMode then some (uploadUntouched src drawMode restartEnabled restartIndex)
  else
    match drawMode with
    | .lineLoop =>
      let u := uploadUntouched src drawMode restartEnabled restartIndex
      src.head?.map fun first => { u with writes := u.writes ++ [(dstSize, first)] }
    | .polygon | .triangleFan => expandIndexedTriangleFan src dstSize restartEnabled restartIndex
    | .quads => expandIndexedQuads src dstSize restartEnabled restartIndex
    | _ => none

end Rpcsx.Rsx
