import Mathlib.Logic.Function.Basic
import Rpcsx.Rsx.Word

/-!
# Tiled memory

`tiled_dma_copy.hpp`: the texels of a tiled region lie in tiles of 256 bytes by 64 lines, and inside of a
tile at addresses that spread them over rows, banks and columns of the memory. Numbers are `uint32_t`, below
`2 ^ 32`. The two buffers are functions from an offset to the byte that is there.
-/

namespace Rpcsx.Rsx

/-- `detiler_config`, as far as it is read. -/
structure DetilerConfig where
  factor : Nat
  numTilesPerRow : Nat
  tileBaseAddress : Nat
  tileSize : Nat
  tileAddressOffset : Nat
  tileRwOffset : Nat
  tilePitch : Nat
  tileBank : Nat
  imagePitch : Nat
  imageBpp : Nat

namespace DetilerConfig

variable (conf : DetilerConfig)

/-- The address of a texel in a region that is not tiled. -/
def thisAddress (row col : Nat) : Nat :=
  let rowOffset := u32 (row * conf.tilePitch + conf.tileBaseAddress + conf.tileAddressOffset)
  u32 (rowOffset + u32 (col * conf.imageBpp))

/-! ### Row -/

/-- The number of the piece of 256 bytes that the address is in. -/
def texelOffset (thisAddress : Nat) : Nat := u32Sub thisAddress conf.tileBaseAddress / 256

def tileX (thisAddress : Nat) : Nat := conf.texelOffset thisAddress % conf.numTilesPerRow

def tileY (thisAddress : Nat) : Nat := conf.texelOffset thisAddress / conf.numTilesPerRow / 64

/-- The number of the tile, counted by rows of tiles. -/
def tileId (thisAddress : Nat) : Nat :=
  u32 (conf.tileY thisAddress * conf.numTilesPerRow + conf.tileX thisAddress)

/-- The tile in the memory, of 16 KiB each. -/
def tileSelector (thisAddress : Nat) : Nat :=
  u32 (conf.tileId thisAddress + conf.tileBaseAddress >>> 14) &&& 0x3ffff

def rowAddress (thisAddress : Nat) : Nat := (conf.tileSelector thisAddress >>> 2) &&& 0xffff

/-! ### Bank -/

def bankDistributionLookup : List Nat := [0, 1, 2, 3, 2, 3, 0, 1, 1, 2, 3, 0, 3, 0, 1, 2]

/-- The bank of a tile, which depends on how the pitch is made up. -/
def bankSelector (thisAddress : Nat) : Nat :=
  let tileSelector := conf.tileSelector thisAddress
  let tileY := conf.tileY thisAddress
  let selector :=
    if conf.factor = 1 then tileSelector &&& 3
    else if conf.factor = 2 then
      bankDistributionLookup.getD (((tileSelector + (tileY &&& 1) <<< 1) &&& 3) * 4 + (tileY &&& 3)) 0
    else if 4 ≤ conf.factor then bankDistributionLookup.getD ((tileSelector &&& 3) * 4 + (tileY &&& 3)) 0
    else 0
  (selector + conf.tileBank) &&& 3

/-! ### Column and partition -/

def lineOffsetInTile (thisAddress : Nat) : Nat := conf.texelOffset thisAddress / conf.numTilesPerRow % 64

/-- Line and piece of 32 bytes inside of the tile. -/
def columnSelector (thisAddress : Nat) : Nat :=
  ((conf.lineOffsetInTile thisAddress >>> 3) &&& 0x7) <<< 7 |||
    ((thisAddress >>> 5) &&& 0x7) <<< 4 |||
    ((conf.lineOffsetInTile thisAddress >>> 0) &&& 0x3) <<< 2

def partitionSelector (thisAddress : Nat) : Nat :=
  (((conf.lineOffsetInTile thisAddress >>> 2) &&& 1) + ((thisAddress >>> 6) &&& 1)) &&& 1

/-! ### Address -/

/-- The fields of the address, put together. -/
def joinedAddress (thisAddress : Nat) : Nat :=
  ((conf.rowAddress thisAddress >>> 0) &&& 0xffff) <<< 16 |||
    ((conf.bankSelector thisAddress >>> 0) &&& 0x3) <<< 14 |||
    ((conf.columnSelector thisAddress >>> 4) &&& 0x3f) <<< 8 |||
    ((conf.partitionSelector thisAddress >>> 0) &&& 0x1) <<< 7 |||
    ((conf.columnSelector thisAddress >>> 2) &&& 0x3) <<< 5 |||
    ((thisAddress >>> 0) &&& 0x1f) <<< 0

/-- Two bits of the joined address are twisted. -/
def tileAddress (thisAddress : Nat) : Nat :=
  let t := conf.joinedAddress thisAddress
  let t := t ^^^
    ((t >>> 12 ^^^ ((conf.bankSelector thisAddress ^^^ conf.tileSelector thisAddress) &&& 1) ^^^ t >>> 14)
      &&& 1) <<< 9
  t ^^^ ((t >>> 11) &&& 1) <<< 10

/-- Where the texel is, from the begin of the region on. -/
def tileBaseOffset (row col : Nat) : Nat :=
  u32Sub (conf.tileAddress (conf.thisAddress row col)) conf.tileBaseAddress

def tileDataOffset (row col : Nat) : Nat := u32Sub (conf.tileBaseOffset row col) conf.tileRwOffset

def linearImageOffset (row col : Nat) : Nat :=
  u32 (row * conf.imagePitch + col * conf.imageBpp)

end DetilerConfig

/-! ### Copies -/

def memcpy (dst : Nat → UInt8) (dstOffset : Nat) (src : Nat → UInt8) (srcOffset count : Nat) : Nat → UInt8 :=
  (List.range count).foldl
    (fun dst i => Function.update dst (dstOffset + i) (src (srcOffset + i))) dst

/-- `RSX_DMA_OP_ENCODE_TILE` and `RSX_DMA_OP_DECODE_TILE`. -/
inductive DmaOp where
  | encodeTile
  | decodeTile

/-- `tiled_dma_copy`. The buffer that is written comes first, the one that is read second. -/
def tiledDmaCopy (row col : Nat) (conf : DetilerConfig) (dst src : Nat → UInt8) (direction : DmaOp) : Nat → UInt8 :=
  if conf.tileBaseOffset row col ≥ conf.tileSize then dst
  else
    match direction with
    | .encodeTile =>
      memcpy dst (conf.tileDataOffset row col) src (conf.linearImageOffset row col) conf.imageBpp
    | .decodeTile =>
      memcpy dst (conf.linearImageOffset row col) src (conf.tileDataOffset row col) conf.imageBpp

/-- The prime and the factor; the source returns a pair of zeros for other pitches. -/
def getPrimeFactor (pitch : Nat) : Nat × Nat :=
  let base := pitch >>> 8
  if pitch &&& (pitch - 1) = 0 then (1, base)
  else
    match [3, 5, 7, 11, 13].find? fun prime => base % prime == 0 with
    | some prime => (prime, base / prime)
    | none => (0, 0)

/-- The configuration that `tile_texel_data` sets up. -/
def tileConfig (size baseAddress baseOffset tileSize bankSense rowPitchInBytes : Nat) : DetilerConfig where
  factor := (getPrimeFactor rowPitchInBytes).2
  numTilesPerRow := u32 ((getPrimeFactor rowPitchInBytes).1 * (getPrimeFactor rowPitchInBytes).2)
  tileBaseAddress := baseAddress
  tileSize := tileSize
  tileAddressOffset := baseOffset
  tileRwOffset := baseOffset
  tilePitch := rowPitchInBytes
  tileBank := bankSense
  imagePitch := rowPitchInBytes
  imageBpp := size

/-- `tile_texel_data<T, Decode>`, where `size` is `sizeof(T)`. -/
def tileTexelData (direction : DmaOp) (size : Nat) (dst src : Nat → UInt8) (baseAddress baseOffset
    tileSize bankSense rowPitchInBytes imageWidth imageHeight : Nat) : Nat → UInt8 :=
  let conf := tileConfig size baseAddress baseOffset tileSize bankSense rowPitchInBytes
  (List.range imageHeight).foldl
    (fun dst row => (List.range imageWidth).foldl
      (fun dst col => tiledDmaCopy row col conf dst src direction) dst) dst

end Rpcsx.Rsx
