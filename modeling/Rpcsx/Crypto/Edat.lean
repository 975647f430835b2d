import Rpcsx.Lib.ByteString
import Rpcsx.Lib.Records

/-!
# EDAT files

`EDATADecrypter` of `unedat.cpp`: the plaintext is cut into blocks of `block_size` bytes, and a read decrypts the blocks
it touches one after another in a buffer of `block_size + 16` bytes. The blocks and their metadata have three layouts.
Whether there is a key, how a block is decrypted and authenticated, and the range decoder of `lz.cpp` are arbitrary.

A call that does not come back is `none`: a division by zero, a failing `narrow` or `ensure`, a vector of an impossible
size, or work on more bytes of a buffer than it has.
-/

namespace Rpcsx.Crypto

open Lib List

def s32 (n : Int) : Int := (n + 2 ^ 31) % 2 ^ 32 - 2 ^ 31

def u64 (n : Int) : Nat := (n % 2 ^ 64).toNat

def narrow (n : Nat) : Option Nat := if n < 2 ^ 32 then some n else none

def alignedDiv (value align : Nat) : Nat := value / align + if value % align ≠ 0 then 1 else 0

theorem lt_alignedDiv {i value align : Nat} (h : 0 < align) : i < alignedDiv value align ↔ i * align < value := by
  unfold alignedDiv
  split
  · next hrem =>
    rw [Nat.lt_succ_iff, Nat.le_div_iff_mul_le h]
    refine ⟨fun hle => Nat.lt_of_le_of_ne hle ?_, Nat.le_of_lt⟩
    rintro rfl
    exact hrem (Nat.mul_mod_left _ _)
  · next hrem => exact Nat.lt_div_iff_mul_lt_of_dvd h.ne' (Nat.dvd_of_mod_eq_zero (not_not.mp hrem))

def alignUp (n : Nat) : Nat := (n + 15) % 2 ^ 64 / 16 * 16

/-- The fields of `NPD_HEADER` and `EDAT_HEADER` that are used; they stand in the first 0x90 bytes of the file, and may
have any value. The bits of `flags` are a number. -/
structure EdatHeader where
  isNpd : Bool
  version : Int
  flags : Nat
  block_size : Int
  file_size : Nat
  block_size_range : -2 ^ 31 ≤ block_size ∧ block_size < 2 ^ 31
  file_size_lt : file_size < 2 ^ 64

/-- Decryption of a block with the hash in its metadata, if it is authentic; and the loop of `decompress`, which decodes
into `size` bytes or fails, and does not come back if it reads past its data. -/
structure EdatCodec where
  decrypt : Nat → List UInt8 → List UInt8 → Option (List UInt8)
  length_decrypt : ∀ {i hash data out}, decrypt i hash data = some out → out.length = data.length
  decodeRange : List UInt8 → Nat → Option (Option (List UInt8))
  length_decodeRange : ∀ {data size out}, decodeRange data size = some (some out) → out.length ≤ size

/-- The first byte says that the data is not compressed. -/
def isRaw (data : List UInt8) : Bool := 0x80 < data.getD 0 0

/-- `code`, which is the number of bytes of data that is not compressed. -/
def rawLength (data : List UInt8) : Nat := ofBeBytes (slice data 1 4)

/-- `decompress` of `lz.cpp`: what is written, and the result. What is not compressed is copied and not counted. -/
def EdatCodec.decompress (c : EdatCodec) (data : List UInt8) (size : Nat) : Option (Option (List UInt8 × Nat)) :=
  if data.length < 5 then none
  else if isRaw data then
    if size < rawLength data then some none
    else if data.length < 5 + rawLength data then none
    else some (some (slice data 5 (rawLength data), 0))
  else (c.decodeRange data size).map fun out => out.map fun out => (out, out.length)

/-- Where the data of a block is, and what the metadata says of it. -/
structure EdatBlock where
  offset : Nat
  length : Nat
  compression_end : Int
  hash : List UInt8

def readZeroed (file : List UInt8) (pos n : Nat) : List UInt8 := slice (file ++ replicate (pos + n) 0) pos n

def decSection (metadata : List UInt8) : List UInt8 :=
  (range 0x10).map fun k =>
    metadata.getD ((if k / 4 % 2 = 0 then 0xC else 4) + k % 4) 0 ^^^ metadata.getD ((if k < 8 then 8 else 0) + k % 4) 0 ^^^
      metadata.getD (0x10 + k) 0

namespace EdatHeader

variable (h : EdatHeader)

def compressed : Bool := h.flags.testBit 0

def flag0x20 : Bool := h.flags.testBit 5

def sdat : Bool := h.flags.testBit 24

def debugData : Bool := h.flags.testBit 31

def blockSize : Nat := u64 h.block_size

/-- `length` of a block whose metadata does not give it. -/
def dataLength (total_blocks block_num : Nat) : Nat :=
  if block_num = (total_blocks + 2 ^ 32 - 1) % 2 ^ 32 ∧ h.file_size % h.blockSize ≠ 0 then
    u64 (s32 (h.file_size % h.blockSize))
  else h.blockSize

/-- The first part of `decrypt_block`: the metadata of a block. -/
def block (file : List UInt8) (total_blocks block_num : Nat) : EdatBlock :=
  if h.compressed then
    let metadata := readZeroed file (0x100 + block_num * 0x20) 0x20
    let dec := if h.version ≤ 1 then metadata.drop 0x10 else decSection metadata
    { offset := ofBeBytes (slice dec 0 8)
      length := u64 (s32 (ofBeBytes (slice dec 8 4)))
      compression_end := s32 (ofBeBytes (slice dec 12 4))
      hash := metadata.take 0x10 ++ replicate 4 0 }
  else if h.flag0x20 then
    let metadata_sec_offset := (0x100 + block_num * u64 (s32 (0x20 + h.block_size))) % 2 ^ 64
    let metadata := readZeroed file metadata_sec_offset 0x20
    -- where this leaves the 64 bits the metadata has not been read
    { offset := metadata_sec_offset + 0x20
      length := h.dataLength total_blocks block_num
      compression_end := 0
      hash := zipWith (· ^^^ ·) (metadata.take 0x10) (metadata.drop 0x10) ++ slice metadata 0x10 4 }
  else
    { offset := (0x100 + block_num * h.blockSize + total_blocks * 0x10 % 2 ^ 32) % 2 ^ 64
      length := h.dataLength total_blocks block_num
      compression_end := 0
      hash := readZeroed file (0x100 + block_num * 0x10) 0x10 ++ replicate 4 0 }

variable (c : EdatCodec) (file : List UInt8) (total_blocks : Nat)

def decrypted (block_num : Nat) (b : EdatBlock) (enc : List UInt8) : Option (List UInt8) :=
  if h.debugData then some enc else c.decrypt block_num b.hash enc

/-- What `decrypt_block` writes and returns, or an error. -/
def decode (block_num : Nat) (b : EdatBlock) (enc : List UInt8) : Option (Option (List UInt8 × Nat)) :=
  match h.decrypted c block_num b enc with
  | none => some none
  | some dec =>
    if b.compression_end ≠ 0 then c.decompress dec (h.block_size % 2 ^ 32).toNat
    else some (some (dec.take b.length, b.length))

/-- `decrypt_block` with an aligned `out`: the buffer, and the result as the caller takes it, with -1 for an error. The
data is read into `out`, and decrypted from there. A read up to 2^63 or further fails an `ensure` of `read_at`. -/
def decryptBlock (block_num : Nat) (out : List UInt8) : Option (List UInt8 × Nat) :=
  let b := h.block file total_blocks block_num
  let length := alignUp b.length
  if 2 ^ 63 ≤ b.offset + length ∨ out.length < length then none
  else
    let out := overwrite out 0 (slice file b.offset length)
    (h.decode c block_num b (out.take length)).bind fun
    | none => some (out, 2 ^ 64 - 1)
    | some (data, res) =>
      -- debug data is left where it was read
      if out.length < data.length ∨ b.compression_end = 0 ∧ h.debugData = false ∧ out.length < b.length then none
      else some (overwrite out 0 data, res)

/-- The loop of `ReadData` from block `i` on: what is written, and the result. -/
def readLoop (starting_block ending_block startOffset size : Nat) :
    Nat → Nat → List UInt8 → List UInt8 → Option (List UInt8 × Nat)
  | 0, _, _, data => some (data, data.length)
  | n + 1, i, buf, data => do
    let (buf, res) ← h.decryptBlock c file total_blocks i buf
    if res = 2 ^ 64 - 1 then some (data, 0)
    else
      let skip_start := if i = starting_block then startOffset else 0
      if res ≤ skip_start then some (data, data.length)
      else
        let end_pos := if i ≠ (total_blocks + 2 ^ 32 - 1) % 2 ^ 32 then h.blockSize else (h.file_size - 1) % h.blockSize + 1
        let read_end := min res
          (if i = ending_block - 1 then min end_pos ((startOffset + size - 1) % h.blockSize + 1) else end_pos)
        if buf.length < read_end then none
        else
          readLoop starting_block ending_block startOffset size n (i + 1)
            (overwrite buf 0 (replicate (read_end - skip_start) 0)) (data ++ slice buf skip_start (read_end - skip_start))

def readData (pos size : Nat) : Option (List UInt8 × Nat) :=
  let size := min size (if pos > h.file_size then 0 else h.file_size - pos)
  if size = 0 then some ([], 0)
  else if h.blockSize = 0 then none
  else do
    let startOffset := pos % h.blockSize
    let num_blocks := alignedDiv (startOffset + size) h.blockSize
    let starting_block ← narrow (pos / h.blockSize)
    let ending_block ← narrow (min (starting_block + num_blocks) total_blocks)
    -- `std::vector<u8> data_buf(block_size + 16)`
    if s32 (h.block_size + 16) < 0 then none
    else
      h.readLoop c file total_blocks starting_block ending_block startOffset size (ending_block - starting_block)
        starting_block (replicate (s32 (h.block_size + 16)).toNat 0) []

theorem narrow_eq_some {n m : Nat} : narrow n = some m ↔ n < 2 ^ 32 ∧ n = m := by
  unfold narrow
  split <;> simp_all

variable {h c file total_blocks} {pos size : Nat}

theorem readData_nil (hempty : h.file_size ≤ pos ∨ size = 0) : h.readData c file total_blocks pos size = some ([], 0) := by
  refine if_pos ?_
  split <;> omega

theorem readData_eq (hpos : pos < h.file_size) (hsize : size ≠ 0) (hnonzero : h.blockSize ≠ 0)
    (hfirst : pos / h.blockSize < 2 ^ 32) (htotal : total_blocks < 2 ^ 32) (hbuf : 0 ≤ s32 (h.block_size + 16)) :
    h.readData c file total_blocks pos size = let size := min size (h.file_size - pos)
      let ending_block := min (pos / h.blockSize + alignedDiv (pos % h.blockSize + size) h.blockSize) total_blocks
      h.readLoop c file total_blocks (pos / h.blockSize) ending_block (pos % h.blockSize) size
        (ending_block - pos / h.blockSize) (pos / h.blockSize) (replicate (s32 (h.block_size + 16)).toNat 0) [] := by
  unfold readData
  dsimp only
  rw [if_neg (by omega : ¬ pos > h.file_size), if_neg (by omega), if_neg hnonzero, narrow_eq_some.mpr ⟨hfirst, rfl⟩,
    Option.bind_eq_bind, Option.bind_some, narrow_eq_some.mpr ⟨by omega, rfl⟩, Option.bind_some,
    if_neg (by omega)]

variable (h c file)

/-- `ReadHeader` behind the header: the result, and `total_blocks`. Without a key the file is opened and has no blocks. -/
def readHeader (hasKey : Bool) : Option (Bool × Nat) :=
  if h.isNpd = false then some (false, 0)
  else if h.sdat = false ∧ hasKey = false then some (true, 0)
  else if h.blockSize = 0 then none
  else do
    let total_blocks ← narrow (alignedDiv h.file_size h.blockSize)
    if h.file_size = 0 then some (true, total_blocks)
    else
      let (_, n) ← h.readData c file total_blocks 0 1
      some (decide (n ≠ 0), total_blocks)

end EdatHeader

end Rpcsx.Crypto
