import Rpcsx.Lib.Codec
import Rpcsx.Lib.OrdMap
import Rpcsx.Tar.Header
import Rpcsx.Util.File

/-!
# TAR archives

`tar_object`: the archive of a directory that a savestate carries, and its two readers. Over a file,
`get_file` looks a path up among the headers it has seen and goes on from the last of them when the
path is not there. Over a stream, `get_file("")` takes one header at a time, and `extract` goes
through the archive with it. An archive is not ended by a block of its own: its readers stop where
the file ends, or behind as many bytes as the savestate has noted.
-/

namespace Rpcsx.Tar

open Lib Util

/-! ## Writing -/

def alignUp512 (n : Nat) : Nat := (n + 511) / 512 * 512

structure DirEntry where
  name : Bytes
  stat : Stat
  deriving DecidableEq

/-- The path that `save_header` saves for a name: what follows the first `srcDirPos` bytes, without
slashes in front. -/
def savedPath (srcDirPos : Nat) (name : Bytes) : Bytes :=
  let path := (name.drop srcDirPos).dropWhile (· = 47)
  -- the directory itself
  if path = [] then [47] else path

def transferBlockSize : Nat := 0x1000000

theorem transferBlockSize_pos : 0 < transferBlockSize := by decide

def copyBlocks (fd : Bytes) (size readIndex : Nat) : Option Bytes :=
  if readIndex < size then
    (ContainerStream.read fd readIndex (min transferBlockSize (size - readIndex))).bind fun block =>
      (copyBlocks fd size (readIndex + transferBlockSize)).map (block ++ ·)
  else some []
termination_by size - readIndex
decreasing_by
  have := transferBlockSize_pos
  omega

/-- `save_file`, what it appends; `none` when the file is not there or is too short. -/
def saveFile (files : Bytes → Option Bytes) (entry : DirEntry) : Option Bytes :=
  if entry.stat.size = 0 then some []
  else
    (files entry.name).bind fun fd =>
      (copyBlocks fd entry.stat.size 0).map fun data =>
        data ++ List.replicate (alignUp512 data.length - data.length) 0

/-- One turn of the loop of `save_directory` over the entries that were found. -/
def saveEntry (files : Bytes → Option Bytes) (target : Bytes) (ar : Bytes) (entry : DirEntry) : Option Bytes :=
  if target <+: entry.name then
    (makeHeader entry.stat (savedPath target.length entry.name)).bind fun header =>
      (if entry.stat.isDirectory then some [] else saveFile files entry).map fun data =>
        ar ++ header.bytes ++ data
  else none

/-- `tar_object::save_directory` with the entries that were found before. -/
def saveDirectory (files : Bytes → Option Bytes) (target : Bytes) (ar : Bytes)
    (entries : List DirEntry) : Option Bytes :=
  if entries = [] then none else entries.foldlM (saveEntry files target) ar

/-! ## Reading -/

def TARHeader.cacheSize (h : TARHeader) (size : Nat) : TARHeader :=
  ⟨overwrite h.bytes 124 (leBytes 8 size), by
    rw [length_overwrite] <;> rw [h.length_bytes]
    rw [length_leBytes]
    decide⟩

def TARHeader.cachedSize (h : TARHeader) : Nat := ofLeBytes (slice h.bytes 124 8)

/-- `tar_object`. The positions at which a header was read are kept beside its fields. -/
structure TarObject where
  largestOffset : Nat
  map : OrdMap Bytes (Nat × TARHeader)
  reads : List Nat

def TarObject.new : TarObject := ⟨0, OrdMap.empty, []⟩

/-- `emplace_single_entry`: the object, the size (`none` is `umax`) and the name. -/
def emplaceSingleEntry (readHeader : Nat → TARHeader) (maxSize : Nat) (t : TarObject) :
    TarObject × Option Nat × Bytes :=
  if maxSize ≤ t.largestOffset then (t, some 0, [])
  else
    let header := readHeader t.largestOffset
    let offset := t.largestOffset + 512
    let t := { t with largestOffset := offset, reads := t.reads ++ [t.largestOffset] }
    if header.magic.take 5 = ascii "ustar" then
      let size := octalTextToU64 header.size
      match size with
      | some n =>
        if (header.name.head? ≠ some 0 ∨ header.pathPrefix.head? ≠ some 0) ∧
            512 ≤ 0xffffffffffffffff - n ∧ n ≤ maxSize ∧ offset ≤ maxSize - n then
          ({ t with map := t.map.insert header.filename (offset, header.cacheSize n) }, some n,
            header.filename)
        else (t, some n, [])
      | none => (t, none, [])
    else (t, none, [])

def readHeader (file : Bytes) (offset : Nat) : TARHeader :=
  if h : (slice file offset 512).length = 512 then ⟨slice file offset 512, h⟩ else .zero

def scanEntry (file : Bytes) (t : TarObject) : TarObject × Bytes :=
  match emplaceSingleEntry (readHeader file) file.length t with
  | (t, none, filename) => (t, filename)
  | (t, some size, filename) =>
    ({ t with largestOffset := t.largestOffset + alignUp512 size }, filename)

theorem scanEntry_lt {file : Bytes} {t : TarObject} (h : t.largestOffset < file.length) :
    t.largestOffset < (scanEntry file t).1.largestOffset := by
  have hoffset : (emplaceSingleEntry (readHeader file) file.length t).1.largestOffset = t.largestOffset + 512 := by
    rw [emplaceSingleEntry, if_neg (by omega)]
    dsimp only
    split
    · split
      · split <;> rfl
      · rfl
    rfl
  rw [scanEntry]
  split <;> rename_i heq <;> rw [heq] at hoffset <;> dsimp only at hoffset ⊢ <;> omega

/-- The scan of `get_file`, until a header has the path; whether one had. -/
def scan (file path : Bytes) (t : TarObject) : TarObject × Bool :=
  if _ : t.largestOffset < file.length then
    let next := scanEntry file t
    if path ≠ [] ∧ path = next.2 then (next.1, true) else scan file path next.1
  else (t, false)
termination_by file.length - t.largestOffset
decreasing_by
  have := scanEntry_lt ‹_›
  omega

def TarObject.view (t : TarObject) (file path : Bytes) : Option Bytes :=
  (t.map.find? path).map fun x => slice file x.1 x.2.cachedSize

/-- `tar_object::get_file` over a file. -/
def getFile (file path : Bytes) (t : TarObject) : TarObject × Option Bytes :=
  if (t.map.find? path).isSome then (t, t.view file path)
  else
    match scan file path t with
    | (t, true) => (t, t.view file path)
    | (t, false) => (t, none)

def getFilenames (file : Bytes) (t : TarObject) : TarObject × List Bytes :=
  let t := (getFile file [] t).1
  (t, t.map.entries.map Prod.fst)

/-! ## Reading a stream -/

/-- `utils::serial` in its reading state: its bytes, the position and the limit. -/
structure Serial where
  data : Bytes
  pos : Nat
  maxData : Nat
  deriving DecidableEq

def Serial.getSize (ar : Serial) : Nat := min ar.maxData ar.data.length

/-- `get_file("", &name)` over a stream that was at `start` when the object was made. It fails when
the stream is not where the next header is, or ends within it. -/
def nextEntry (start : Nat) (ar : Serial) (t : TarObject) : Option (Serial × TarObject × Bytes) :=
  let maxSize := ar.getSize - start
  if maxSize ≤ t.largestOffset then some (ar, t, [])
  else if h : ar.pos = start + t.largestOffset ∧ (slice ar.data ar.pos 512).length = 512 then
    match emplaceSingleEntry (fun _ => ⟨slice ar.data ar.pos 512, h.2⟩) maxSize t with
    | (t, size, filename) =>
      -- the sum for `umax` wraps around to nothing
      some ({ ar with pos := ar.pos + 512 },
        { t with largestOffset := t.largestOffset + alignUp512 (size.getD 0) }, filename)
  else none

/-- The loop of `tar_object::extract` over a stream: the names, kinds and contents it comes to, for
at most `turns` of them. -/
def extract (start : Nat) : Nat → Serial → TarObject → Option (List (Bytes × UInt8 × Bytes) × Serial)
  | 0, _, _ => none
  | turns + 1, ar, t =>
    (nextEntry start ar t).bind fun (ar, t, name) =>
      match t.map.find? name with
      | none => some ([], ar)
      | some (offset, header) =>
        if header.filetype = [0] ∨ header.filetype = [48] then
          -- `get_file(name)` hands the stream out with the end of the member as its limit
          let data := slice ar.data ar.pos (start + offset + header.cachedSize - ar.pos)
          (extract start turns { ar with pos := start + t.largestOffset } t).map fun r =>
            ((name, 48, data) :: r.1, r.2)
        else if header.filetype = [53] then
          (extract start turns ar t).map fun r => ((name, 53, []) :: r.1, r.2)
        else none

end Rpcsx.Tar
