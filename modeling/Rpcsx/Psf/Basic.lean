import Mathlib.Data.List.Forall2
import Rpcsx.Lib.Codec
import Rpcsx.Lib.OrdMap
import Rpcsx.Util.File

/-!
# PSF files

`psf::load` and `psf::save_object`, which read and write the `PARAM.SFO` of a title: a header, a
table of entries, the keys one after another, padding, and the values, each in room of its own.
`ensure` and `narrow` throw, which is a failed `Option` here.
-/

namespace Rpcsx.Psf

open Lib Util

/-- `psf::format`. -/
inductive Format
  | array | string | integer
  deriving DecidableEq

def Format.code : Format → Nat
  | .array => 0x0004
  | .string => 0x0204
  | .integer => 0x0404

/-- `psf::error`. -/
inductive Error
  | ok | stream | notPsf | corrupt
  deriving DecidableEq

/-- `psf::entry`. The two constructors of the class are the only way to make one, so an integer
takes four bytes, a string has room for its terminator, and only one of the two values is set. -/
structure Entry where
  type : Format
  maxSize : UInt32
  valueInteger : UInt32
  valueString : Bytes
  integer_wf : type = .integer → maxSize = 4 ∧ valueString = []
  string_wf : type = .string → 1 < maxSize ∧ valueInteger = 0
  array_wf : type = .array → 0 < maxSize ∧ valueInteger = 0

namespace Entry

@[ext] theorem ext {e e' : Entry} (htype : e.type = e'.type) (hmax : e.maxSize = e'.maxSize)
    (hint : e.valueInteger = e'.valueInteger) (hstr : e.valueString = e'.valueString) : e = e' := by
  cases e
  cases e'
  cases htype
  cases hmax
  cases hint
  cases hstr
  rfl

instance : DecidableEq Entry := fun e e' =>
  decidable_of_iff (e.type = e'.type ∧ e.maxSize = e'.maxSize ∧ e.valueInteger = e'.valueInteger ∧
    e.valueString = e'.valueString)
    ⟨fun h => ext h.1 h.2.1 h.2.2.1 h.2.2.2, fun h => h ▸ ⟨rfl, rfl, rfl, rfl⟩⟩

/-- The constructor for text, whose `ensure`s want room for it. -/
def ofString (type : Format) (maxSize : UInt32) (value : Bytes) : Option Entry :=
  match type with
  | .integer => none
  | .string =>
    if h : 1 < maxSize then
      some ⟨.string, maxSize, 0, value, nofun, fun _ => ⟨h, rfl⟩, nofun⟩
    else none
  | .array =>
    if h : 0 < maxSize then
      some ⟨.array, maxSize, 0, value, nofun, nofun, fun _ => ⟨h, rfl⟩⟩
    else none

def ofInteger (value : UInt32) : Entry := ⟨.integer, 4, value, [], fun _ => ⟨rfl, rfl⟩, nofun, nofun⟩

/-- `entry::max(with_nts)`: the room of the value, with the terminator or without. -/
def max (e : Entry) (withNts : Bool) : UInt32 :=
  e.maxSize - (if !withNts && e.type = .string then 1 else 0)

/-- `::narrow<u32>`. -/
def narrow (n : Nat) : Option Nat := if n < 0x100000000 then some n else none

/-- `entry::size`: the bytes in use. -/
def size (e : Entry) : Option Nat :=
  match e.type with
  | .string => (narrow (e.valueString.length + 1)).map (min e.maxSize.toNat)
  | .array => (narrow e.valueString.length).map (min e.maxSize.toNat)
  | .integer => some 4

/-- `entry::is_valid`: the text fits its room. -/
def isValid (e : Entry) : Bool :=
  match e.type with
  | .string | .array => e.valueString.length ≤ (e.max false).toNat
  | .integer => true

end Entry

abbrev Registry := OrdMap Bytes Entry

/-- `header_t`, without magic number and version. -/
structure Header where
  offKeyTable : Nat
  offDataTable : Nat
  entriesNum : Nat
  deriving DecidableEq

def magic : Nat := 0x46535000

def version : Nat := 0x101

/-- `def_table_t`. -/
structure Index where
  keyOff : Nat
  paramFmt : Nat
  paramLen : Nat
  paramMax : Nat
  dataOff : Nat
  deriving DecidableEq

def Header.bytes (h : Header) : Bytes :=
  leBytes 4 magic ++ leBytes 4 version ++ leBytes 4 h.offKeyTable ++ leBytes 4 h.offDataTable ++
    leBytes 4 h.entriesNum

def Index.bytes (i : Index) : Bytes :=
  leBytes 2 i.keyOff ++ leBytes 2 i.paramFmt ++ leBytes 4 i.paramLen ++ leBytes 4 i.paramMax ++
    leBytes 4 i.dataOff

/-! ## Saving -/

/-- The loop that fills the entry table: the table, and the length of the key table. -/
def makeIndices (keyOffset dataOffset : Nat) : List (Bytes × Entry) → Option (List Index × Nat)
  | [] => some ([], keyOffset)
  | (key, entry) :: rest => do
    let keyOff ← Entry.narrow keyOffset
    let paramLen ← entry.size
    let dataOff ← Entry.narrow dataOffset
    let keySize ← Entry.narrow (key.length + 1)
    let (indices, keyEnd) ←
      makeIndices (keyOffset + keySize) (dataOffset + (entry.max true).toNat) rest
    -- `key_off` has 16 bits
    pure (⟨keyOff % 0x10000, entry.type.code, paramLen, (entry.max true).toNat, dataOff⟩ :: indices,
      keyEnd)

def alignUp4 (n : Nat) : Nat := (n + 3) / 4 * 4

def saveKeys (s : ContainerStream) (psf : List (Bytes × Entry)) : ContainerStream :=
  psf.foldl (fun s x => (s.write x.1).write [0]) s

/-- A value, cut to its room and filled up with zeros. -/
def saveValue (s : ContainerStream) (entry : Entry) : ContainerStream :=
  match entry.type with
  | .integer => s.write (leBytes 4 entry.valueInteger.toNat)
  | .string | .array =>
    let value :=
      if entry.isValid then entry.valueString
      else entry.valueString.take (entry.max false).toNat
    let s := s.write value
    s.truncAt (s.pos + ((entry.max true).toNat - value.length))

/-- The second half of `save_object`: everything is written over what the vector held. -/
def saveFile (init : Bytes) (header : Header) (indices : List Index) (psf : List (Bytes × Entry)) : Bytes :=
  let s : ContainerStream := ⟨init, 0⟩
  let s := s.write header.bytes
  let s := s.write (indices.flatMap Index.bytes)
  let s := saveKeys s psf
  let s := s.truncAt header.offDataTable
  (psf.foldl (fun s x => saveValue s x.2) s).obj

/-- `save_object` into a vector that holds `init`. -/
def saveObject (psf : Registry) (init : Bytes) : Option Bytes := do
  let (indices, keyEnd) ← makeIndices 0 0 psf.entries
  let offKeyTable ← Entry.narrow (20 + 16 * psf.entries.length)
  let offDataTable ← Entry.narrow (offKeyTable + alignUp4 keyEnd)
  let entriesNum ← Entry.narrow psf.entries.length
  pure (saveFile init ⟨offKeyTable, offDataTable, entriesNum⟩ indices psf.entries)

/-! ## Loading -/

/-- `load` has found an error, or an `ensure` has failed. -/
inductive Failure
  | error (errc : Error)
  | abort
  deriving DecidableEq

/-- `PSF_CHECK`. -/
def check (cond : Bool) (errc : Error) : Except Failure Unit :=
  if cond then .ok () else .error (.error errc)

def checkRead (stream : Bytes) (pos size : Nat) (errc : Error) : Except Failure Bytes :=
  match ContainerStream.read stream pos size with
  | some bytes => .ok bytes
  | none => .error (.error errc)

def field (bytes : Bytes) (pos size : Nat) : Nat := ofLeBytes (slice bytes pos size)

def readIndex (indices : Bytes) (i : Nat) : Index :=
  let at' := 16 * i
  ⟨field indices at' 2, field indices (at' + 2) 2, field indices (at' + 4) 4,
    field indices (at' + 8) 4, field indices (at' + 12) 4⟩

/-- A string ends at its terminator, an array does not. -/
def loadText (type : Format) (index : Index) (bytes : Bytes) : Except Failure Entry :=
  let value := if type = .string then cString bytes else bytes
  match Entry.ofString type (UInt32.ofNat index.paramMax) value with
  | some entry => .ok entry
  | none => .error .abort

/-- The turn of the loop for one entry of the table. -/
def loadEntry (stream : Bytes) (header : Header) (keys : Bytes) (sfo : Registry) (index : Index) :
    Except Failure Registry := do
  check (index.keyOff < header.offDataTable - header.offKeyTable) .corrupt
  let key := cString (keys.drop index.keyOff)
  check (sfo.find? key).isNone .corrupt
  check (index.paramLen ≤ index.paramMax) .corrupt
  check (index.dataOff < stream.length - header.offDataTable) .corrupt
  check (index.paramMax < stream.length - index.dataOff) .corrupt
  -- the sum has 32 bits
  let pos := (header.offDataTable + index.dataOff) % 0x100000000
  if index.paramFmt = Format.integer.code ∧ index.paramMax = 4 ∧ index.paramLen = 4 then
    let bytes ← checkRead stream pos 4 .corrupt
    pure (sfo.emplace key (Entry.ofInteger (UInt32.ofNat (ofLeBytes bytes)))).1
  else if index.paramFmt = Format.string.code then
    let bytes ← checkRead stream pos index.paramLen .corrupt
    let entry ← loadText .string index bytes
    pure (sfo.emplace key entry).1
  else if index.paramFmt = Format.array.code then
    let bytes ← checkRead stream pos index.paramLen .corrupt
    let entry ← loadText .array index bytes
    pure (sfo.emplace key entry).1
  else
    -- possibly unsupported format, entry ignored
    pure sfo

/-- `get_string`, with a default. -/
def getString (psf : Registry) (key def_ : Bytes) : Bytes :=
  match psf.find? key with
  | some entry => if entry.type = .string ∨ entry.type = .array then entry.valueString else def_
  | none => def_

def validCats : List Bytes :=
  ["GD", "DG", "HG", "AM", "AP", "AS", "AT", "AV", "BV", "WT", "HM", "CB", "SF", "2P", "2G", "1P",
    "PP", "MN", "PE", "2D", "SD", "MS"].map ascii

def knownCategory (psf : Registry) : Bool :=
  getString psf (ascii "CATEGORY") [] ∈ validCats

/-- `load`, up to its handling of errors. -/
def loadRegistry (stream : Bytes) : Except Failure Registry := do
  let bytes ← checkRead stream 0 20 .notPsf
  check (field bytes 0 4 = magic) .notPsf
  check (field bytes 4 4 = version) .notPsf
  let header : Header := ⟨field bytes 8 4, field bytes 12 4, field bytes 16 4⟩
  check (20 ≤ header.offKeyTable) .corrupt
  check (header.offKeyTable ≤ header.offDataTable) .corrupt
  check (header.offDataTable ≤ stream.length) .corrupt
  let indices ← checkRead stream 20 (16 * header.entriesNum) .corrupt
  let keys ←
    checkRead stream header.offKeyTable (header.offDataTable - header.offKeyTable) .corrupt
  let sfo ← ((List.range header.entriesNum).map (readIndex indices)).foldlM
    (loadEntry stream header keys) OrdMap.empty
  check (knownCategory sfo) .corrupt
  pure sfo

structure LoadResult where
  sfo : Registry
  errc : Error
  deriving DecidableEq

/-- `psf::load` of a file, if there is one; `none` when an assertion fails. -/
def load (stream : Option Bytes) : Option LoadResult :=
  match stream with
  | none => some ⟨OrdMap.empty, .stream⟩
  | some stream =>
    match loadRegistry stream with
    | .ok sfo => some ⟨sfo, .ok⟩
    | .error (.error errc) => some ⟨OrdMap.empty, errc⟩
    | .error .abort => none

end Rpcsx.Psf
