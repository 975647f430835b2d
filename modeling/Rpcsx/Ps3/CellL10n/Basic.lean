import Mathlib.Data.Nat.Basic
import Mathlib.Data.UInt

/-!
# Unicode conversions

The converters of `cellL10n` between UTF-8, UTF-16 and UTF-32. A converter of one character reads
units from an address on and returns how many of them it has read, or zero if they are not a
character; memory is the list of its units from that address on, and behind its end zeros are read.
The numbers of 64 bits that the source computes with are natural numbers, reduced to their width
where an operation can leave it.
-/

namespace Rpcsx.Ps3.CellL10n

open UInt8 UInt32

inductive ConversionResult where
  | conversionOK | srcIllegal | dstExhausted
  deriving DecidableEq, Repr

def surrogatesMask1 : Nat := 0xf800

def surrogatesMask2 : Nat := 0xfc00

def highSurrogates : Nat := 0xd800

def lowSurrogates : Nat := 0xdc00

def sub64 (a b : Nat) : Nat := (a + 0x10000000000000000 - b) % 0x10000000000000000

def shl64 (a i : Nat) : Nat := (a <<< i) % 0x10000000000000000

def low32 (a : Nat) : Nat := a % 0x100000000

def signExtend (src : Nat) : Nat :=
  if src < 0x80000000 then src else src + 0xffffffff00000000

/-! ## One character -/

def byteAt (src : List UInt8) (i : Nat) : Nat := (src.getD i 0).toNat

def wordAt (src : List UInt16) (i : Nat) : Nat := (src.getD i 0).toNat

def utf8toUTF32 (src : List UInt8) : Nat × List UInt32 :=
  let b := byteAt src
  if b 0 &&& 0xf8 = 0xf0 then
    if b 1 &&& 0xc0 ≠ 0x80 ∨ b 2 &&& 0xc0 ≠ 0x80 ∨ b 3 &&& 0xc0 ≠ 0x80 then (0, [])
    else
      let longval := (b 2 &&& 0x3f) <<< 6 ||| (b 0 &&& 7) <<< 0x12 ||| (b 1 &&& 0x3f) <<< 0xc |||
        (b 3 &&& 0x3f)
      if 0xfffff < low32 (sub64 longval 0x10000) then (0, []) else (4, [ofNat longval])
  else if b 0 &&& 0xf0 = 0xe0 then
    if b 1 &&& 0xc0 ≠ 0x80 ∨ b 2 &&& 0xc0 ≠ 0x80 then (0, [])
    else
      let longval := (b 1 &&& 0x3f) <<< 6 ||| (b 0 &&& 0xf) <<< 0xc ||| (b 2 &&& 0x3f)
      if longval < 0x800 ∨ low32 (sub64 longval highSurrogates) < 0x800 then (0, [])
      else (3, [ofNat longval])
  else if b 0 &&& 0xe0 = 0xc0 ∧ 0xc1 < b 0 then
    if b 1 &&& 0xc0 ≠ 0x80 then (0, [])
    else (2, [ofNat ((b 0 &&& 0x1f) <<< 6 ||| (b 1 &&& 0x3f))])
  else if 0x80 ≤ b 0 then (0, [])
  else (1, [ofNat (b 0)])

def utf8toUTF16 (src : List UInt8) : Nat × List UInt16 :=
  let b := byteAt src
  if b 0 &&& 0xf8 = 0xf0 then
    if b 1 &&& 0xc0 = 0x80 then
      if b 2 &&& 0xc0 = 0x80 ∧ b 3 &&& 0xc0 = 0x80 then
        let longval := (b 0 &&& 7) <<< 2 ||| ((b 1 >>> 4) &&& 3)
        if sub64 longval 1 % 0x10000 < 0x10 then
          (4, [UInt16.ofNat ((b 1 &&& 0xf) <<< 2 ||| ((b 2 >>> 4) &&& 3) |||
              (low32 (sub64 longval 1) <<< 6) % 0x10000 ||| highSurrogates),
            UInt16.ofNat ((b 2 &&& 0xf) <<< 6 ||| (b 3 &&& 0x3f) ||| lowSurrogates)])
        else (0, [])
      else (0, [])
    else (0, [])
  else if b 0 &&& 0xf0 ≠ 0xe0 then
    if b 0 &&& 0xe0 = 0xc0 ∧ 0xc1 < b 0 then
      if b 1 &&& 0xc0 ≠ 0x80 then (0, [])
      else (2, [UInt16.ofNat ((b 0 &&& 0x1f) <<< 6 ||| (b 1 &&& 0x3f))])
    else if 0x80 ≤ b 0 then (0, [])
    else (1, [UInt16.ofNat (b 0)])
  else if b 1 &&& 0xc0 = 0x80 ∧ b 2 &&& 0xc0 = 0x80 then
    let longval := (b 1 &&& 0x3f) <<< 6 ||| (b 0 &&& 0xf) <<< 0xc ||| (b 2 &&& 0x3f)
    if 0x7ff < longval ∧ low32 longval &&& surrogatesMask1 ≠ highSurrogates then
      (3, [UInt16.ofNat longval])
    else (0, [])
  else (0, [])

/-- `UTF16toUTF8`. The bytes of a unit in memory have the high byte first. -/
def utf16toUTF8 (src : List UInt16) : Nat × List UInt8 :=
  let u := wordAt src
  let srcRaw (i : Nat) : Nat := if i % 2 = 0 then u (i / 2) / 0x100 else u (i / 2) % 0x100
  if u 0 &&& surrogatesMask1 = highSurrogates then
    if u 0 &&& surrogatesMask2 = highSurrogates ∧ u 1 &&& surrogatesMask2 = lowSurrogates then
      let plane := ((u 0 >>> 6) &&& 0xf) + 1
      (2, [ofNat ((shl64 plane 0x20 >>> 0x22) % 0x100 ||| 0xf0),
        ofNat ((plane * 0x10 &&& 0x30) ||| ((u 0 >>> 2) % 0x100 &&& 0xf) ||| 0x80),
        ofNat (((u 1 >>> 6) % 0x100 &&& 0xf) ||| (u 0 % 0x100 &&& 3) <<< 4 ||| 0x80),
        ofNat ((srcRaw 3 &&& 0x3f) ||| 0x80)])
    else (0, [])
  else if 0x7ff < u 0 then
    (1, [ofNat ((shl64 (u 0) 0x20 >>> 0x2c) % 0x100 ||| 0xe0),
      ofNat (((u 0 >>> 6) % 0x100 &&& 0x3f) ||| 0x80),
      ofNat ((srcRaw 1 &&& 0x3f) ||| 0x80)])
  else if u 0 < 0x80 then (1, [ofNat (u 0)])
  else
    (1, [ofNat ((shl64 (u 0) 0x20 >>> 0x26) % 0x100 ||| 0xc0),
      ofNat ((srcRaw 1 &&& 0x3f) ||| 0x80)])

def utf16toUTF32 (src : List UInt16) : Nat × List UInt32 :=
  let u := wordAt src
  if u 0 &&& surrogatesMask1 ≠ highSurrogates then (1, [ofNat (u 0)])
  else if u 0 &&& surrogatesMask2 = u 0 &&& surrogatesMask1 ∧
      u 1 &&& surrogatesMask2 = lowSurrogates then
    (2, [ofNat (((u 0 &&& 0x3ff) * 0x400 + 0x10000) ||| (u 1 &&& 0x3ff))])
  else (0, [])

def notScalar (utf32 : Nat) : Prop :=
  0x110000 ≤ low32 utf32 ∨ low32 (sub64 utf32 highSurrogates) ≤ 0x7ff
  deriving Decidable

/-- `UTF32toUTF8`: the bytes, none if the number is no character. -/
def utf32toUTF8 (src : UInt32) : List UInt8 :=
  let utf32 := signExtend src.toNat
  if notScalar utf32 then []
  else if 0xffff < low32 utf32 then
    [ofNat ((shl64 utf32 0x20 >>> 0x32) % 0x100 ||| 0xf0),
      ofNat (((utf32 >>> 0xc) % 0x100 &&& 0x3f) ||| 0x80),
      ofNat (((utf32 >>> 6) % 0x100 &&& 0x3f) ||| 0x80),
      ofNat ((src.toNat % 0x100 &&& 0x3f) ||| 0x80)]
  else if low32 utf32 < 0x80 then [ofNat src.toNat]
  else if low32 utf32 < 0x800 then
    [ofNat ((shl64 utf32 0x20 >>> 0x26) % 0x100 ||| 0xc0),
      ofNat ((src.toNat % 0x100 &&& 0x3f) ||| 0x80)]
  else
    [ofNat ((shl64 utf32 0x20 >>> 0x2c) % 0x100 ||| 0xe0),
      ofNat (((utf32 >>> 6) % 0x100 &&& 0x3f) ||| 0x80),
      ofNat ((src.toNat % 0x100 &&& 0x3f) ||| 0x80)]

/-- `UTF32toUTF16`: the units, none if the number is no character. -/
def utf32toUTF16 (src : UInt32) : List UInt16 :=
  let utf32 := signExtend src.toNat
  if notScalar utf32 then []
  else if 0xffff < low32 utf32 then
    [UInt16.ofNat ((shl64 (sub64 utf32 0x10000) 0x20 >>> 0x2a) % 0x10000 ||| highSurrogates),
      UInt16.ofNat ((src.toNat % 0x10000 &&& 0x3ff) ||| lowSurrogates)]
  else [UInt16.ofNat src.toNat]

/-! ## Strings -/

/-- What a converter of strings returns and leaves: the numbers at `src_len` and `dst_len`, and the
units written. -/
structure Conversion (τ : Type) where
  result : ConversionResult
  srcLen : Nat
  dstLen : Nat
  written : List τ
  deriving DecidableEq

section Strings

variable {σ τ : Type}

/-- The loop of the converters. A character is converted by `step`, from the units in front of
`srcPos`; `len` units are counted and `written` are written, if there is a destination, for which
`dst` is the number at `dst_len`. Guest memory has fewer than `2 ^ 32` bytes, and the counters do not
wrap around. -/
def convertLoop (step : List σ → Nat × List τ) (src : List σ) (srcLen : Nat) (dst : Option Nat)
    (srcPos len : Nat) (written : List τ) : Conversion τ :=
  if _ : srcPos < srcLen then
    match step (src.drop srcPos) with
    | (0, _) => ⟨.srcIllegal, srcLen - srcPos, len, written⟩
    | (n + 1, units) =>
      let len := len + units.length
      match dst with
      | none => convertLoop step src srcLen dst (srcPos + (n + 1)) len written
      | some dstLen =>
        if dstLen < len then
          ⟨.dstExhausted, srcLen - srcPos, len - units.length, written⟩
        else convertLoop step src srcLen dst (srcPos + (n + 1)) len (written ++ units)
  else ⟨.conversionOK, srcLen, len, written⟩
termination_by srcLen - srcPos

def convert (step : List σ → Nat × List τ) (src : List σ) (srcLen : Nat) (dst : Option Nat) : Conversion τ :=
  if srcLen = 0 then ⟨.conversionOK, srcLen, 0, []⟩ else convertLoop step src srcLen dst 0 0 []

def oneUnit (conv : σ → List τ) [Inhabited σ] (src : List σ) : Nat × List τ :=
  let units := conv (src.getD 0 default)
  if units.length = 0 then (0, []) else (1, units)

end Strings

def utf8stoUTF32s : List UInt8 → Nat → Option Nat → Conversion UInt32 := convert utf8toUTF32

def utf8stoUTF16s : List UInt8 → Nat → Option Nat → Conversion UInt16 := convert utf8toUTF16

def utf16stoUTF8s : List UInt16 → Nat → Option Nat → Conversion UInt8 := convert utf16toUTF8

def utf16stoUTF32s : List UInt16 → Nat → Option Nat → Conversion UInt32 := convert utf16toUTF32

def utf32stoUTF8s : List UInt32 → Nat → Option Nat → Conversion UInt8 :=
  convert (oneUnit utf32toUTF8)

def utf32stoUTF16s : List UInt32 → Nat → Option Nat → Conversion UInt16 :=
  convert (oneUnit utf32toUTF16)

end Rpcsx.Ps3.CellL10n
