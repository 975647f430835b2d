import Rpcsx.Lib.Digits

/-!
# TAR headers

The headers that `tar_object::save_directory` writes and `tar_object::get_file` reads: 512 bytes with
the path in two pieces, the size and the times as octal text, and the kind of the entry. The numbers
are written digit by digit through a pointer and without a look at the width of their field: the
digits of a large modification time run into the fields behind it, which are written later or not
read, and those of a large access time, the last field, leave the header.
-/

namespace Rpcsx.Tar

open Lib List Option

structure TARHeader where
  bytes : Bytes
  length_bytes : bytes.length = 512

namespace TARHeader

def zero : TARHeader := ⟨replicate 512 0, length_replicate⟩

/-- Write bytes at a position. A write behind the end goes to memory of others, and nothing is
known of what happens then. -/
def poke (h : TARHeader) (pos : Nat) (src : Bytes) : Option TARHeader :=
  if hle : pos + src.length ≤ 512 then
    some ⟨overwrite h.bytes pos src, by rw [length_overwrite] <;> rw [h.length_bytes]; exact hle⟩
  else none

def name (h : TARHeader) : Bytes := slice h.bytes 0 100

def size (h : TARHeader) : Bytes := slice h.bytes 124 12

def filetype (h : TARHeader) : Bytes := slice h.bytes 156 1

def magic (h : TARHeader) : Bytes := slice h.bytes 257 6

def pathPrefix (h : TARHeader) : Bytes := slice h.bytes 345 155

end TARHeader

/-! ## Writing -/

def alignedDiv (value align : Nat) : Nat := value / align + if value % align ≠ 0 then 1 else 0

def octalLoop (h : TARHeader) (ptr i : Nat) : Option TARHeader :=
  if _ : i = 0 then some h
  else (h.poke ptr [digitByte (i % 8)]).bind fun h => octalLoop h (ptr - 1) (i / 8)
termination_by i

def writeOctal (h : TARHeader) (ptr i : Nat) : Option TARHeader :=
  if i = 0 then h.poke ptr [digitByte 0]
  else octalLoop h (ptr + alignedDiv (Nat.log2 i + 1) 3 - 1) i

/-- `fs::stat_t`; the times are signed there and are converted to unsigned numbers of 64 bits. -/
structure Stat where
  isDirectory : Bool
  size : Nat
  mtime : Nat
  atime : Nat
  deriving DecidableEq

def Stat.filetype (stat : Stat) : UInt8 := if stat.isDirectory then 53 else 48

/-- The header of `save_header` for the path that is saved. -/
def makeHeader (stat : Stat) (savedPath : Bytes) : Option TARHeader := do
  let h ← TARHeader.zero.poke 257 (ascii "ustar ")
  let prefixSize := max 100 (min savedPath.length 255) - 100
  let h ← h.poke 345 (savedPath.take prefixSize)
  let nameSize := min savedPath.length 255 - prefixSize
  let h ← h.poke 0 ((savedPath.drop prefixSize).take nameSize)
  let h ← writeOctal h 124 (if stat.isDirectory then 0 else stat.size)
  let h ← writeOctal h 136 stat.mtime
  let h ← writeOctal h 500 stat.atime
  h.poke 156 [stat.filetype]

/-! ## Reading -/

/-- `octal_text_to_u64`; `none` is the number `umax`. The digits must be followed by a zero byte or
a blank. -/
def octalTextToU64 (sv : Bytes) : Option Nat :=
  let digits := sv.takeWhile (isDigit 8)
  let i :=
    if digits = [] ∨ 0xffffffffffffffff ≤ ofDigitText 8 digits then none
    else some (ofDigitText 8 digits)
  match sv.drop digits.length with
  | [] => none
  | c :: _ => if c = 0 ∨ c = 32 then i else none

def TARHeader.filename (h : TARHeader) : Bytes := cString h.pathPrefix ++ cString h.name

/-! ## What was written -/

section

variable {h h' : TARHeader} {pos : Nat} {src : Bytes} {stat : Stat} {path : Bytes}

theorem TARHeader.slice_of_disjoint (hp : h.poke pos src = some h') {at' n : Nat}
    (hd : at' + n ≤ pos ∨ pos + src.length ≤ at') : slice h'.bytes at' n = slice h.bytes at' n := by
  rw [TARHeader.poke, dite_none_right_eq_some] at hp
  obtain ⟨hle, hp⟩ := hp
  cases hp
  exact slice_overwrite_of_disjoint (by rwa [h.length_bytes]) hd

theorem TARHeader.slice_self (hp : h.poke pos src = some h') {n : Nat} (hn : src.length ≤ n) :
    slice h'.bytes pos n = src ++ slice h.bytes (pos + src.length) (n - src.length) := by
  rw [TARHeader.poke, dite_none_right_eq_some] at hp
  obtain ⟨hle, hp⟩ := hp
  cases hp
  exact slice_overwrite_self (by rwa [h.length_bytes]) hn

theorem TARHeader.poke_nil (h : TARHeader) (hpos : pos ≤ 512) : h.poke pos [] = some h := by
  rw [TARHeader.poke, dif_pos (show pos + ([] : Bytes).length ≤ 512 from hpos)]
  congr 2
  rw [overwrite, append_nil]
  exact take_append_drop _ _

theorem TARHeader.poke_append (h : TARHeader) (pos : Nat) (a b : Bytes) :
    (h.poke (pos + a.length) b).bind (fun h => h.poke pos a) = h.poke pos (a ++ b) := by
  by_cases hle : pos + (a ++ b).length ≤ 512
  · have hle' := hle
    rw [length_append] at hle'
    have hover : overwrite (overwrite h.bytes (pos + a.length) b) pos a =
        overwrite h.bytes pos (a ++ b) := overwrite_overwrite (by rwa [h.length_bytes])
    simp only [TARHeader.poke, dif_pos hle, dif_pos (show pos + a.length + b.length ≤ 512 by omega),
      bind_some, dif_pos (show pos + a.length ≤ 512 by omega), hover]
  rw [TARHeader.poke, TARHeader.poke, dif_neg hle, dif_neg, bind_none]
  rw [length_append] at hle
  omega

def octalText (i : Nat) : Bytes := if i = 0 then [digitByte 0] else digitText 8 i

theorem octalLoop_eq (h : TARHeader) (pos i : Nat) (hpos : pos ≤ 512) :
    octalLoop h (pos + (digitText 8 i).length - 1) i = h.poke pos (digitText 8 i) := by
  induction i using Nat.strong_induction_on generalizing h with
  | h i ih =>
    rw [octalLoop]
    split
    case isTrue hi => rw [hi, digitText_zero, TARHeader.poke_nil h hpos]
    case isFalse hi =>
      have htext := digitText_eq_append (b := 8) (by decide) hi
      have hlen : pos + (digitText 8 i).length - 1 = pos + (digitText 8 (i / 8)).length := by
        rw [htext, length_append, length_singleton]
        omega
      rw [hlen, htext, ← TARHeader.poke_append]
      congr 1
      funext h'
      exact ih _ (Nat.div_lt_self (by omega) (by decide)) h'

theorem writeOctal_eq (h : TARHeader) (i : Nat) (hpos : pos ≤ 512) : writeOctal h pos i = h.poke pos (octalText i) := by
  rw [writeOctal, octalText]
  split
  case isTrue => rfl
  case isFalse hi =>
    have hdiv : alignedDiv (Nat.log2 i + 1) 3 = (digitText 8 i).length := by
      rw [length_octal hi, alignedDiv]
      split <;> omega
    rw [hdiv, octalLoop_eq h pos i hpos]

theorem length_octalText_le {k i : Nat} (hk : 0 < k) (h : i < 8 ^ k) : (octalText i).length ≤ k := by
  rw [octalText]
  split
  · exact hk
  · exact (length_digitText_le_iff (by decide)).mpr h

/-- The text is read back. -/
theorem octalTextToU64_octalText {i : Nat} (h : i < 8 ^ 11) (rest : Bytes) :
    octalTextToU64 (octalText i ++ 0 :: rest) = some i := by
  obtain ⟨hne, htake, hval⟩ : octalText i ≠ [] ∧ (octalText i ++ 0 :: rest).takeWhile (isDigit 8) = octalText i ∧
      ofDigitText 8 (octalText i) = i := by
    rw [octalText]
    split
    case isTrue hi =>
      subst hi
      exact ⟨cons_ne_nil _ _, rfl, rfl⟩
    case isFalse hi =>
      exact ⟨digitText_ne_nil hi, takeWhile_digitText (by decide) (by decide) rfl i rest,
        ofDigitText_digitText (by decide) (by decide) i⟩
  have hlt : ¬ (octalText i = [] ∨ 0xffffffffffffffff ≤ i) := by
    rw [not_or]
    exact ⟨hne, by omega⟩
  rw [octalTextToU64, htake, hval, if_neg hlt, drop_left]
  rfl

theorem TARHeader.slice_zero (pos n : Nat) (hle : pos + n ≤ 512) :
    slice TARHeader.zero.bytes pos n = replicate n 0 := by
  rw [TARHeader.zero, slice, drop_replicate, take_replicate, Nat.min_eq_left (by omega)]

open TARHeader

theorem TARHeader.exists_poke (h : TARHeader) (pos : Nat) (src : Bytes) (hle : pos + src.length ≤ 512) :
    ∃ h', h.poke pos src = some h' := by
  rw [TARHeader.poke, dif_pos hle]
  exact ⟨_, rfl⟩

/-- A field that holds some text and zeros. -/
theorem cString_pad {text : Bytes} (hnul : 0 ∉ text) (n : Nat) : cString (text ++ replicate n 0) = text := by
  cases n with
  | zero =>
    have hlen := length_cString_eq_iff.mpr hnul
    rw [replicate_zero, append_nil]
    exact (List.takeWhile_prefix _).eq_of_length hlen
  | succ n => exact cString_append_zero hnul _

/-- What a reader finds in a header. -/
structure TARHeader.Spells (h : TARHeader) (path : Bytes) (size : Nat) (filetype : UInt8) : Prop where
  magic : h.magic = ascii "ustar "
  filename : h.filename = path
  size : octalTextToU64 h.size = some size
  filetype : h.filetype = [filetype]

def Stat.savedSize (stat : Stat) : Nat := if stat.isDirectory then 0 else stat.size

/-- The writes that make a header, for a path that fits. -/
theorem makeHeader_eq (stat : Stat) (hpath : path.length ≤ 255) : makeHeader stat path =
      (TARHeader.zero.poke 257 (ascii "ustar ")).bind fun h =>
      (h.poke 345 (path.take (path.length - 100))).bind fun h =>
      (h.poke 0 (path.drop (path.length - 100))).bind fun h =>
      (h.poke 124 (octalText stat.savedSize)).bind fun h =>
      (h.poke 136 (octalText stat.mtime)).bind fun h =>
      (h.poke 500 (octalText stat.atime)).bind fun h => h.poke 156 [stat.filetype] := by
  have hmax : max 100 (min path.length 255) - 100 = path.length - 100 := by omega
  have hmin : min path.length 255 - (path.length - 100) = path.length - (path.length - 100) := by omega
  have hname : (path.drop (path.length - 100)).take (path.length - (path.length - 100)) =
      path.drop (path.length - 100) := by
    rw [take_of_length_le]
    rw [length_drop]
  simp only [makeHeader, hmax, hmin, hname, writeOctal_eq _ _ (show 124 ≤ 512 by decide),
    writeOctal_eq _ _ (show 136 ≤ 512 by decide), writeOctal_eq _ _ (show 500 ≤ 512 by decide)]
  rfl

/-- A header is read back, whatever the modification time. -/
theorem makeHeader_spells (hpath : path.length ≤ 255) (hnul : 0 ∉ path)
    (hsize : stat.savedSize < 8 ^ 11) (hmtime : stat.mtime < 2 ^ 64) (hatime : stat.atime < 8 ^ 12) :
    ∃ h, makeHeader stat path = some h ∧ h.Spells path stat.savedSize stat.filetype := by
  have hslen := length_octalText_le (by decide) hsize
  have hmlen : (octalText stat.mtime).length ≤ 22 := length_octalText_le (by decide) (hmtime.trans (by decide))
  have halen := length_octalText_le (by decide) hatime
  have hplen : (path.take (path.length - 100)).length ≤ 155 := by
    rw [length_take]
    omega
  have hnlen : (path.drop (path.length - 100)).length ≤ 100 := by
    rw [length_drop]
    omega
  have hmagic : (ascii "ustar ").length = 6 := rfl
  have htype : [stat.filetype].length = 1 := rfl
  have hsplit := take_append_drop (path.length - 100) path
  have hpnul : 0 ∉ path.take (path.length - 100) := fun h0 => hnul (mem_of_mem_take h0)
  have hnnul : 0 ∉ path.drop (path.length - 100) := fun h0 => hnul (mem_of_mem_drop h0)
  rw [makeHeader_eq stat hpath]
  generalize path.take (path.length - 100) = front at *
  generalize path.drop (path.length - 100) = back at *
  obtain ⟨h1, e1⟩ := TARHeader.zero.exists_poke 257 (ascii "ustar ") (by decide)
  obtain ⟨h2, e2⟩ := h1.exists_poke 345 front (by omega)
  obtain ⟨h3, e3⟩ := h2.exists_poke 0 back (by omega)
  obtain ⟨h4, e4⟩ := h3.exists_poke 124 (octalText stat.savedSize) (by omega)
  obtain ⟨h5, e5⟩ := h4.exists_poke 136 (octalText stat.mtime) (by omega)
  obtain ⟨h6, e6⟩ := h5.exists_poke 500 (octalText stat.atime) (by omega)
  obtain ⟨h7, e7⟩ := h6.exists_poke 156 [stat.filetype] (by omega)
  -- what is not written again, field by field
  have hlast : ∀ {pos n}, pos + n ≤ 136 ∨ 158 ≤ pos ∧ pos + n ≤ 500 → slice h7.bytes pos n = slice h4.bytes pos n := by
    intro pos n hpos
    rw [slice_of_disjoint e7 (by omega), slice_of_disjoint e6 (by omega),
      slice_of_disjoint e5 (by omega)]
  refine ⟨h7, ?_, ?_, ?_, ?_, ?_⟩
  · rw [e1, bind_some, e2, bind_some, e3, bind_some, e4, bind_some, e5, bind_some, e6, bind_some, e7]
  · rw [TARHeader.magic, hlast (by omega), slice_of_disjoint e4 (by omega),
      slice_of_disjoint e3 (by omega), slice_of_disjoint e2 (by omega),
      slice_self e1 (by omega)]
    rfl
  · have hfront : h7.pathPrefix = front ++ replicate (155 - front.length) 0 := by
      rw [TARHeader.pathPrefix, hlast (by omega), slice_of_disjoint e4 (by omega),
        slice_of_disjoint e3 (by omega), slice_self e2 hplen,
        slice_of_disjoint e1 (by omega), slice_zero _ _ (by omega)]
    have hname : h7.name = back ++ replicate (100 - back.length) 0 := by
      rw [TARHeader.name, hlast (by omega), slice_of_disjoint e4 (by omega),
        slice_self e3 hnlen, slice_of_disjoint e2 (by omega),
        slice_of_disjoint e1 (by omega), slice_zero _ _ (by omega)]
    rw [TARHeader.filename, hfront, hname, cString_pad hpnul, cString_pad hnnul, hsplit]
  · have hfield : h7.size = octalText stat.savedSize ++ replicate (12 - (octalText stat.savedSize).length) 0 := by
      rw [TARHeader.size, hlast (by omega), slice_self e4 (by omega),
        slice_of_disjoint e3 (by omega), slice_of_disjoint e2 (by omega),
        slice_of_disjoint e1 (by omega), slice_zero _ _ (by omega)]
    obtain ⟨k, hk⟩ : ∃ k, 12 - (octalText stat.savedSize).length = k + 1 :=
      ⟨11 - (octalText stat.savedSize).length, by omega⟩
    rw [hfield, hk, replicate_succ]
    exact octalTextToU64_octalText hsize _
  rw [TARHeader.filetype, slice_self e7 (by omega)]
  rfl

/-- A late access time is written over the end of the header. -/
theorem makeHeader_eq_none (hpath : path.length ≤ 255) (hatime : 8 ^ 12 ≤ stat.atime) :
    makeHeader stat path = none := by
  have hlen : ¬ 500 + (octalText stat.atime).length ≤ 512 := by
    have hne : stat.atime ≠ 0 := by omega
    have hiff : (digitText 8 stat.atime).length ≤ 12 ↔ stat.atime < 8 ^ 12 := length_digitText_le_iff (by decide)
    rw [octalText, if_neg hne]
    omega
  have hnone : ∀ h : TARHeader, h.poke 500 (octalText stat.atime) = none := fun h => by
    rw [TARHeader.poke, dif_neg hlen]
  rw [makeHeader_eq stat hpath]
  simp only [hnone, bind_none, bind_fun_none]

end

end Rpcsx.Tar
