import Rpcsx.Crypto.EdatHostile

/-!
# Reads of EDAT files

A file holds a text if its blocks, where the layout has them, decode to the pieces of the text. `ReadData` then gives the
part of the text that was asked for, if no block is longer than the buffer, no compressed block is stored as it is, and the
blocks are counted and located in the 32 bits that the code has for it.
-/

namespace Rpcsx.Crypto

open Lib List Option Nat

namespace EdatHeader

section

variable (h : EdatHeader) (c : EdatCodec) (file text : List UInt8)

def totalBlocks : Nat := alignedDiv h.file_size h.blockSize

def plainLength (i : Nat) : Nat := min h.blockSize (h.file_size - i * h.blockSize)

def blockAt (i : Nat) : EdatBlock :=
  if h.compressed then h.block file h.totalBlocks i
  else if h.flag0x20 then
    let metadata := readZeroed file (0x100 + i * (0x20 + h.blockSize)) 0x20
    { offset := 0x100 + i * (0x20 + h.blockSize) + 0x20
      length := h.plainLength i
      compression_end := 0
      hash := zipWith (· ^^^ ·) (metadata.take 0x10) (metadata.drop 0x10) ++ slice metadata 0x10 4 }
  else
    { offset := 0x100 + i * h.blockSize + h.totalBlocks * 0x10
      length := h.plainLength i
      compression_end := 0
      hash := readZeroed file (0x100 + i * 0x10) 0x10 ++ replicate 4 0 }

/-- Every block, with any padding where the file ends, is authentic and decodes to its piece of the text; what is reported
of it is another matter. -/
structure Holds : Prop where
  length_eq : text.length = h.file_size
  decode_eq : ∀ i < h.totalBlocks, ∃ res, ∀ enc, (h.blockAt file i).Loads file enc →
    h.decode c i (h.blockAt file i) enc = some (some (slice text (i * h.blockSize) h.blockSize, res))

/-- Every read gives the bytes of the text that are asked for, and their number. -/
def Reads : Prop :=
  ∃ total_blocks, narrow h.totalBlocks = some total_blocks ∧ ∀ pos size,
    h.readData c file total_blocks pos size = some (slice text pos size, (slice text pos size).length)

/-- The blocks can be counted, and there can be a buffer for one. -/
def Opens : Prop := h.file_size = 0 ∨ h.totalBlocks < 2 ^ 32 ∧ h.block_size + 16 < 2 ^ 31

/-- No block is longer than the buffer, or said to lie where no file can be read. -/
def Fits : Prop := ∀ i < h.totalBlocks, alignUp (h.blockAt file i).length ≤ h.blockSize + 16 ∧
  (h.compressed = true → (h.blockAt file i).offset + alignUp (h.blockAt file i).length < 2 ^ 63)

/-- No block that goes through `decompress` is stored as it is. -/
def Coded : Prop := ∀ i < h.totalBlocks, (h.blockAt file i).compression_end ≠ 0 →
  ∀ enc, (h.blockAt file i).Loads file enc → ∀ dec, h.decrypted c i (h.blockAt file i) enc = some dec → isRaw dec = false

def Located : Prop :=
  h.compressed = true ∨ if h.flag0x20 then h.block_size + 0x20 < 2 ^ 31 ∨ h.totalBlocks ≤ 1 else h.totalBlocks < 2 ^ 28

/-- The code looks for every block where the layout has it. -/
def Finds : Prop := ∀ i < h.totalBlocks, (h.block file h.totalBlocks i).offset = (h.blockAt file i).offset

structure Readable : Prop extends Holds h c file text where
  pos : 0 < h.block_size
  total_lt : h.totalBlocks < 2 ^ 32
  located : h.Located
  fits : h.Fits file
  coded : h.Coded c file

end

variable {h : EdatHeader} {c : EdatCodec} {file text : List UInt8} {i : Nat}

theorem blockSize_eq (hpos : 0 < h.block_size) :
    (h.blockSize : Int) = h.block_size ∧ 0 < h.blockSize ∧ h.blockSize < 2 ^ 31 := by
  have := h.block_size_range
  unfold blockSize u64
  omega

theorem lt_totalBlocks (hpos : 0 < h.blockSize) : i < h.totalBlocks ↔ i * h.blockSize < h.file_size := lt_alignedDiv hpos

theorem u64_lt (n : Int) : u64 n < 2 ^ 64 := by
  unfold u64
  omega

theorem u64_s32 {n : Nat} (hn : n < 2 ^ 31) : u64 (s32 n) = n := by
  unfold u64 s32
  omega

theorem alignedDiv_eq {value align : Nat} (halign : 0 < align) (hvalue : 0 < value) :
    alignedDiv value align = (value - 1) / align + 1 := by
  refine eq_of_forall_lt_iff fun i => ?_
  rw [lt_alignedDiv halign, Nat.lt_succ_iff, le_div_iff_mul_le halign]
  omega

/-- The length of a piece as `decrypt_block` and `ReadData` compute it. -/
theorem plainLength_eq (hpos : 0 < h.block_size) (hi : i < h.totalBlocks) (htotal : h.totalBlocks < 2 ^ 32) :
    h.dataLength h.totalBlocks i = h.plainLength i ∧
      (if i ≠ (h.totalBlocks + 2 ^ 32 - 1) % 2 ^ 32 then h.blockSize else (h.file_size - 1) % h.blockSize + 1) =
        h.plainLength i := by
  obtain ⟨hsize, hpos', hsmall⟩ := blockSize_eq hpos
  have hlast : (h.totalBlocks + 2 ^ 32 - 1) % 2 ^ 32 = h.totalBlocks - 1 := by omega
  have hlt := (lt_totalBlocks hpos').mp hi
  unfold dataLength plainLength
  rw [hlast]
  rw [Nat.mul_comm] at hlt ⊢
  by_cases hend : i = h.totalBlocks - 1
  · have hle := not_lt.mp (mt (lt_totalBlocks hpos').mpr (show ¬ i + 1 < h.totalBlocks by omega))
    rw [succ_mul, Nat.mul_comm] at hle
    obtain ⟨r, hr⟩ := Nat.exists_eq_add_of_lt hlt
    have hrem : (h.file_size - 1) % h.blockSize = r := by
      rw [hr, Nat.add_sub_cancel, mul_add_mod, mod_eq_of_lt (by omega)]
    have hrem' : h.file_size % h.blockSize = (r + 1) % h.blockSize := by rw [hr, Nat.add_assoc, mul_add_mod]
    rw [if_neg (not_not.mpr hend), hrem, hrem', show min h.blockSize (h.file_size - h.blockSize * i) = r + 1 by omega]
    refine ⟨?_, rfl⟩
    by_cases hfull : r + 1 = h.blockSize
    · rw [hfull, mod_self, if_neg fun hcon => hcon.2 rfl]
    rw [mod_eq_of_lt (show r + 1 < h.blockSize by omega)] at hrem' ⊢
    rw [if_pos ⟨hend, succ_ne_zero r⟩, ← Int.natCast_emod, hrem', u64_s32 (by omega)]
  have hnext : (i + 1) * h.blockSize < h.file_size := (lt_totalBlocks hpos').mp (by omega)
  rw [succ_mul, Nat.mul_comm] at hnext
  rw [if_neg fun hcon => hend hcon.1, if_pos hend]
  omega

/-! ## The places of the blocks -/

theorem Located.block_eq (hlocated : h.Located) (hpos : 0 < h.block_size) (hi : i < h.totalBlocks)
    (htotal : h.totalBlocks < 2 ^ 32) : h.block file h.totalBlocks i = h.blockAt file i := by
  obtain ⟨hsize, -, hsmall⟩ := blockSize_eq hpos
  have hbound := Nat.mul_lt_mul'' (hi.trans htotal) hsmall
  unfold blockAt
  split
  · rfl
  next hcomp =>
  replace hlocated := hlocated.resolve_left hcomp
  rw [block, if_neg hcomp, (plainLength_eq hpos hi htotal).1]
  split
  · next hflag =>
    rw [if_pos hflag] at hlocated
    have hmul : i * u64 (s32 (0x20 + h.block_size)) = i * (0x20 + h.blockSize) := by
      rcases hlocated with hsmall | hone
      · rw [show u64 (s32 (0x20 + h.block_size)) = 0x20 + h.blockSize by unfold u64 s32; omega]
      · rw [show i = 0 by omega, Nat.zero_mul, Nat.zero_mul]
    dsimp only
    rw [hmul, Nat.mul_add, mod_eq_of_lt (show 0x100 + (i * 0x20 + i * h.blockSize) < 2 ^ 64 by omega)]
  · next hflag =>
    rw [if_neg hflag] at hlocated
    rw [mod_eq_of_lt (show h.totalBlocks * 0x10 < 2 ^ 32 by omega), mod_eq_of_lt (by omega)]

theorem Finds.located (hfinds : h.Finds file) (hpos : 0 < h.block_size) (hopens : h.Opens) : h.Located := by
  obtain ⟨hsize, hpos', hsmall⟩ := blockSize_eq hpos
  by_contra hnot
  obtain ⟨hcomp, hnot⟩ := not_or.mp hnot
  have hzero : 0 < h.totalBlocks := by split at hnot <;> omega
  have hroom := (hopens.resolve_left (by have := (lt_totalBlocks hpos').mp hzero; omega)).2
  by_cases hflag : h.flag0x20 = true
  · rw [if_pos hflag] at hnot
    have hone := hfinds 1 (by omega)
    rw [block, blockAt, if_neg hcomp, if_neg hcomp, if_pos hflag, if_pos hflag] at hone
    unfold u64 s32 at hone
    dsimp only at hone
    omega
  rw [if_neg hflag] at hnot
  have hfirst := hfinds 0 hzero
  rw [block, blockAt, if_neg hcomp, if_neg hcomp, if_neg hflag, if_neg hflag] at hfirst
  dsimp only at hfirst
  omega

/-! ## Reading a text -/

namespace Readable

/-- Every block lies where a file can be read. -/
theorem offset_lt (hr : h.Readable c file text) (hi : i < h.totalBlocks) :
    (h.blockAt file i).offset + alignUp (h.blockAt file i).length < 2 ^ 63 := by
  obtain ⟨hsize, hpos, hsmall⟩ := blockSize_eq hr.pos
  have hroom := hr.fits i hi
  have htotal := hr.total_lt
  by_cases hcomp : h.compressed = true
  · exact hroom.2 hcomp
  have hlocated := hr.located.resolve_left hcomp
  refine lt_of_le_of_lt (Nat.add_le_add_left hroom.1 _) ?_
  unfold blockAt
  rw [if_neg hcomp]
  by_cases hflag : h.flag0x20 = true
  · rw [if_pos hflag] at hlocated ⊢
    rcases hlocated with hwide | hone
    · have := Nat.mul_le_mul (show i ≤ 2 ^ 32 - 1 by omega) (show 0x20 + h.blockSize ≤ 2 ^ 31 - 1 by omega)
      dsimp only
      omega
    · rw [show i = 0 by omega]
      dsimp only
      omega
  · rw [if_neg hflag] at hlocated ⊢
    have := Nat.mul_lt_mul'' (show i < 2 ^ 28 by omega) hsmall
    dsimp only
    omega

theorem decryptBlock_eq (hr : h.Readable c file text) (hi : i < h.totalBlocks) {out : List UInt8}
    (hout : out.length = h.blockSize + 16) :
    ∃ buf, h.decryptBlock c file h.totalBlocks i out = some (buf, h.plainLength i) ∧ buf.length = out.length ∧
      buf.take (h.plainLength i) = slice text (i * h.blockSize) h.blockSize := by
  obtain ⟨hsize, hpos, hsmall⟩ := blockSize_eq hr.pos
  have hlt := (lt_totalBlocks hpos).mp hi
  have hroom := (hr.fits i hi).1
  have hoffset := hr.offset_lt hi
  have hcoded := hr.coded i hi
  obtain ⟨res, hdecode⟩ := hr.decode_eq i hi
  have hlength : (slice text (i * h.blockSize) h.blockSize).length = h.plainLength i := by
    rw [length_slice, hr.length_eq, plainLength]
  have hplain : h.plainLength i ≤ h.blockSize ∧ 0 < h.plainLength i := by
    unfold plainLength
    omega
  have hbound : (h.blockAt file i).length < 2 ^ 64 := by
    unfold blockAt
    split
    · next hcomp =>
      rw [block, if_pos hcomp]
      dsimp only
      exact u64_lt _
    split <;> exact lt_of_le_of_lt hplain.1 (by omega)
  unfold decryptBlock
  rw [hr.located.block_eq hr.pos hi hr.total_lt]
  generalize h.blockAt file i = b at *
  dsimp only
  have hread := length_read file out b (by omega)
  have hloads := loads_overwrite file out (show alignUp b.length ≤ out.length by omega)
  have hdata := hdecode _ hloads
  obtain ⟨dec, hdec, hreport⟩ := decode_eq_some hdata
  rw [hlength, hloads.1] at hreport
  have hres : res = h.plainLength i := by
    split at hreport
    · next hcomp => rw [hreport.2, if_neg (by rw [hcoded hcomp _ hloads dec hdec]; exact Bool.false_ne_true)]
    · unfold alignUp at *
      omega
  rw [if_neg (by omega), hdata, bind_some]
  dsimp only
  rw [hres, hlength, hread, if_neg]
  · refine ⟨_, rfl, (length_overwrite (by omega)).trans hread, ?_⟩
    rw [overwrite, take_zero, nil_append, ← hlength, take_left]
  rintro (hlong | ⟨hcomp, -, hlong⟩)
  · omega
  rw [if_neg (not_not.mpr hcomp)] at hreport
  omega

/-- The loop of `ReadData` from block `i` on, which begins at `x`. -/
theorem readLoop_eq (hr : h.Readable c file text) {pos size last x : Nat} (hsize : 0 < size)
    (hend : pos + size ≤ h.file_size) (hlast : (pos + size - 1) / h.blockSize + 1 = last) (n : Nat) {buf data : List UInt8}
    (hn : i + n = last) (hx : i * h.blockSize = x) (hfirst : pos / h.blockSize ≤ i)
    (hbuf : buf.length = h.blockSize + 16) :
    h.readLoop c file h.totalBlocks (pos / h.blockSize) last (pos % h.blockSize) size n i buf data =
      let read := data ++ slice text (max pos x) (pos + size - max pos x)
      some (read, read.length) := by
  obtain ⟨-, hpos, hsmall⟩ := blockSize_eq hr.pos
  induction n generalizing i x buf data with
  | zero =>
    have hle : pos + size - 1 < i * h.blockSize := (div_lt_iff_lt_mul hpos).mp (by omega)
    rw [Nat.sub_eq_zero_of_le (show pos + size ≤ max pos x by omega), slice, take_zero, append_nil]
    rfl
  | succ n ih =>
    have hle := (le_div_iff_mul_le hpos).mp (show i ≤ (pos + size - 1) / h.blockSize by omega)
    have hlt : pos < (i + 1) * h.blockSize := (div_lt_iff_lt_mul hpos).mp (by omega)
    have hi := (lt_totalBlocks hpos).mpr (show i * h.blockSize < h.file_size by omega)
    have hnext : (i + 1) * h.blockSize = x + h.blockSize := by rw [succ_mul, hx]
    have hplain : h.plainLength i = min h.blockSize (h.file_size - x) := by rw [plainLength, hx]
    obtain ⟨buf', heq, hlength, htake⟩ := hr.decryptBlock_eq hi hbuf
    have hskip : (if i = pos / h.blockSize then pos % h.blockSize else 0) = pos - x := by
      split
      · next hfirst => rw [← hx, hfirst, mod_eq_sub_div_mul]
      · next hne =>
        have : pos < i * h.blockSize := (div_lt_iff_lt_mul hpos).mp (by omega)
        omega
    have hread_end : min (h.plainLength i) (if i = last - 1 then
        min (h.plainLength i) ((pos % h.blockSize + size - 1) % h.blockSize + 1) else h.plainLength i) =
          min (h.plainLength i) (pos + size - x) := by
      split
      · next hi =>
        have hdiv : (pos + size - 1) / h.blockSize = i := by omega
        rw [Nat.add_sub_assoc hsize, mod_add_mod, ← Nat.add_sub_assoc hsize, mod_eq_sub_div_mul, hdiv, hx]
        omega
      · next hne =>
        have := (le_div_iff_mul_le hpos).mp (show i + 1 ≤ (pos + size - 1) / h.blockSize by omega)
        omega
    rw [readLoop, heq]
    dsimp only [bind_eq_bind, bind_some]
    rw [if_neg (by omega), hskip, if_neg (by omega), (plainLength_eq hr.pos hi hr.total_lt).2, hread_end,
      if_neg (by omega), ih (by omega) hnext (by omega)
        (by rw [length_overwrite (by rw [length_replicate]; omega)]; omega)]
    have hpiece : slice buf' (pos - x) (min (h.plainLength i) (pos + size - x) - (pos - x)) =
        slice text (max pos x) (min (x + h.blockSize) (pos + size) - max pos x) := by
      rw [← slice_take (show _ ≤ h.plainLength i by omega), htake, slice_slice, hx]
      congr 1 <;> omega
    have hjoin : slice text (max pos x) (min (x + h.blockSize) (pos + size) - max pos x) ++
        slice text (max pos (x + h.blockSize)) (pos + size - max pos (x + h.blockSize)) =
          slice text (max pos x) (pos + size - max pos x) := by
      by_cases hcase : pos + size ≤ x + h.blockSize
      · rw [Nat.sub_eq_zero_of_le (show pos + size ≤ max pos (x + h.blockSize) by omega), min_eq_right hcase, slice,
          slice, take_zero, append_nil]
      rw [show max pos (x + h.blockSize) = max pos x + (min (x + h.blockSize) (pos + size) - max pos x) by omega,
        slice_append_slice]
      congr 1
      omega
    rw [hpiece, append_assoc, hjoin]

end Readable

theorem Holds.reads (hholds : h.Holds c file text) (hpos : 0 < h.block_size) (hopens : h.Opens) (hlocated : h.Located)
    (hfits : h.Fits file) (hcoded : h.Coded c file) : h.Reads c file text := by
  obtain ⟨hsize, hpos', -⟩ := blockSize_eq hpos
  have hlength := hholds.length_eq
  have htotal : h.totalBlocks < 2 ^ 32 := by
    rcases hopens with hzero | ⟨htotal, -⟩
    · rw [totalBlocks, hzero, alignedDiv, Nat.zero_div, zero_mod]
      decide
    exact htotal
  refine ⟨_, narrow_eq_some.mpr ⟨htotal, rfl⟩, fun pos size => ?_⟩
  by_cases hempty : h.file_size ≤ pos ∨ size = 0
  · have hnil : slice text pos size = [] := by
      rw [← length_eq_zero_iff, length_slice]
      omega
    rw [readData_nil hempty, hnil]
    rfl
  rw [not_or, not_le] at hempty
  have hroom := (hopens.resolve_left (by omega)).2
  have hbuf : s32 (h.block_size + 16) = h.block_size + 16 := by
    unfold s32
    omega
  have hlt : ∀ {n}, n < h.file_size → n / h.blockSize < h.totalBlocks := fun hn =>
    (lt_totalBlocks hpos').mpr (lt_of_le_of_lt (div_mul_le_self _ _) hn)
  have hcut : slice text pos size = slice text pos (min size (h.file_size - pos)) := by
    rw [slice, slice, take_eq_take_iff, length_drop]
    omega
  rw [readData_eq hempty.1 hempty.2 hpos'.ne' ((hlt hempty.1).trans htotal) htotal (by omega), hcut]
  generalize hn : min size (h.file_size - pos) = n
  have hending : min (pos / h.blockSize + alignedDiv (pos % h.blockSize + n) h.blockSize) h.totalBlocks =
      (pos + n - 1) / h.blockSize + 1 := by
    have := div_add_mod' pos h.blockSize
    rw [alignedDiv_eq hpos' (by omega), ← Nat.add_assoc, Nat.add_comm (pos / _), ← add_mul_div_right _ _ hpos',
      show pos % h.blockSize + n - 1 + pos / h.blockSize * h.blockSize = pos + n - 1 by omega]
    exact min_eq_left (hlt (by omega))
  have hle := Nat.div_le_div_right (c := h.blockSize) (show pos ≤ pos + n - 1 by omega)
  dsimp only
  rw [hending, Readable.readLoop_eq ⟨hholds, hpos, htotal, hlocated, hfits, hcoded⟩ (by omega) (by omega) rfl _
    (by omega) rfl le_rfl (by rw [length_replicate]; omega), Nat.max_eq_left (div_mul_le_self _ _),
    Nat.add_sub_cancel_left, nil_append]

/-! ## What a read needs -/

theorem Reads.opens (hreads : h.Reads c file text) : h.Opens := by
  have hrange := h.block_size_range
  obtain ⟨_, hnarrow, hread⟩ := hreads
  obtain ⟨htotal, rfl⟩ := narrow_eq_some.mp hnarrow
  refine or_iff_not_imp_left.mpr fun hsize => ⟨htotal, ?_⟩
  have hbuf := (of_readData_isSome (Nat.pos_of_ne_zero hsize) (isSome_of_eq_some (hread 0 1))).2.2
  unfold s32 at hbuf
  omega

/-- The read of the first byte of a block. -/
theorem Reads.first (hreads : h.Reads c file text) (hholds : h.Holds c file text) (hpos : 0 < h.block_size)
    (hi : i < h.totalBlocks) : ∃ buf res,
      h.decryptBlock c file h.totalBlocks i (replicate (h.blockSize + 16) 0) = some (buf, res) ∧ res ≠ 0 := by
  obtain ⟨hsize, hpos', -⟩ := blockSize_eq hpos
  have hlt := (lt_totalBlocks hpos').mp hi
  have hroom := (hreads.opens.resolve_left (by omega)).2
  obtain ⟨_, hnarrow, hread⟩ := hreads
  obtain ⟨htotal, rfl⟩ := narrow_eq_some.mp hnarrow
  have hbuf : s32 (h.block_size + 16) = (h.blockSize + 16 : Nat) := by
    unfold s32
    omega
  have hone := hread (i * h.blockSize) 1
  rw [readData_one hi hlt hpos'.ne' (by omega) htotal, readLoop, hbuf, Int.toNat_natCast] at hone
  obtain ⟨⟨buf, res⟩, heq, hres⟩ := bind_eq_some_iff.mp hone
  refine ⟨buf, res, heq, ?_⟩
  rintro rfl
  dsimp only at hres
  rw [if_neg (by decide), ite_self, if_pos le_rfl] at hres
  have hempty := (Prod.mk.inj (some.inj hres)).2
  rw [length_slice, hholds.length_eq, length_nil] at hempty
  omega

theorem Reads.fits (hreads : h.Reads c file text) (hholds : h.Holds c file text) (hpos : 0 < h.block_size) :
    h.Fits file := by
  intro i hi
  have hplain : alignUp (h.plainLength i) ≤ h.blockSize + 16 := by
    have := (blockSize_eq hpos).2.2
    unfold alignUp plainLength
    omega
  obtain ⟨buf, res, heq, -⟩ := hreads.first hholds hpos hi
  have hfits := (decryptBlock_eq_some rfl heq).1
  rw [length_replicate] at hfits
  unfold blockAt
  split
  · exact ⟨hfits.2, fun _ => hfits.1⟩
  · next hcomp => split <;> exact ⟨hplain, fun h => absurd h hcomp⟩

theorem Reads.coded (hreads : h.Reads c file text) (hholds : h.Holds c file text) (hpos : 0 < h.block_size) :
    h.Coded c file := by
  intro i hi hcomp enc hloads dec hdec
  -- only the compressed layout has such blocks
  have hblock : h.block file h.totalBlocks i = h.blockAt file i := by
    unfold blockAt at hcomp ⊢
    split
    · rfl
    · next hlayout =>
      rw [if_neg hlayout] at hcomp
      split at hcomp <;> exact absurd rfl hcomp
  obtain ⟨buf, res, heq, hres⟩ := hreads.first hholds hpos hi
  obtain ⟨hfits, x, hx, hends⟩ := decryptBlock_eq_some hblock heq
  obtain ⟨res', hdecode⟩ := hholds.decode_eq i hi
  rw [hdecode _ (loads_overwrite file _ hfits.2)] at hx
  obtain rfl : res' = res := by
    obtain ⟨rfl, -⟩ | ⟨data, rfl, -⟩ := hends
    · cases hx
    · exact (Prod.mk.inj (some.inj (some.inj hx))).2
  cases hraw : isRaw dec with
  | false => rfl
  | true =>
    obtain ⟨dec', hdec', hzero⟩ := decode_eq_some (hdecode enc hloads)
    rw [if_pos hcomp, ← some.inj (hdec.symm.trans hdec'), if_pos hraw] at hzero
    exact absurd hzero.2 hres

/-- **Reads are slices of the plaintext**, and every block is looked for in its place, if and only if the file can be
opened, the places do not wrap around, and the blocks fit into the buffer and are not stored raw. -/
theorem reads_iff (h : EdatHeader) (c : EdatCodec) (file text : List UInt8) (hpos : 0 < h.block_size)
    (hholds : h.Holds c file text) :
    (h.Reads c file text ∧ h.Finds file ↔ h.Opens ∧ h.Located ∧ h.Fits file ∧ h.Coded c file) ∧
      (h.Reads c file text → h.Opens ∧ h.Fits file ∧ h.Coded c file) := by
  have hneeds (hreads : h.Reads c file text) : h.Opens ∧ h.Fits file ∧ h.Coded c file :=
    ⟨hreads.opens, hreads.fits hholds hpos, hreads.coded hholds hpos⟩
  refine ⟨⟨fun ⟨hreads, hfinds⟩ => ?_, fun ⟨hopens, hlocated, hfits, hcoded⟩ => ?_⟩, hneeds⟩
  · obtain ⟨hopens, hfits⟩ := hneeds hreads
    exact ⟨hopens, hfinds.located hpos hopens, hfits⟩
  refine ⟨hholds.reads hpos hopens hlocated hfits hcoded, fun i hi => ?_⟩
  rcases hopens with hzero | ⟨htotal, -⟩
  · have := (lt_totalBlocks (blockSize_eq hpos).2.1).mp hi
    omega
  rw [hlocated.block_eq hpos hi htotal]

def twoBlocks : EdatHeader := sample 0x20 16 20 (by decide) (by decide)

def twoBlocksFile : List UInt8 :=
  replicate 0x120 0 ++ (range 16).map UInt8.ofNat ++ replicate 0x20 0 ++ [16, 17, 18, 19]

theorem twoBlocks_holds : twoBlocks.Holds noKey twoBlocksFile ((range 20).map UInt8.ofNat) where
  length_eq := rfl
  decode_eq i hi := by
    have hcases : i = 0 ∨ i = 1 := by
      have : i < 2 := hi
      omega
    rcases hcases with rfl | rfl
    · refine ⟨16, fun enc hloads => ?_⟩
      obtain ⟨-, tail, rfl⟩ := hloads
      rfl
    · refine ⟨4, fun enc hloads => ?_⟩
      obtain ⟨-, tail, rfl⟩ := hloads
      rfl

/-- Two blocks, of which the second one is short, and so is the file. -/
theorem reads_iff_twoBlocks : twoBlocks.Reads noKey twoBlocksFile ((range 20).map UInt8.ofNat) :=
  ((reads_iff twoBlocks noKey twoBlocksFile _ (by decide) twoBlocks_holds).1.mpr
    ⟨by unfold Opens; decide, .inr (.inl (by decide)), by unfold Fits; decide +kernel, fun i hi hcomp => absurd (by
      revert i
      decide +kernel) hcomp⟩).1

def rawHeader : EdatHeader := sample 1 16 16 (by decide) (by decide)

/-- Metadata that gives the offset 0x120, the length 21 and a compressed block; and the 16 bytes of it as they are. -/
def rawFile : List UInt8 :=
  replicate 0x116 0 ++ [1, 0x20, 0, 0, 0, 21, 0, 0, 0, 1] ++ [0x81, 0, 0, 0, 16] ++ (range 16).map UInt8.ofNat

def wideHeader : EdatHeader := sample 0 (2 ^ 31 - 1) 16 (by decide) (by decide)

/-- A block that is stored as it is, and blocks of such a size that there is no buffer for one. -/
theorem not_reads_raw : (rawHeader.Holds noKey rawFile ((range 16).map UInt8.ofNat) ∧
      ¬ rawHeader.Reads noKey rawFile ((range 16).map UInt8.ofNat)) ∧
    wideHeader.Holds noKey (replicate 0x120 0) (replicate 16 0) ∧
      ¬ wideHeader.Reads noKey (replicate 0x120 0) (replicate 16 0) := by
  have hraw : rawHeader.Holds noKey rawFile ((range 16).map UInt8.ofNat) := by
    refine ⟨rfl, fun i hi => ⟨0, fun enc hloads => ?_⟩⟩
    obtain rfl : i = 0 := lt_one_iff.mp hi
    obtain ⟨-, tail, rfl⟩ := hloads
    rfl
  have hwide : wideHeader.Holds noKey (replicate 0x120 0) (replicate 16 0) := by
    refine ⟨rfl, fun i hi => ⟨16, fun enc hloads => ?_⟩⟩
    obtain rfl : i = 0 := lt_one_iff.mp hi
    obtain ⟨-, tail, rfl⟩ := hloads
    rfl
  refine ⟨⟨hraw, fun hreads => ?_⟩, hwide, fun hreads => ?_⟩
  · have hcoded := hreads.coded hraw (by decide) 0 (by decide) (by decide +kernel) _
      (loads_overwrite _ (replicate 32 0) (by decide +kernel)) _ rfl
    exact absurd hcoded (by decide +kernel)
  · exact absurd hreads.opens (by unfold Opens; decide)

end EdatHeader

end Rpcsx.Crypto
