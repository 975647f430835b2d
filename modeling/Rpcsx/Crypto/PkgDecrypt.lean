import Rpcsx.Lib.Buffer

/-!
# Decryption of package data

`package_reader::decrypt` of `unpkg.cpp`. The data area of a package is encrypted with a stream of 16-byte keys, one for
each block of the area; a call decrypts a piece of it in the caller's buffer. AES and SHA-1 are arbitrary functions.

The keys are counted from `offset / 16`, and the first one is used from its first byte on, whatever the offset. After the
last block the buffer is filled up with zeroes, for a length that is computed as `blocks * 16 - size`: where the archive
ends more than a block before the end of the request, this wraps around.
-/

namespace Rpcsx.Crypto

open Lib Buffer List

/-- `pkg_type`; `read_header` accepts no other value. -/
inductive PkgReleaseType
  | debug
  | release
  deriving DecidableEq

/-- The fields of `PKGHeader` that the decryption reads. -/
structure PKGHeader where
  pkg_type : PkgReleaseType
  data_offset : Nat
  qa_digest : Nat × Nat
  klicensee : Nat

/-- The byte `j` of `sha1(input)`, and that of `input` encrypted with the key of the call. -/
structure PkgCipher where
  sha1 : List Nat → Nat → UInt8
  aes : Nat → Nat → UInt8

namespace PKGHeader

/-- The key of the block at `position`. For release packages the stream starts at `klicensee + offset / 16` and goes on
by `input++`. -/
def blockKey (h : PKGHeader) (c : PkgCipher) (position : Nat) : Nat → UInt8 :=
  match h.pkg_type with
  | .debug => c.sha1 [h.qa_digest.1, h.qa_digest.1, h.qa_digest.2, h.qa_digest.2, 0, 0, 0, position]
  | .release => c.aes ((h.klicensee + position) % 2 ^ 128)

def archiveReadBlock (archive : List UInt8) (offset size : Nat) : List UInt8 := (archive.drop offset).take size

def decrypt (h : PKGHeader) (c : PkgCipher) (archive : List UInt8) (offset size : Nat) (buf : Buffer) : Buffer × Nat :=
  if 2 ^ 64 - 1 - offset < h.data_offset then (buf, 0)
  else
    let data := archiveReadBlock archive (h.data_offset + offset) size
    let blocks := (data.length + 15) / 16
    let out := Buffer.xorBlocks (fun i => h.blockKey c (offset / 16 + i)) (buf.put 0 data) blocks
    let out := if blocks * 16 ≠ size then out.fill size ((blocks * 16 + 2 ^ 64 - size) % 2 ^ 64) 0 else out
    (out, min size data.length)

/-- The byte `k` of the data area, decrypted as a whole. -/
def plain (h : PKGHeader) (c : PkgCipher) (archive : List UInt8) (k : Nat) : UInt8 :=
  archive.getD (h.data_offset + k) 0 ^^^ h.blockKey c (k / 16) (k % 16)

def available (h : PKGHeader) (archive : List UInt8) (offset size : Nat) : Nat :=
  min size (archive.length - (h.data_offset + offset))

/-- The call decrypts the piece it was asked for, and writes nowhere but into whole blocks for `size` bytes. -/
structure Decrypts (h : PKGHeader) (c : PkgCipher) (archive : List UInt8) (offset size : Nat) (buf : Buffer) : Prop where
  inside : ∀ a, 16 * ((size + 15) / 16) ≤ a → (h.decrypt c archive offset size buf).1 a = buf a
  returned : (h.decrypt c archive offset size buf).2 = h.available archive offset size
  slice : ∀ j < (h.decrypt c archive offset size buf).2,
    (h.decrypt c archive offset size buf).1 j = h.plain c archive (offset + j)

variable {h : PKGHeader} {c : PkgCipher} {archive : List UInt8} {offset size : Nat} {buf : Buffer}

theorem length_archiveReadBlock (archive : List UInt8) (offset size : Nat) :
    (archiveReadBlock archive offset size).length = min size (archive.length - offset) := by simp [archiveReadBlock]

/-- Behind the end of what can be addressed there is nothing. -/
theorem available_eq_zero (harchive : archive.length < 2 ^ 63) (hfar : 2 ^ 64 - 1 - offset < h.data_offset) :
    h.available archive offset size = 0 := by
  unfold available
  omega

/-- The last block ends where the request does, or behind. -/
def Fits (h : PKGHeader) (archive : List UInt8) (offset size : Nat) : Prop :=
  size ≤ 16 * ((h.available archive offset size + 15) / 16)

/-- The buffer before the fill. -/
theorem xorBlocks_put_apply {j : Nat} (hj : j < h.available archive offset size) :
    xorBlocks (fun i => h.blockKey c (offset / 16 + i))
        (buf.put 0 (archiveReadBlock archive (h.data_offset + offset) size))
        (((archiveReadBlock archive (h.data_offset + offset) size).length + 15) / 16) j =
      archive.getD (h.data_offset + (offset + j)) 0 ^^^ h.blockKey c (offset / 16 + j / 16) (j % 16) := by
  have hlength : (archiveReadBlock archive (h.data_offset + offset) size).length = h.available archive offset size :=
    length_archiveReadBlock _ _ _
  rw [xorBlocks_apply, hlength, if_pos (by omega)]
  congr 1
  have hput : buf.put 0 (archiveReadBlock archive (h.data_offset + offset) size) (0 + j) = _ :=
    put_apply (hlength ▸ hj)
  rw [Nat.zero_add] at hput
  rw [hput]
  unfold available at hj
  simp [archiveReadBlock, getD_eq_getElem?_getD, getElem?_drop, Nat.add_assoc, show j < size by omega]

/-- A call inside of the address space, in terms of what is available. -/
theorem decrypt_eq (c : PkgCipher) (archive : List UInt8) (size : Nat) (buf : Buffer)
    (hnear : ¬ 2 ^ 64 - 1 - offset < h.data_offset) :
    ∃ out : Buffer, (∀ j < h.available archive offset size,
        out j = archive.getD (h.data_offset + (offset + j)) 0 ^^^ h.blockKey c (offset / 16 + j / 16) (j % 16)) ∧
      (∀ a, 16 * ((h.available archive offset size + 15) / 16) ≤ a → out a = buf a) ∧
      h.decrypt c archive offset size buf = (if (h.available archive offset size + 15) / 16 * 16 ≠ size then
          out.fill size (((h.available archive offset size + 15) / 16 * 16 + 2 ^ 64 - size) % 2 ^ 64) 0
        else out, h.available archive offset size) := by
  have hlength : (archiveReadBlock archive (h.data_offset + offset) size).length = h.available archive offset size :=
    length_archiveReadBlock _ _ _
  refine ⟨xorBlocks (fun i => h.blockKey c (offset / 16 + i))
    (buf.put 0 (archiveReadBlock archive (h.data_offset + offset) size)) _, fun j hj => xorBlocks_put_apply hj, ?_, ?_⟩
  · intro a ha
    rw [xorBlocks_apply, hlength, if_neg (by omega)]
    exact if_neg (by omega)
  rw [decrypt, if_neg hnear]
  dsimp only
  rw [hlength, show min size (h.available archive offset size) = h.available archive offset size by
    unfold available; omega]

theorem decrypts_of_far (harchive : archive.length < 2 ^ 63) (hfar : 2 ^ 64 - 1 - offset < h.data_offset) :
    h.Decrypts c archive offset size buf := by
  have heq : h.decrypt c archive offset size buf = (buf, 0) := if_pos hfar
  refine ⟨?_, ?_, ?_⟩
  · intro a _
    rw [heq]
  · rw [heq, available_eq_zero harchive hfar]
  rw [heq]
  intro j hj
  cases hj

/-- An aligned request that fits is decrypted. -/
theorem decrypts_of_fits (hnear : ¬ 2 ^ 64 - 1 - offset < h.data_offset)
    (hfits : h.Fits archive offset size) (haligned : h.available archive offset size = 0 ∨ 16 ∣ offset) :
    h.Decrypts c archive offset size buf := by
  obtain ⟨out, hout, hrest, heq⟩ := decrypt_eq c archive size buf hnear
  have hle : h.available archive offset size ≤ size := Nat.min_le_left _ _
  unfold Fits at hfits
  have hlen : ((h.available archive offset size + 15) / 16 * 16 + 2 ^ 64 - size) % 2 ^ 64 =
      (h.available archive offset size + 15) / 16 * 16 - size := by omega
  rw [hlen] at heq
  refine ⟨?_, ?_, ?_⟩
  · intro a ha
    rw [heq]
    dsimp only
    split
    · rw [fill_of_not_mem (by omega)]
      exact hrest a (by omega)
    exact hrest a (by omega)
  · rw [heq]
  rw [heq]
  intro j hj
  dsimp only at hj ⊢
  have hdiv : offset / 16 + j / 16 = (offset + j) / 16 ∧ j % 16 = (offset + j) % 16 := by omega
  have hplain : out j = h.plain c archive (offset + j) := by
    rw [hout j hj, hdiv.1, hdiv.2]
    rfl
  split
  · rw [fill_of_not_mem (by omega), hplain]
  · exact hplain

def countingCipher : PkgCipher := ⟨fun _ j => .ofNat j, fun _ j => .ofNat j⟩

theorem blockKey_countingCipher (h : PKGHeader) (position j : Nat) :
    h.blockKey countingCipher position j = .ofNat j := by
  unfold blockKey
  cases h.pkg_type <;> rfl

/-- The fill that wraps around reaches a byte behind the buffer. -/
theorem fits_of_decrypts (hbuf : 16 * ((size + 15) / 16) < 2 ^ 64) (hnear : ¬ 2 ^ 64 - 1 - offset < h.data_offset)
    (hdecrypts : h.Decrypts c archive offset size fun _ => 1) : h.Fits archive offset size := by
  by_contra hshort
  unfold Fits at hshort
  obtain ⟨out, -, -, heq⟩ := decrypt_eq c archive size (fun _ => 1) hnear
  have hbehind := hdecrypts.inside (16 * ((size + 15) / 16)) (Nat.le_refl _)
  rw [heq] at hbehind
  dsimp only at hbehind
  rw [if_pos (by omega), fill_of_mem] at hbehind
  · cases hbehind
  · omega

/-- The first byte of an unaligned request is decrypted with the first byte of its key. -/
theorem aligned_of_decrypts (hnear : ¬ 2 ^ 64 - 1 - offset < h.data_offset)
    (hdecrypts : h.Decrypts countingCipher archive offset size buf) :
    h.available archive offset size = 0 ∨ 16 ∣ offset := by
  obtain ⟨out, hout, -, heq⟩ := decrypt_eq countingCipher archive size buf hnear
  refine or_iff_not_imp_left.mpr fun hsome => ?_
  have hpos : 0 < h.available archive offset size := Nat.pos_of_ne_zero hsome
  have hle : h.available archive offset size ≤ size := Nat.min_le_left _ _
  have hslice := hdecrypts.slice 0
  rw [heq] at hslice
  have hfirst : out 0 = h.plain countingCipher archive offset := by
    have := hslice hpos
    dsimp only at this
    split at this
    · rwa [fill_of_not_mem (by omega)] at this
    · exact this
  rw [hout 0 hpos, plain, blockKey_countingCipher, blockKey_countingCipher] at hfirst
  have hkey := congrArg UInt8.toNat (UInt8.xor_right_inj _ |>.mp hfirst)
  simp only [UInt8.toNat_ofNat'] at hkey
  omega

/-- **Random access**: with every cipher and every buffer a call decrypts its piece of the data area if and only if it
starts at a block and the archive does not end more than a block early. The buffer is inside of the address space. -/
theorem decrypts_iff (h : PKGHeader) (archive : List UInt8) (offset size : Nat) (harchive : archive.length < 2 ^ 63)
    (hoffset : offset < 2 ^ 64) (hbuf : 16 * ((size + 15) / 16) < 2 ^ 64) :
    (∀ c buf, h.Decrypts c archive offset size buf) ↔ 2 ^ 64 ≤ h.data_offset + offset ∨
        size ≤ 16 * ((h.available archive offset size + 15) / 16) ∧
          (h.available archive offset size = 0 ∨ 16 ∣ offset) := by
  by_cases hfar : 2 ^ 64 - 1 - offset < h.data_offset
  · exact ⟨fun _ => .inl (by omega), fun _ c buf => decrypts_of_far harchive hfar⟩
  constructor
  · intro hall
    have hcounting := hall countingCipher fun _ => 1
    exact .inr ⟨fits_of_decrypts hbuf hfar hcounting, aligned_of_decrypts hfar hcounting⟩
  rintro (hover | ⟨hfits, haligned⟩) c buf
  · omega
  · exact decrypts_of_fits hfar hfits haligned

/-- A package with a data area of two blocks. -/
def sample : PKGHeader := ⟨.release, 0x140, (1, 2), 7⟩

def twoBlocks : List UInt8 := replicate 0x160 0

theorem decrypts_iff_block : sample.Decrypts countingCipher twoBlocks 16 16 fun _ => 0 :=
  (decrypts_iff sample twoBlocks 16 16 (by decide +kernel) (by decide) (by decide)).mpr
    (.inr ⟨by decide +kernel, .inr (by decide)⟩) countingCipher fun _ => 0

/-- Eight bytes in the middle of a block come out wrong, and a request of two blocks where there is one writes behind its
buffer. -/
theorem decrypt_unaligned_and_short : ((sample.decrypt countingCipher twoBlocks 24 8 fun _ => 0).1 0 = 0 ∧
      sample.plain countingCipher twoBlocks 24 = 8) ∧
    (sample.decrypt countingCipher twoBlocks 16 32 fun _ => 1).1 32 = 0 := by decide +kernel

end PKGHeader

end Rpcsx.Crypto
