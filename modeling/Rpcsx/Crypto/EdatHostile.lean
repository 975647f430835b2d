import Rpcsx.Crypto.Edat

/-!
# Hostile EDAT files

`block_size`, `file_size` and, in the compressed layout, the places and lengths of the blocks come from the file.
`ReadHeader` divides by the first and narrows the number of blocks; the places and lengths are compared with nothing, and
`decompress` trusts what it is given. What has to hold for a file to be harmless is stated for every codec.
-/

namespace Rpcsx.Crypto

open Lib List Option

theorem EdatCodec.length_decompress {c : EdatCodec} {data out : List UInt8} {size res : Nat}
    (h : c.decompress data size = some (some (out, res))) :
    out.length ≤ size ∧ res = if isRaw data then 0 else out.length := by
  unfold decompress at h
  split at h
  · cases h
  split at h
  · next hraw =>
    rw [if_pos hraw]
    split at h
    · cases h
    split at h
    · cases h
    cases h
    rw [length_slice]
    omega
  · next hraw =>
    rw [if_neg hraw]
    obtain ⟨o, ho, hmap⟩ := map_eq_some_iff.mp h
    obtain ⟨out', rfl, heq⟩ := map_eq_some_iff.mp hmap
    cases heq
    exact ⟨c.length_decodeRange ho, rfl⟩

/-- What may be in a buffer once a block has been read into it; behind the end of the file anything may be. -/
def EdatBlock.Loads (b : EdatBlock) (file enc : List UInt8) : Prop :=
  enc.length = alignUp b.length ∧ slice file b.offset (alignUp b.length) <+: enc

namespace EdatHeader

variable {h : EdatHeader} {c : EdatCodec} {file : List UInt8} {tb i : Nat} {hasKey : Bool} {b : EdatBlock}
  {out buf enc : List UInt8} {res : Nat}

/-- A call of `decrypt_block` works inside of its buffer, and reports no more than a block. -/
def BlockRuns (h : EdatHeader) (c : EdatCodec) (file : List UInt8) (total_blocks i : Nat) : Prop :=
  ∀ out : List UInt8, out.length = h.block_size + 16 → ∃ buf res,
    h.decryptBlock c file total_blocks i out = some (buf, res) ∧ buf.length = out.length ∧
      (res = 2 ^ 64 - 1 ∨ (res : Int) ≤ h.block_size)

theorem length_decrypted {dec : List UInt8} (hdec : h.decrypted c i b enc = some dec) : dec.length = enc.length := by
  unfold decrypted at hdec
  split at hdec
  · rw [some.inj hdec]
  · exact c.length_decrypt hdec

/-- What is decoded, and what is reported of it. -/
theorem decode_eq_some {data : List UInt8} (hdata : h.decode c i b enc = some (some (data, res))) :
    ∃ dec, h.decrypted c i b enc = some dec ∧ if b.compression_end ≠ 0 then
      data.length ≤ (h.block_size % 2 ^ 32).toNat ∧ res = if isRaw dec then 0 else data.length
    else data.length = min b.length enc.length ∧ res = b.length := by
  unfold decode at hdata
  split at hdata
  · cases hdata
  next dec hdec =>
  refine ⟨dec, hdec, ?_⟩
  split at hdata
  · next hcomp =>
    rw [if_pos hcomp]
    exact EdatCodec.length_decompress hdata
  · next hcomp =>
    cases hdata
    rw [if_neg hcomp, length_take, length_decrypted hdec]
    exact ⟨rfl, rfl⟩

theorem length_read (file out : List UInt8) (b : EdatBlock) (hfits : alignUp b.length ≤ out.length) :
    (overwrite out 0 (slice file b.offset (alignUp b.length))).length = out.length := by
  refine length_overwrite ?_
  rw [length_slice]
  omega

/-- What a call of `decrypt_block` finds in its buffer. -/
theorem loads_overwrite (file out : List UInt8) (hfits : alignUp b.length ≤ out.length) :
    b.Loads file ((overwrite out 0 (slice file b.offset (alignUp b.length))).take (alignUp b.length)) := by
  have hle : (slice file b.offset (alignUp b.length)).length ≤ alignUp b.length := by
    rw [length_slice]
    omega
  refine ⟨by rw [length_take, length_read file out b hfits]; omega, ?_⟩
  have hread := slice_overwrite_self (show 0 + (slice file b.offset (alignUp b.length)).length ≤ out.length by omega) hle
  exact ⟨_, hread.symm⟩

/-- How a call of `decrypt_block` ends. -/
theorem decryptBlock_eq_some (hb : h.block file tb i = b) (heq : h.decryptBlock c file tb i out = some (buf, res)) :
    (b.offset + alignUp b.length < 2 ^ 63 ∧ alignUp b.length ≤ out.length) ∧ ∃ x,
      h.decode c i b ((overwrite out 0 (slice file b.offset (alignUp b.length))).take (alignUp b.length)) = some x ∧
        (x = none ∧ res = 2 ^ 64 - 1 ∨ ∃ data, x = some (data, res) ∧
          ¬ (b.compression_end = 0 ∧ h.debugData = false ∧ out.length < b.length)) := by
  unfold decryptBlock at heq
  rw [hb] at heq
  dsimp only at heq
  rw [ite_none_left_eq_some, not_or] at heq
  obtain ⟨hfits, heq⟩ := heq
  refine ⟨by omega, ?_⟩
  obtain ⟨x, hx, heq⟩ := bind_eq_some_iff.mp heq
  refine ⟨x, hx, ?_⟩
  cases x with
  | none => exact .inl ⟨rfl, (Prod.mk.inj (some.inj heq)).2.symm⟩
  | some x =>
    rw [ite_none_left_eq_some, some.injEq, Prod.mk.injEq, length_read file out b (by omega), not_or] at heq
    exact .inr ⟨x.1, by rw [← heq.2.2], heq.1.2⟩

/-- What a read that is not empty needs. -/
theorem of_readData_isSome {pos : Nat} (hpos : pos < h.file_size) (hsome : (h.readData c file tb pos 1).isSome) :
    h.blockSize ≠ 0 ∧ pos / h.blockSize < 2 ^ 32 ∧ 0 ≤ s32 (h.block_size + 16) := by
  obtain ⟨r, hr⟩ := isSome_iff_exists.mp hsome
  unfold readData at hr
  rw [if_neg (by omega : ¬ pos > h.file_size), if_neg (by omega), ite_none_left_eq_some] at hr
  obtain ⟨hnonzero, hr⟩ := hr
  obtain ⟨first, hfirst, hr⟩ := bind_eq_some_iff.mp hr
  obtain ⟨last, -, hr⟩ := bind_eq_some_iff.mp hr
  rw [ite_none_left_eq_some] at hr
  exact ⟨hnonzero, (narrow_eq_some.mp hfirst).1, Int.not_lt.mp hr.1⟩

/-- The read of the first byte of a block. -/
theorem readData_one (hi : i < tb) (hsize : i * h.blockSize < h.file_size) (hnonzero : h.blockSize ≠ 0)
    (hbuf : 0 ≤ s32 (h.block_size + 16)) (htotal : tb < 2 ^ 32) :
    h.readData c file tb (i * h.blockSize) 1 = h.readLoop c file tb i (i + 1) 0 1 1 i
      (replicate (s32 (h.block_size + 16)).toNat 0) [] := by
  have hdiv : i * h.blockSize / h.blockSize = i := Nat.mul_div_cancel i (Nat.pos_of_ne_zero hnonzero)
  have hone : alignedDiv (0 + 1) h.blockSize = 1 := by
    unfold alignedDiv
    rcases Nat.lt_or_ge 1 h.blockSize with hlt | hle
    · rw [Nat.zero_add, Nat.div_eq_of_lt hlt, Nat.mod_eq_of_lt hlt, if_pos Nat.one_ne_zero]
    obtain hone : h.blockSize = 1 := by omega
    rw [hone]
    rfl
  rw [readData_eq hsize Nat.one_ne_zero hnonzero (by omega) htotal hbuf]
  dsimp only
  rw [Nat.min_eq_left (by omega : 1 ≤ h.file_size - i * h.blockSize), hdiv, Nat.mul_mod_left, hone,
    Nat.min_eq_left (by omega : i + 1 ≤ tb), Nat.add_sub_cancel_left]

/-- The file is opened or rejected, after a call of `decrypt_block` for the first block, if there is one; and every read
of a file that is open returns, and so does every call of `decrypt_block`. -/
def Safe (h : EdatHeader) (c : EdatCodec) (file : List UInt8) (hasKey : Bool) : Prop :=
  ∃ ok total_blocks, h.readHeader c file hasKey = some (ok, total_blocks) ∧
    (total_blocks ≠ 0 → h.BlockRuns c file total_blocks 0) ∧
    (ok = true → (∀ pos size, (h.readData c file total_blocks pos size).isSome) ∧
      ∀ i < total_blocks, h.BlockRuns c file total_blocks i)

def sample (flags : Nat) (block_size : Int) (file_size : Nat)
    (hblock : -2 ^ 31 ≤ block_size ∧ block_size < 2 ^ 31) (hfile : file_size < 2 ^ 64) : EdatHeader :=
  ⟨true, 1, flags + 2 ^ 24 + 2 ^ 31, block_size, file_size, hblock, hfile⟩

/-- Nothing is authentic for this one. Debug data is read all the same. -/
def noKey : EdatCodec := ⟨fun _ _ _ => none, nofun, fun _ _ => some none, nofun⟩

end EdatHeader

end Rpcsx.Crypto
