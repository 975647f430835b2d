import Rpcsx.Lib.Buffer
import Rpcsx.Rx.AddressRange

/-!
# The watermark of a 3k3y image

`iso_file_decryption::decrypt` of `ISO.cpp`. A 3k3y image has a watermark at the positions from `0xF70` to `0x1070`, which
a request is to find blanked. The overlap of the request with these positions begins at some distance from the begin of
the buffer; a request that reaches their end gets `0x100` minus this distance blanked, which is not what is left of them
unless the request begins with the watermark.
-/

namespace Rpcsx.Loader.Iso

open Lib Rx

inductive EncryptionType
  | NONE
  | DEC_3K3Y
  | ENC_3K3Y
  | REDUMP

structure RegionInfo where
  encrypted : Bool
  regionFirstAddr : Nat
  regionLastAddr : Nat

/-- The `memset`, with the lengths computed in `u64`. -/
def nullOut (offset size : Nat) (buffer : Buffer) : Buffer :=
  if u64 (offset + size) ≥ 0xF70 ∧ offset ≤ 0x1070 then
    let overlapStart := if offset < 0xF70 then 0xF70 - offset else 0
    buffer.fill overlapStart
      (if u64 (offset + size) < 0x1070 then u64Sub size overlapStart else u64Sub 0x100 overlapStart) 0
  else buffer

/-- The buffer after the call, which returns `true` in any case. `decryptData` is the cipher, applied in place. -/
def decrypt (encType : EncryptionType) (regionInfo : List RegionInfo) (decryptData : Nat → Nat → Buffer → Buffer)
    (offset size : Nat) (buffer : Buffer) : Buffer :=
  let region (buffer : Buffer) : Buffer :=
    match regionInfo.find? fun info => info.regionFirstAddr ≤ offset ∧ offset ≤ info.regionLastAddr with
    | some info => if info.encrypted then decryptData offset size buffer else buffer
    | none => buffer
  match encType with
  | .NONE => buffer
  | .DEC_3K3Y => nullOut offset size buffer
  | .ENC_3K3Y => region (nullOut offset size buffer)
  | .REDUMP => region buffer

/-- The byte `i` of the buffer is one of the watermark. -/
def Marked (offset size i : Nat) : Prop := i < size ∧ 0xF70 ≤ offset + i ∧ offset + i < 0x1070

/-- The bytes of the watermark are zero, and the others, in the buffer and behind it, are what they were. -/
def Blanked (offset size : Nat) (before after : Buffer) : Prop :=
  ∀ i, (Marked offset size i → after i = 0) ∧ (¬ Marked offset size i → after i = before i)

/-- The request is above the watermark, ends before the watermark does, or begins with it. The last case is about a size
that wraps around. -/
def Regular (offset size : Nat) : Prop :=
  0x1070 < offset ∨ offset + size < 0x1070 ∨ (offset = 0xF70 ∧ offset + size < 2 ^ 64) ∨
    (offset = 0x1070 ∧ 2 ^ 64 ≤ offset + size ∧ offset + size < 2 ^ 64 + 0xF70)

variable {offset size : Nat}

/-- The length that the `memset` gets. -/
def nulled (offset size : Nat) : Nat :=
  if u64 (offset + size) < 0x1070 then u64Sub size (0xF70 - offset) else u64Sub 0x100 (0xF70 - offset)

/-- The byte `i` is blanked. -/
def Nulls (offset size i : Nat) : Prop :=
  (0xF70 ≤ u64 (offset + size) ∧ offset ≤ 0x1070) ∧ 0xF70 - offset ≤ i ∧ i < 0xF70 - offset + nulled offset size

theorem nullOut_spec (offset size : Nat) (buffer : Buffer) (i : Nat) :
    (Nulls offset size i → nullOut offset size buffer i = 0) ∧
      (¬ Nulls offset size i → nullOut offset size buffer i = buffer i) := by
  have hstart : (if offset < 0xF70 then 0xF70 - offset else 0) = 0xF70 - offset := by split <;> omega
  rw [nullOut, hstart]
  split
  · next henter =>
    exact ⟨fun h => Buffer.fill_of_mem h.2, fun h => Buffer.fill_of_not_mem fun hin => h ⟨henter, hin⟩⟩
  · next hnot => exact ⟨fun h => absurd h.1 hnot, fun _ => rfl⟩

theorem blanked_iff : (∀ buffer, Blanked offset size buffer (nullOut offset size buffer)) ↔
    ∀ i, Nulls offset size i ↔ Marked offset size i := by
  constructor
  · intro h i
    -- a buffer without zeroes tells the two apart
    have hone : (1 : UInt8) ≠ 0 := by decide
    have hblanked := h (fun _ => 1) i
    have hspec := nullOut_spec offset size (fun _ => 1) i
    constructor
    · exact fun hnulls => by_contra fun hnot => hone ((hblanked.2 hnot).symm.trans (hspec.1 hnulls))
    · exact fun hmarked => by_contra fun hnot => hone ((hspec.2 hnot).symm.trans (hblanked.1 hmarked))
  intro h buffer i
  have hspec := nullOut_spec offset size buffer i
  rwa [h i] at hspec

/-- The last byte of the watermark is left out, the first one behind it is blanked, or, where the size wraps around, the
first one of the watermark is left out. -/
theorem regular_of_nulls (hsize : size < 2 ^ 64) (h : ∀ i, Nulls offset size i ↔ Marked offset size i) :
    Regular offset size := by
  have hlast := h (0x106F - offset)
  have hbehind := h (0x1070 - offset)
  have hfirst := h (0xF70 - offset)
  simp only [Nulls, Marked, u64] at hlast hbehind hfirst
  generalize hn : nulled offset size = n at hlast hbehind hfirst
  unfold nulled u64Sub u64 at hn
  unfold Regular
  split_ifs at hn <;> omega

theorem nulls_of_regular (hsize : size < 2 ^ 64) (h : Regular offset size) (i : Nat) :
    Nulls offset size i ↔ Marked offset size i := by
  unfold Regular at h
  simp only [Nulls, Marked, u64]
  generalize hn : nulled offset size = n
  unfold nulled u64Sub u64 at hn
  split_ifs at hn <;> omega

/-- **The watermark of a decrypted 3k3y image** is blanked, and nothing else is written, exactly for requests of these
kinds. -/
theorem decrypt_blanks_iff (regionInfo : List RegionInfo) (decryptData : Nat → Nat → Buffer → Buffer)
    (hsize : size < 2 ^ 64) :
    (∀ buffer, Blanked offset size buffer (decrypt .DEC_3K3Y regionInfo decryptData offset size buffer)) ↔
      Regular offset size := by
  rw [← Iff.intro (regular_of_nulls hsize) (nulls_of_regular hsize), ← blanked_iff]
  rfl

theorem decrypt_blanks_short :
    Blanked 0xF00 0x100 (fun _ => 1) (decrypt .DEC_3K3Y [] (fun _ _ buffer => buffer) 0xF00 0x100 fun _ => 1) :=
  (decrypt_blanks_iff [] _ (by decide)).mpr (.inr (.inl (by decide))) _

/-- A request from the middle of the watermark on has the bytes behind it blanked too, and one of two pages from the begin
of the image on has everything behind the watermark blanked, far over the end of the buffer. -/
theorem decrypt_blanks_too_much : decrypt .DEC_3K3Y [] (fun _ _ buffer => buffer) 0x1000 0x1000 (fun _ => 1) 0x70 = 0 ∧
    decrypt .DEC_3K3Y [] (fun _ _ buffer => buffer) 0 0x2000 (fun _ => 1) 0x2000 = 0 := by decide

end Rpcsx.Loader.Iso
