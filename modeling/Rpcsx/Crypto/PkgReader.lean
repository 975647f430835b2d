import Rpcsx.Lib.Buffer

/-!
# Reading a package entry through its cache

The read function of `pkg_file_reader` in `unpkg.cpp`, which keeps the block it has decrypted last. Of `decrypt` it is
assumed that it succeeds, and it is what the function relies on: the bytes of the entry, and zeroes behind them up to a
multiple of 16.

A request that begins before the kept block and ends in it gets its tail from there first. The head is then decrypted in
front of the tail, and the zeroes behind it are written over the first bytes of the tail.
-/

namespace Rpcsx.Crypto

open Lib Buffer

def bufSize : Nat := 8192 * 1024

/-- `read_cache` with its size, and `cache_off`. -/
structure ReadCache where
  off : Nat
  size : Nat
  data : Buffer

def ReadCache.fresh : ReadCache := ⟨2 ^ 64 - 1, 0, fun _ => 0⟩

/-- An entry, and the decrypted data area it is in. -/
structure PkgEntry where
  fileOffset : Nat
  fileSize : Nat
  plain : Buffer

namespace PkgEntry

def byte (e : PkgEntry) (pos : Nat) : UInt8 := e.plain (e.fileOffset + pos)

def decrypt (e : PkgEntry) (pos size : Nat) (out : Buffer) (dst : Nat) : Buffer :=
  (out.copy dst size fun i => e.byte (pos + i)).fill (dst + size) (16 * ((size + 15) / 16) - size) 0

/-- The loop at the end, which decrypts into the caller's buffer. -/
def readBlocks (e : PkgEntry) (size : Nat) : Nat → Nat → Nat → Buffer → Buffer × Nat
  | 0, _, readSize, ptr => (ptr, readSize)
  | fuel + 1, pos, readSize, ptr =>
    if readSize < size then
      let blockSize := min bufSize (size - readSize)
      readBlocks e size fuel (pos + blockSize) (readSize + blockSize) (e.decrypt pos blockSize ptr readSize)
    else (ptr, readSize)

/-- What follows on the look into the cache. -/
def readRest (e : PkgEntry) (cache : ReadCache) (pos size readSize sizeCacheEnd : Nat) (ptr : Buffer) :
    ReadCache × Buffer × Nat :=
  if pos ≥ e.fileSize ∨ size = 0 then (cache, ptr, readSize + sizeCacheEnd)
  else if size ≤ bufSize ∧ sizeCacheEnd = 0 ∧ readSize = 0 then
    let blockSize := min bufSize (min (max (size * 5 / 3) 65536) (e.fileSize - pos))
    let data := e.decrypt pos blockSize cache.data 0
    (⟨pos, blockSize, data⟩, ptr.copy 0 (min blockSize size) data, min blockSize size)
  else
    let (ptr, readSize) := e.readBlocks size size pos readSize ptr
    (cache, ptr, readSize + sizeCacheEnd)

def readAt (e : PkgEntry) (cache : ReadCache) (pos size : Nat) (ptr : Buffer) : ReadCache × Buffer × Nat :=
  if pos ≥ e.fileSize ∨ size = 0 then (cache, ptr, 0)
  else
    let size := min (e.fileSize - pos) size
    if cache.size ≠ 0 ∧ cache.off ≤ pos ∧ pos < cache.off + cache.size then
      let readSize := min (pos + size) (cache.off + cache.size) - pos
      e.readRest cache (pos + readSize) size readSize 0
        (ptr.copy 0 readSize fun i => cache.data (pos - cache.off + i))
    else if cache.size ≠ 0 ∧ cache.off < pos + size ∧ cache.off + cache.size ≥ pos + size then
      let sizeCacheEnd := size - (max cache.off pos - pos)
      e.readRest cache pos (size - sizeCacheEnd) 0 sizeCacheEnd (ptr.copy (cache.off - pos) sizeCacheEnd cache.data)
    else e.readRest cache pos size 0 0 ptr

/-- The cache that some calls leave. -/
def cached (e : PkgEntry) (calls : List (Nat × Nat × Buffer)) : ReadCache :=
  calls.foldl (fun cache call => (e.readAt cache call.1 call.2.1 call.2.2).1) .fresh

structure Valid (e : PkgEntry) (cache : ReadCache) : Prop where
  inside : cache.size ≠ 0 → cache.off + cache.size ≤ e.fileSize
  data : ∀ i < cache.size, cache.data i = e.byte (cache.off + i)

/-- The byte `j` of the request is in the tail, in the block of 16 that the head ends in. -/
def Cleared (cache : ReadCache) (pos n j : Nat) : Prop :=
  (cache.size ≠ 0 ∧ pos < cache.off ∧ cache.off < pos + n ∧ pos + n ≤ cache.off + cache.size) ∧
    cache.off ≤ pos + j ∧ j < 16 * ((cache.off - pos + 15) / 16)

instance (cache : ReadCache) (pos n j : Nat) : Decidable (Cleared cache pos n j) := inferInstanceAs (Decidable (_ ∧ _))

variable {e : PkgEntry} {cache : ReadCache} {pos size : Nat} {ptr : Buffer}

/-- The loop reads up to `size`, and clears what is left of the last 16 bytes. -/
theorem readBlocks_spec (fuel : Nat) {r : Nat} (hr : r ≤ size) (hfuel : size - r ≤ fuel) :
    (e.readBlocks size fuel pos r ptr).2 = size ∧ ∀ a, (e.readBlocks size fuel pos r ptr).1 a =
      if r ≤ a ∧ a < size then e.byte (pos + a - r)
      else if size ≤ a ∧ a < r + 16 * ((size - r + 15) / 16) then 0 else ptr a := by
  induction fuel generalizing pos r ptr with
  | zero => exact ⟨by rw [readBlocks]; omega, fun a => by rw [if_neg (by omega), if_neg (by omega)]; rfl⟩
  | succ fuel ih =>
    rw [readBlocks]
    split
    · next hlt =>
      dsimp only
      -- only the last block may end within 16 bytes
      obtain ⟨block, hblock, hle, hpos, hpad⟩ : ∃ block, min bufSize (size - r) = block ∧ block ≤ size - r ∧ 0 < block ∧
          (block = size - r ∨ block % 16 = 0) := ⟨_, rfl, by unfold bufSize; omega⟩
      rw [hblock]
      obtain ⟨hsize, hbytes⟩ := @ih (pos + block) (e.decrypt pos block ptr r) (r + block) (by omega) (by omega)
      refine ⟨hsize, fun a => ?_⟩
      rw [hbytes]
      simp only [decrypt, Buffer.fill, copy]
      split_ifs <;> first | rfl | omega | (congr 1; omega)
    exact ⟨by omega, fun a => by rw [if_neg (by omega), if_neg (by omega)]⟩

/-- The call has read `n` bytes, all but those that were cleared. -/
structure Reads (e : PkgEntry) (cache : ReadCache) (pos n : Nat) (result : ReadCache × Buffer × Nat) : Prop where
  valid : e.Valid result.1
  count : result.2.2 = n
  bytes : ∀ j < n, result.2.1 j = if Cleared cache pos n j then 0 else e.byte (pos + j)

/-- The bytes before `r` and those from `m` on are in the buffer already. -/
theorem readRest_reads {m r k : Nat} (hcache : e.Valid cache) (hm : 0 < m) (hr : r ≤ m) (hend : pos + (m + k) ≤ e.fileSize)
    (hptr : ∀ j < m + k, j < r ∨ m ≤ j → ptr j = e.byte (pos + j))
    (hcleared : ∀ j < m + k, Cleared cache pos (m + k) j ↔ m ≤ j ∧ j < r + 16 * ((m - r + 15) / 16)) :
    e.Reads cache pos (m + k) (e.readRest cache (pos + r) m r k ptr) := by
  rw [readRest]
  split
  · refine ⟨hcache, by dsimp only; omega, fun j hj => ?_⟩
    rw [if_neg (by rw [hcleared j hj]; omega)]
    exact hptr j hj (by omega)
  split
  · next hsmall =>
    obtain ⟨hle, rfl, rfl⟩ := hsmall
    obtain ⟨block, hblock, hle, hin⟩ : ∃ block,
        min bufSize (min (max (m * 5 / 3) 65536) (e.fileSize - pos)) = block ∧ m ≤ block ∧ pos + block ≤ e.fileSize :=
      ⟨_, rfl, by omega⟩
    have hdata : ∀ i < block, e.decrypt pos block cache.data 0 i = e.byte (pos + i) := fun i hi => by
      rw [decrypt, fill_of_not_mem (by omega), copy, if_pos (by omega)]
      rfl
    dsimp only [Nat.add_zero]
    rw [hblock, Nat.min_eq_right hle]
    refine ⟨⟨fun _ => hin, hdata⟩, rfl, fun j hj => ?_⟩
    rw [if_neg (by rw [← Nat.add_zero m, hcleared j hj]; omega), ← hdata j (by omega)]
    exact if_pos (by omega)
  obtain ⟨hsize, hbytes⟩ := @readBlocks_spec e (pos + r) m ptr m r hr (by omega)
  refine ⟨hcache, by dsimp only; omega, fun j hj => (hbytes j).trans ?_⟩
  by_cases hmid : r ≤ j ∧ j < m
  · rw [if_pos hmid, if_neg (by rw [hcleared j hj]; omega)]
    congr 1
    omega
  rw [if_neg hmid, hptr j hj (by omega)]
  exact if_congr (hcleared j hj).symm rfl rfl

theorem readAt_reads (hcache : e.Valid cache) (hsome : ¬ (pos ≥ e.fileSize ∨ size = 0)) (ptr : Buffer) :
    e.Reads cache pos (min (e.fileSize - pos) size) (e.readAt cache pos size ptr) := by
  rw [readAt, if_neg hsome]
  dsimp only
  obtain ⟨n, hn, hpos, hend⟩ : ∃ n, min (e.fileSize - pos) size = n ∧ 0 < n ∧ pos + n ≤ e.fileSize := ⟨_, rfl, by omega⟩
  rw [hn]
  split
  · -- the request begins in the kept block
    refine readRest_reads (k := 0) hcache hpos (by omega) hend (fun j hj hin => ?_) fun j hj => by unfold Cleared; omega
    rw [copy, if_pos (by omega), hcache.data _ (by omega)]
    congr 1
    omega
  split
  · -- it ends there
    next htail =>
    obtain ⟨m, k, hm, hk, rfl⟩ : ∃ m k, cache.off = pos + m ∧ n - (max cache.off pos - pos) = k ∧ n = m + k :=
      ⟨cache.off - pos, _, by omega, rfl, by omega⟩
    rw [hk, Nat.add_sub_cancel]
    refine readRest_reads (r := 0) hcache (by omega) (Nat.zero_le m) hend (fun j hj hin => ?_) fun j hj => by
      unfold Cleared
      omega
    rw [copy, if_pos (by omega), hcache.data _ (by omega)]
    congr 1
    omega
  exact readRest_reads (r := 0) (k := 0) hcache hpos (Nat.zero_le n) hend (fun j hj h => absurd h (by omega))
    fun j hj => by unfold Cleared; omega

/-- Every call keeps the cache valid. -/
theorem valid_foldl (calls : List (Nat × Nat × Buffer)) (hcache : e.Valid cache) :
    e.Valid (calls.foldl (fun cache call => (e.readAt cache call.1 call.2.1 call.2.2).1) cache) := by
  induction calls generalizing cache with
  | nil => exact hcache
  | cons call calls ih =>
    refine ih ?_
    by_cases hnone : call.1 ≥ e.fileSize ∨ call.2.1 = 0
    · simp only [readAt, if_pos hnone]
      exact hcache
    exact (readAt_reads hcache hnone _).valid

theorem valid_fresh : e.Valid .fresh := ⟨fun h => absurd rfl h, nofun⟩

/-- **The read cache**: after any calls, a call returns the same count and bytes as on a fresh reader exactly if the bytes
of its tail that the decryption of its head clears are zero. -/
theorem read_cache_iff (e : PkgEntry) (calls : List (Nat × Nat × Buffer)) (pos size : Nat) (ptr : Buffer) :
    ((e.readAt (e.cached calls) pos size ptr).2.2 = (e.readAt .fresh pos size ptr).2.2 ∧
      ∀ j < (e.readAt .fresh pos size ptr).2.2,
        (e.readAt (e.cached calls) pos size ptr).2.1 j = (e.readAt .fresh pos size ptr).2.1 j) ↔
    ∀ j < min (e.fileSize - pos) size,
      Cleared (e.cached calls) pos (min (e.fileSize - pos) size) j → e.byte (pos + j) = 0 := by
  by_cases hnone : pos ≥ e.fileSize ∨ size = 0
  · rw [readAt, readAt, if_pos hnone, if_pos hnone]
    exact iff_of_true ⟨rfl, fun _ _ => rfl⟩ fun j hj => by omega
  have hreads := readAt_reads (valid_foldl calls valid_fresh) hnone ptr
  have hfresh := @readAt_reads e .fresh pos size valid_fresh hnone ptr
  have hbytes : ∀ j < min (e.fileSize - pos) size, (e.readAt .fresh pos size ptr).2.1 j = e.byte (pos + j) :=
    fun j hj => (hfresh.bytes j hj).trans (if_neg fun h => h.1.1 rfl)
  rw [hfresh.count]
  constructor
  · intro h j hj hcleared
    rw [← hbytes j hj, ← h.2 j hj]
    exact (hreads.bytes j hj).trans (if_pos hcleared)
  intro h
  refine ⟨hreads.count, fun j hj => (hreads.bytes j hj).trans ?_⟩
  rw [hbytes j hj]
  split
  · next hcleared => exact (h j hj hcleared).symm
  · rfl

/-- A read of ten bytes at 100 and then one at 95: the second half of it is lost. -/
theorem read_cache_clears_tail :
    ((⟨0, 200000, fun _ => 1⟩ : PkgEntry).readAt (cached ⟨0, 200000, fun _ => 1⟩ [(100, 10, fun _ => 2)]) 95 10
      fun _ => 2).2.1 5 = 0 ∧
    ((⟨0, 200000, fun _ => 1⟩ : PkgEntry).readAt .fresh 95 10 fun _ => 2).2.1 5 = 1 := by decide +kernel

end PkgEntry

end Rpcsx.Crypto
