import Mathlib.Data.Nat.Prime.Basic
import Mathlib.Tactic.IntervalCases
import Rpcsx.Lib.Loops
import Rpcsx.Rsx.TiledDma.Address

/-!
# Tiling and detiling

The loops of `tile_texel_data` copy the bytes of one texel after the other. As long as the image does not
run over the end of the address space, counted from the base of the tile, different texels are different
bytes on both sides, so that detiling undoes tiling.
-/

namespace Rpcsx.Rsx

open Lib List Nat DetilerConfig

/-! ## The loops as writes -/

def DmaOp.dstOffset (conf : DetilerConfig) : DmaOp → Nat → Nat → Nat
  | .encodeTile => conf.tileDataOffset
  | .decodeTile => conf.linearImageOffset

def DmaOp.srcOffset (conf : DetilerConfig) : DmaOp → Nat → Nat → Nat
  | .encodeTile => conf.linearImageOffset
  | .decodeTile => conf.tileDataOffset

def copied (conf : DetilerConfig) (imageWidth imageHeight : Nat) : List (Nat × Nat × Nat) :=
  (range imageHeight).flatMap fun row => (range imageWidth).flatMap fun col =>
    if conf.tileBaseOffset row col ≥ conf.tileSize then []
    else (range conf.imageBpp).map fun i => (row, col, i)

theorem mem_copied {conf : DetilerConfig} {imageWidth imageHeight : Nat} {t : Nat × Nat × Nat} :
    t ∈ copied conf imageWidth imageHeight ↔
      (t.1 < imageHeight ∧ t.2.1 < imageWidth) ∧ conf.tileBaseOffset t.1 t.2.1 < conf.tileSize ∧
        t.2.2 < conf.imageBpp := by
  obtain ⟨row, col, i⟩ := t
  simp only [copied, mem_flatMap, mem_range]
  constructor
  · rintro ⟨r, hr, c, hc, h⟩
    split_ifs at h with hinside
    · exact absurd h not_mem_nil
    obtain ⟨j, hj, heq⟩ := mem_map.mp h
    obtain ⟨rfl, rfl, rfl⟩ : r = row ∧ c = col ∧ j = i := by simpa using heq
    exact ⟨⟨hr, hc⟩, not_le.mp hinside, mem_range.mp hj⟩
  rintro ⟨⟨hr, hc⟩, hinside, hi⟩
  refine ⟨row, hr, col, hc, ?_⟩
  rw [if_neg (not_le.mpr hinside)]
  exact mem_map.mpr ⟨i, mem_range.mpr hi, rfl⟩

theorem tileTexelData_eq (direction : DmaOp) (size : Nat) (dst src : Nat → UInt8) (baseAddress baseOffset
    tileSize bankSense rowPitchInBytes imageWidth imageHeight : Nat) :
    let conf := tileConfig size baseAddress baseOffset tileSize bankSense rowPitchInBytes
    tileTexelData direction size dst src baseAddress baseOffset tileSize bankSense rowPitchInBytes
        imageWidth imageHeight =
      writes (fun t : Nat × Nat × Nat => direction.dstOffset conf t.1 t.2.1 + t.2.2)
        (fun t => src (direction.srcOffset conf t.1 t.2.1 + t.2.2))
        (copied conf imageWidth imageHeight) dst := by
  intro conf
  rw [copied, writes_flatMap, tileTexelData]
  congr 1
  funext dst row
  rw [writes_flatMap]
  congr 1
  funext dst col
  unfold tiledDmaCopy
  split_ifs with h
  · rfl
  rw [writes, foldl_map]
  cases direction <;> rfl

/-! ## Images -/

/-- The arguments of `tile_texel_data`, for a pitch that tiles can have. -/
structure TiledImage where
  size : Nat
  baseAddress : Nat
  baseOffset : Nat
  tileSize : Nat
  bankSense : Nat
  rowPitchInBytes : Nat
  imageWidth : Nat
  imageHeight : Nat
  size_dvd : size ∣ 16
  base : baseAddress % 0x10000 = 0
  base_lt : baseAddress < 0x100000000
  offset_lt : baseOffset < 0x100000000
  tileSize_lt : tileSize < 0x100000000
  bank : bankSense < 4
  pitch : ∃ p ∈ [1, 3, 5, 7, 11, 13], ∃ k, rowPitchInBytes = 256 * p * 2 ^ k
  pitch_lt : rowPitchInBytes < 0x10000
  width : imageWidth * size ≤ rowPitchInBytes
  width_lt : imageWidth < 0x10000
  height_lt : imageHeight < 0x10000

namespace TiledImage

variable (im : TiledImage)

def conf : DetilerConfig :=
  tileConfig im.size im.baseAddress im.baseOffset im.tileSize im.bankSense im.rowPitchInBytes

def tile (tiled linear : Nat → UInt8) : Nat → UInt8 :=
  tileTexelData .encodeTile im.size tiled linear im.baseAddress im.baseOffset im.tileSize im.bankSense
    im.rowPitchInBytes im.imageWidth im.imageHeight

def detile (linear tiled : Nat → UInt8) : Nat → UInt8 :=
  tileTexelData .decodeTile im.size linear tiled im.baseAddress im.baseOffset im.tileSize im.bankSense
    im.rowPitchInBytes im.imageWidth im.imageHeight

def Has (row col : Nat) : Prop := row < im.imageHeight ∧ col < im.imageWidth

def OnGrid (row col : Nat) : Prop :=
  row < 0x10000 ∧ (col + 1) * im.size ≤ im.rowPitchInBytes ∧
    im.baseOffset + (row + 1) * im.rowPitchInBytes ≤ 0x100000000

theorem getPrimeFactor_eq : ∀ p ∈ [1, 3, 5, 7, 11, 13], ∀ k < 8, 256 * p * 2 ^ k < 0x10000 →
    getPrimeFactor (256 * p * 2 ^ k) = (p, 2 ^ k) := by decide

/-- The pitches that tiles can have make regular configurations. -/
theorem exists_factor : ∃ p ∈ [1, 3, 5, 7, 11, 13], ∃ k < 8, im.rowPitchInBytes = 256 * (p * 2 ^ k) ∧
    im.conf.factor = 2 ^ k ∧ im.conf.numTilesPerRow = p * 2 ^ k := by
  obtain ⟨p, hp, k, hpitch⟩ := im.pitch
  have hlt := im.pitch_lt
  have hpos : 1 ≤ p := by
    have h : ∀ p ∈ [1, 3, 5, 7, 11, 13], 1 ≤ p := by decide
    exact h p hp
  have hk : k < 8 := by
    by_contra h
    have hpow : 2 ^ 8 ≤ 2 ^ k := Nat.pow_le_pow_right (by decide) (not_lt.mp h)
    have hmul : 256 * 1 * 2 ^ 8 ≤ 256 * p * 2 ^ k := Nat.mul_le_mul (by omega) hpow
    omega
  have hfactor := getPrimeFactor_eq p hp k hk (hpitch ▸ hlt)
  refine ⟨p, hp, k, hk, by rw [hpitch, mul_assoc], ?_, ?_⟩
  · show (getPrimeFactor im.rowPitchInBytes).2 = _
    rw [hpitch, hfactor]
  show u32 ((getPrimeFactor im.rowPitchInBytes).1 * (getPrimeFactor im.rowPitchInBytes).2) = _
  rw [hpitch, hfactor]
  have hle : p * 2 ^ k < 0x100000000 := by
    rw [hpitch, mul_assoc] at hlt
    omega
  exact u32_of_lt hle

theorem tiles_mod : ∀ p ∈ [1, 3, 5, 7, 11, 13], ∀ k < 8,
    2 ^ k = 1 ∨ (2 ^ k = 2 ∧ p * 2 ^ k % 4 = 2) ∨ (4 ≤ 2 ^ k ∧ p * 2 ^ k % 4 = 0) := by decide

theorem pitch_eq : im.rowPitchInBytes = 256 * im.conf.numTilesPerRow := by
  obtain ⟨p, hp, k, hk, hpitch, -, htiles⟩ := im.exists_factor
  rw [hpitch, htiles]

theorem regular : im.conf.Regular := by
  obtain ⟨p, hp, k, hk, hpitch, hfactor, htiles⟩ := im.exists_factor
  have hpos : 0 < p * 2 ^ k := by
    have h : ∀ p ∈ [1, 3, 5, 7, 11, 13], 0 < p := by decide
    exact mul_pos (h p hp) (Nat.two_pow_pos k)
  have hlt := im.pitch_lt
  refine ⟨im.base, im.base_lt, ?_, ?_⟩
  · rw [htiles]
    omega
  rw [hfactor, htiles]
  exact tiles_mod p hp k hk

variable {im} {row col row' col' : Nat}

theorem onGrid (hfit : im.baseOffset + im.imageHeight * im.rowPitchInBytes ≤ 0x100000000)
    (h : im.Has row col) : im.OnGrid row col := by
  obtain ⟨hrow, hcol⟩ := h
  have hheight := im.height_lt
  have hwidth := im.width
  have hcols : (col + 1) * im.size ≤ im.imageWidth * im.size := mul_le_mul_right _ hcol
  have hrows : (row + 1) * im.rowPitchInBytes ≤ im.imageHeight * im.rowPitchInBytes := mul_le_mul_right _ hrow
  exact ⟨by omega, by omega, by omega⟩

theorem size_pos (im : TiledImage) : 0 < im.size := pos_of_dvd_of_pos im.size_dvd (by decide)

section

variable (h : im.OnGrid row col)

include h

/-- The distance of a texel from the base of the tile. -/
theorem relative_eq : u32Sub (im.conf.thisAddress row col) im.baseAddress =
      im.baseOffset + row * im.rowPitchInBytes + col * im.size := by
  obtain ⟨-, hcol, hrow⟩ := h
  have hsize := im.size_pos
  have hbase := im.base_lt
  rw [succ_mul] at hcol hrow
  show u32Sub (u32 (u32 (row * im.rowPitchInBytes + im.baseAddress + im.baseOffset) +
    u32 (col * im.size))) im.baseAddress = _
  unfold u32Sub u32
  omega

theorem texelOffset_eq : im.conf.texelOffset (im.conf.thisAddress row col) =
      (im.baseOffset + row * im.rowPitchInBytes + col * im.size) / 256 :=
  congrArg (· / 256) (relative_eq h)

omit h in
/-- The number of a tile is about a sixty-fourth of the texel offset. -/
theorem tileId_bounds (im : TiledImage) (a : Nat) :
    im.conf.texelOffset a < 64 * im.conf.tileId a + 64 * im.conf.numTilesPerRow ∧
      64 * im.conf.tileId a < im.conf.texelOffset a + 64 * im.conf.numTilesPerRow := by
  have hx := tileX_lt im.regular a
  have hlow : im.conf.tileY a * 64 * im.conf.numTilesPerRow ≤ im.conf.texelOffset a :=
    (mul_le_mul_right _ (div_mul_le_self _ 64)).trans (div_mul_le_self _ _)
  have hhigh : im.conf.texelOffset a < (im.conf.tileY a + 1) * 64 * im.conf.numTilesPerRow := by
    have hline : im.conf.texelOffset a / im.conf.numTilesPerRow < (im.conf.tileY a + 1) * 64 := by
      unfold tileY
      omega
    exact (div_lt_iff_lt_mul im.regular.tiles.1).mp hline
  rw [tileId_eq im.regular]
  rw [mul_right_comm] at hlow hhigh
  rw [add_one_mul] at hhigh
  generalize im.conf.tileY a * im.conf.numTilesPerRow = y at *
  omega

theorem near (h' : im.OnGrid row' col') :
    im.conf.Near (im.conf.thisAddress row col) (im.conf.thisAddress row' col') := by
  have hn := im.regular.tiles.2
  have hpitch := im.pitch_eq
  have hbounds := im.tileId_bounds (im.conf.thisAddress row col)
  have hbounds' := im.tileId_bounds (im.conf.thisAddress row' col')
  rw [texelOffset_eq h] at hbounds
  rw [texelOffset_eq h'] at hbounds'
  have hsize := im.size_pos
  obtain ⟨hrow, hcol, -⟩ := h
  obtain ⟨hrow', hcol', -⟩ := h'
  rw [succ_mul] at hcol hcol'
  have hrows : row * im.rowPitchInBytes ≤ 0xffff * im.rowPitchInBytes := mul_le_mul_right _ (by omega)
  have hrows' : row' * im.rowPitchInBytes ≤ 0xffff * im.rowPitchInBytes := mul_le_mul_right _ (by omega)
  constructor
  · omega
  · omega

/-- Rows that are not longer than the pitch do not overlap. -/
theorem grid_inj (h' : im.OnGrid row' col')
    (heq : row * im.rowPitchInBytes + col * im.size = row' * im.rowPitchInBytes + col' * im.size) :
    row = row' ∧ col = col' := by
  have hsize := im.size_pos
  obtain ⟨-, hcol, -⟩ := h
  obtain ⟨-, hcol', -⟩ := h'
  rw [succ_mul] at hcol hcol'
  rw [mul_comm row, mul_comm row'] at heq
  obtain rfl : row = row' := by
    have hdiv := congrArg (· / im.rowPitchInBytes) heq
    simpa only [mul_add_div (show 0 < im.rowPitchInBytes by omega),
      div_eq_of_lt (show col * im.size < im.rowPitchInBytes by omega),
      div_eq_of_lt (show col' * im.size < im.rowPitchInBytes by omega), add_zero] using hdiv
  exact ⟨rfl, eq_of_mul_eq_mul_right hsize (add_left_cancel heq)⟩

/-- Different texels are at different places of the tiled data. -/
theorem tileDataOffset_inj (h' : im.OnGrid row' col')
    (heq : im.conf.tileDataOffset row col = im.conf.tileDataOffset row' col') : row = row' ∧ col = col' := by
  have hlt (row col : Nat) : im.conf.thisAddress row col < 0x100000000 := u32_lt _
  have htile : im.conf.tileAddress (im.conf.thisAddress row col) =
      im.conf.tileAddress (im.conf.thisAddress row' col') :=
    u32Sub_inj (tileAddress_lt im.regular _) (tileAddress_lt im.regular _) (u32Sub_inj (u32_lt _) (u32_lt _) heq)
  have haddress := tileAddress_inj im.regular (hlt row col) (hlt row' col') (near h h') htile
  have hrelative := relative_eq h
  rw [haddress, relative_eq h'] at hrelative
  exact grid_inj h h' (by omega)

omit h in
/-- The tiled data are cut into texels. The offset of the image may be any. -/
theorem size_dvd_tileDataOffset (im : TiledImage) (row col : Nat) : im.size ∣ im.conf.tileDataOffset row col := by
  have hmod := tileAddress_mod im.regular (im.conf.thisAddress row col)
  have hpitch : row * im.rowPitchInBytes = 256 * (row * im.conf.numTilesPerRow) := by rw [im.pitch_eq, mul_left_comm]
  have hbase := im.base_lt
  have hoffset := im.offset_lt
  have haddress : im.conf.thisAddress row col =
      u32 (u32 (row * im.rowPitchInBytes + im.baseAddress + im.baseOffset) + u32 (col * im.size)) := rfl
  show im.size ∣ u32Sub (u32Sub (im.conf.tileAddress (im.conf.thisAddress row col)) im.baseAddress) im.baseOffset
  rw [haddress] at hmod ⊢
  generalize im.conf.tileAddress _ = t at *
  rw [hpitch] at hmod
  generalize row * im.conf.numTilesPerRow = m at *
  obtain ⟨k, hk, hsize⟩ := (dvd_prime_pow prime_two).mp (show im.size ∣ 2 ^ 4 from im.size_dvd)
  rw [hsize] at hmod ⊢
  unfold u32Sub u32
  unfold u32 at hmod
  interval_cases k <;> omega

theorem linearImageOffset_eq : im.conf.linearImageOffset row col = row * im.rowPitchInBytes + col * im.size := by
  have hsize := im.size_pos
  obtain ⟨-, hcol, hrow⟩ := h
  rw [succ_mul] at hcol hrow
  show u32 (row * im.rowPitchInBytes + col * im.size) = _
  exact u32_of_lt (by omega)

theorem size_dvd_linearImageOffset : im.size ∣ im.conf.linearImageOffset row col := by
  rw [linearImageOffset_eq h, im.pitch_eq]
  have hsize : im.size ∣ 256 := im.size_dvd.trans (by decide)
  exact Nat.dvd_add ((hsize.mul_right _).mul_left row) (Nat.dvd_mul_left _ _)

end

/-- Bytes of pieces that begin at multiples of their size. -/
theorem piece_inj {size d d' i i' : Nat} (hd : size ∣ d) (hd' : size ∣ d') (hi : i < size)
    (hi' : i' < size) (h : d + i = d' + i') : d = d' ∧ i = i' := by
  obtain ⟨m, rfl⟩ := hd
  obtain ⟨m', rfl⟩ := hd'
  have hmod := congrArg (· % size) h
  simp only [mul_add_mod, mod_eq_of_lt hi, mod_eq_of_lt hi'] at hmod
  subst hmod
  exact ⟨add_right_cancel h, rfl⟩

/-- Different bytes of texels are at different places, on both sides. -/
theorem dstOffset_inj (op : DmaOp) (h : im.OnGrid row col) (h' : im.OnGrid row' col') {i i' : Nat}
    (hi : i < im.size) (hi' : i' < im.size)
    (heq : op.dstOffset im.conf row col + i = op.dstOffset im.conf row' col' + i') :
    (row, col, i) = (row', col', i') := by
  cases op with
  | encodeTile =>
    obtain ⟨hd, rfl⟩ := piece_inj (im.size_dvd_tileDataOffset row col) (im.size_dvd_tileDataOffset row' col') hi hi' heq
    obtain ⟨rfl, rfl⟩ := tileDataOffset_inj h h' hd
    rfl
  | decodeTile =>
    obtain ⟨hd, rfl⟩ := piece_inj (size_dvd_linearImageOffset h) (size_dvd_linearImageOffset h') hi hi' heq
    rw [linearImageOffset_eq h, linearImageOffset_eq h'] at hd
    obtain ⟨rfl, rfl⟩ := grid_inj h h' hd
    rfl

/-- The byte of a texel of the image, inside of the tile, that an operation writes. -/
theorem tileTexelData_apply (hfit : im.baseOffset + im.imageHeight * im.rowPitchInBytes ≤ 0x100000000)
    (op : DmaOp) (dst src : Nat → UInt8) (h : im.Has row col)
    (hinside : im.conf.tileBaseOffset row col < im.tileSize) {i : Nat} (hi : i < im.size) :
    tileTexelData op im.size dst src im.baseAddress im.baseOffset im.tileSize im.bankSense
        im.rowPitchInBytes im.imageWidth im.imageHeight (op.dstOffset im.conf row col + i) =
      src (op.srcOffset im.conf row col + i) := by
  rw [tileTexelData_eq]
  refine writes_of_injOn (i := (row, col, i)) ?_ (mem_copied.mpr ⟨h, hinside, hi⟩) dst
  intro t ht t' ht' heq
  obtain ⟨hhas, -, hi⟩ := mem_copied.mp ht
  obtain ⟨hhas', -, hi'⟩ := mem_copied.mp ht'
  exact dstOffset_inj op (onGrid hfit hhas) (onGrid hfit hhas') hi hi' heq

/-- Different texels have different bytes in the tiled data, detiling after tiling restores every texel
that lies inside of the tile, and tiling touches no texel outside of the image. -/
theorem tiling_bijective (im : TiledImage) (hfit : im.baseOffset + im.imageHeight * im.rowPitchInBytes ≤ 0x100000000) :
    (∀ row col row' col', im.Has row col → im.Has row' col' → (row, col) ≠ (row', col') →
      ∀ i < im.size, ∀ i' < im.size, im.conf.tileDataOffset row col + i ≠ im.conf.tileDataOffset row' col' + i') ∧
    (∀ linear tiled out : Nat → UInt8, ∀ row col, im.Has row col →
      im.conf.tileBaseOffset row col < im.tileSize → ∀ i < im.size,
        im.detile out (im.tile tiled linear) (im.conf.linearImageOffset row col + i) =
          linear (im.conf.linearImageOffset row col + i)) ∧
    ∀ linear tiled : Nat → UInt8, ∀ row col, im.OnGrid row col → ¬im.Has row col → ∀ i < im.size,
      im.tile tiled linear (im.conf.tileDataOffset row col + i) = tiled (im.conf.tileDataOffset row col + i) := by
  refine ⟨?_, ?_, ?_⟩
  · intro row col row' col' h h' hne i hi i' hi' heq
    have htexel := dstOffset_inj .encodeTile (onGrid hfit h) (onGrid hfit h') hi hi' heq
    obtain ⟨rfl, hcol⟩ := Prod.mk.inj htexel
    exact hne (congrArg _ (Prod.mk.inj hcol).1)
  · intro linear tiled out row col h hinside i hi
    have hdetile := tileTexelData_apply hfit .decodeTile out (im.tile tiled linear) h hinside hi
    exact hdetile.trans (tileTexelData_apply hfit .encodeTile tiled linear h hinside hi)
  intro linear tiled row col hgrid hnot i hi
  rw [tile, tileTexelData_eq]
  apply writes_of_forall_ne
  intro t ht heq
  obtain ⟨hhas, -, hi'⟩ := mem_copied.mp ht
  have htexel := dstOffset_inj .encodeTile (onGrid hfit hhas) hgrid hi' hi heq
  obtain ⟨rfl, hcol⟩ := Prod.mk.inj htexel
  obtain ⟨rfl, -⟩ := Prod.mk.inj hcol
  exact hnot hhas

/-- An image of 192 by 64 texels in tiles three to a row. -/
theorem tiling_bijective_three_tiles :
    ∃ im : TiledImage, (im.rowPitchInBytes = 768 ∧ im.imageWidth = 192 ∧ im.imageHeight = 64) ∧
      ∀ linear tiled out : Nat → UInt8, im.detile out (im.tile tiled linear) 40015 = linear 40015 := by
  let im : TiledImage := ⟨4, 0x30000, 1536, 0x20000, 2, 768, 192, 64, by decide, by decide, by decide,
    by decide, by decide, by decide, ⟨3, by decide, 0, rfl⟩, by decide, by decide, by decide, by decide⟩
  refine ⟨im, ⟨rfl, rfl, rfl⟩, fun linear tiled out => ?_⟩
  exact (tiling_bijective im (by decide)).2.1 linear tiled out 52 19 ⟨by decide, by decide⟩
    (by decide +kernel) 3 (by decide)

/-- An image over the end of the address space: the numbers of the tiles meet modulo `2 ^ 18`. -/
theorem tiling_not_bijective :
    ∃ im : TiledImage, ∃ row col row' col', im.Has row col ∧ im.Has row' col' ∧ (row, col) ≠ (row', col') ∧
      im.conf.tileDataOffset row col = im.conf.tileDataOffset row' col' := by
  let im : TiledImage := ⟨4, 0, 0xfffffe00, 0x10000, 0, 768, 1, 22, by decide, by decide, by decide,
    by decide, by decide, by decide, ⟨3, by decide, 0, rfl⟩, by decide, by decide, by decide, by decide⟩
  exact ⟨im, 0, 0, 21, 0, ⟨by decide, by decide⟩, ⟨by decide, by decide⟩, by decide, by decide +kernel⟩

end TiledImage

end Rpcsx.Rsx
