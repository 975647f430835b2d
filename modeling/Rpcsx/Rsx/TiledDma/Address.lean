import Mathlib.Tactic.Ring
import Rpcsx.Lib.BitField
import Rpcsx.Rsx.TiledDma.Basic

/-!
# Tiled addresses are different

Two places of a tiled region have different tiled addresses. Row and bank tell the tile: four tiles with
consecutive numbers share a row, and the table of banks gives them four different banks. If the number of
tiles per row is not a multiple of four, some of the four are in the next row of tiles, where the table is
read elsewhere. The rest of the address tells the line and the byte, once the twiddled bits are known.
-/

namespace Rpcsx.Rsx.DetilerConfig

open Lib Nat

variable {conf : DetilerConfig} {a b : Nat}

/-- The configurations in which the tiles of a row make one, two or a multiple of four banks. -/
structure Regular (conf : DetilerConfig) : Prop where
  base : conf.tileBaseAddress % 0x10000 = 0
  base_lt : conf.tileBaseAddress < 0x100000000
  tiles : 0 < conf.numTilesPerRow ∧ conf.numTilesPerRow < 256
  factor : conf.factor = 1 ∨ (conf.factor = 2 ∧ conf.numTilesPerRow % 4 = 2) ∨
    (4 ≤ conf.factor ∧ conf.numTilesPerRow % 4 = 0)

/-- The numbers of the tiles of two addresses do not meet modulo `2 ^ 18`. -/
def Near (conf : DetilerConfig) (a b : Nat) : Prop :=
  conf.tileId a + 4 ≤ conf.tileId b + 0x40000 ∧ conf.tileId b + 4 ≤ conf.tileId a + 0x40000

theorem tileX_lt (hconf : conf.Regular) (a : Nat) : conf.tileX a < conf.numTilesPerRow := mod_lt _ hconf.tiles.1

theorem texelOffset_lt (conf : DetilerConfig) (a : Nat) : conf.texelOffset a < 0x1000000 := by
  have h := u32_lt (a + (0x100000000 - conf.tileBaseAddress))
  unfold texelOffset u32Sub
  omega

theorem tileY_mul_le (conf : DetilerConfig) (a : Nat) : conf.tileY a * conf.numTilesPerRow ≤ conf.texelOffset a :=
  (mul_le_mul_right _ (div_le_self _ 64)).trans (div_mul_le_self _ _)

theorem tileId_eq (hconf : conf.Regular) (a : Nat) :
    conf.tileId a = conf.tileY a * conf.numTilesPerRow + conf.tileX a := by
  have hx := tileX_lt hconf a
  have hn := hconf.tiles.2
  have hy := tileY_mul_le conf a
  have hlt := texelOffset_lt conf a
  exact u32_of_lt (by omega)

theorem tileId_lt (hconf : conf.Regular) (a : Nat) : conf.tileId a < 0x2000000 := by
  have hx := tileX_lt hconf a
  have hn := hconf.tiles.2
  have hy := tileY_mul_le conf a
  have hlt := texelOffset_lt conf a
  rw [tileId_eq hconf]
  omega

theorem tileSelector_eq (hconf : conf.Regular) (a : Nat) : conf.tileSelector a =
      (conf.tileId a + conf.tileBaseAddress / 0x10000 * 4) % 0x40000 := by
  have hid := tileId_lt hconf a
  have hbase := hconf.base
  have hlt := hconf.base_lt
  unfold tileSelector
  rw [shiftRight_eq_div_pow, u32_of_lt (by omega),
    show (0x3ffff : Nat) = 2 ^ 18 - 1 from rfl, and_two_pow_sub_one_eq_mod]
  omega

theorem rowAddress_eq (hconf : conf.Regular) (a : Nat) : conf.rowAddress a = conf.tileSelector a / 4 := by
  have h := tileSelector_eq hconf a
  unfold rowAddress
  rw [shiftRight_eq_div_pow, show (0xffff : Nat) = 2 ^ 16 - 1 from rfl, and_two_pow_sub_one_eq_mod]
  omega

/-! ## Banks -/

def bankOf (factor tile tileY : Nat) : Nat :=
  if factor = 1 then tile % 4
  else if factor = 2 then bankDistributionLookup.getD ((tile + tileY % 2 * 2) % 4 * 4 + tileY % 4) 0
  else if 4 ≤ factor then bankDistributionLookup.getD (tile % 4 * 4 + tileY % 4) 0
  else 0

theorem bankSelector_eq (hconf : conf.Regular) (a : Nat) : conf.bankSelector a =
      (bankOf conf.factor (conf.tileId a) (conf.tileY a) + conf.tileBank) % 4 := by
  have hmod : conf.tileSelector a % 4 = conf.tileId a % 4 := by
    rw [tileSelector_eq hconf a]
    omega
  have hmod' (n : Nat) : (conf.tileSelector a + n) % 4 = (conf.tileId a + n) % 4 := by omega
  have hmask (n : Nat) : n &&& 3 = n % 4 := and_two_pow_sub_one_eq_mod n 2
  unfold bankSelector bankOf
  simp only [hmask, and_one_is_mod, shiftLeft_eq, pow_one, hmod, hmod']

theorem bankOf_lt (factor tile tileY : Nat) : bankOf factor tile tileY < 4 := by
  have hlookup : ∀ i < 16, bankDistributionLookup.getD i 0 < 4 := by decide
  unfold bankOf
  split_ifs
  · omega
  · exact hlookup _ (by omega)
  · exact hlookup _ (by omega)
  · omega

/-- The columns of the table of banks are permutations. -/
theorem lookup_column : ∀ c < 4, ∀ r < 4, ∀ r' < 4,
    bankDistributionLookup.getD (r * 4 + c) 0 = bankDistributionLookup.getD (r' * 4 + c) 0 → r = r' := by decide

/-- The first halves of two columns side by side make a permutation. -/
theorem lookup_halves : ∀ c ∈ [0, 2], ∀ r < 2, ∀ r' < 2,
    bankDistributionLookup.getD (r * 4 + c) 0 ≠ bankDistributionLookup.getD (r' * 4 + (c + 1)) 0 := by decide

section Tiles

variable {n factor x y x' y' : Nat} (hx : x < n) (hx' : x' < n) (hgroup : (y * n + x) / 4 = (y' * n + x') / 4)

include hx hx' hgroup

/-- If the tiles of a row are a multiple of four, four that share a row of the memory are in one row of
tiles. -/
theorem tile_eq_of_four (hn : n % 4 = 0)
    (hbank : bankDistributionLookup.getD ((y * n + x) % 4 * 4 + y % 4) 0 =
      bankDistributionLookup.getD ((y' * n + x') % 4 * 4 + y' % 4) 0) : y * n + x = y' * n + x' := by
  obtain ⟨m, rfl⟩ : 4 ∣ n := dvd_of_mod_eq_zero hn
  have hy (y x : Nat) (hx : x < 4 * m) : (y * (4 * m) + x) / 4 / m = y := by
    rw [Nat.div_div_eq_div_mul, mul_comm y, mul_add_div (by omega), div_eq_of_lt hx, add_zero]
  obtain rfl : y = y' := by rw [← hy y x hx, hgroup, hy y' x' hx']
  have h := lookup_column (y % 4) (by omega) _ (by omega) _ (by omega) hbank
  omega

/-- If they are not, the first two of the four may be the last two of a row, and the others the first
two of the next one. -/
theorem tile_eq_of_two (hn : n % 4 = 2) (hle : y ≤ y')
    (hbank : bankDistributionLookup.getD ((y * n + x + y % 2 * 2) % 4 * 4 + y % 4) 0 =
      bankDistributionLookup.getD ((y' * n + x' + y' % 2 * 2) % 4 * 4 + y' % 4) 0) : y * n + x = y' * n + x' := by
  obtain ⟨j, rfl⟩ : ∃ j, n = 4 * j + 2 := ⟨n / 4, by omega⟩
  obtain ⟨d, rfl⟩ := Nat.exists_eq_add_of_le hle
  have hexpand (y : Nat) : y * (4 * j + 2) = 4 * (y * j) + 2 * y := by ring
  have hprod : (y + d) * j = y * j + d * j := add_mul y d j
  rw [hexpand, hexpand, hprod] at hgroup hbank ⊢
  generalize y * j = p at *
  match d with
  | 0 =>
    have h := lookup_column (y % 4) (by omega) _ (by omega) _ (by omega) hbank
    omega
  | 1 =>
    -- The row number is even, and both columns of the table are read in their first half.
    rw [one_mul] at hgroup hbank ⊢
    have hodd : (y + 1) % 4 = y % 4 + 1 := by omega
    rw [hodd] at hbank
    have hc : y % 4 ∈ [0, 2] := by
      simp only [List.mem_cons, List.not_mem_nil, or_false]
      omega
    exact absurd hbank (lookup_halves (y % 4) hc _ (by omega) _ (by omega))
  | d + 2 =>
    have hd : 2 * j ≤ (d + 2) * j := mul_le_mul_right j (by omega)
    omega

theorem tile_eq (hfactor : factor = 1 ∨ (factor = 2 ∧ n % 4 = 2) ∨ (4 ≤ factor ∧ n % 4 = 0))
    (hbank : bankOf factor (y * n + x) y = bankOf factor (y' * n + x') y') : y * n + x = y' * n + x' := by
  obtain rfl | ⟨rfl, hn⟩ | ⟨hfactor, hn⟩ := hfactor
  · unfold bankOf at hbank
    rw [if_pos rfl, if_pos rfl] at hbank
    omega
  · unfold bankOf at hbank
    obtain hle | hle := le_total y y'
    · exact tile_eq_of_two hx hx' hgroup hn hle hbank
    · exact (tile_eq_of_two hx' hx hgroup.symm hn hle hbank.symm).symm
  unfold bankOf at hbank
  rw [if_neg (by omega), if_neg (by omega), if_pos hfactor, if_neg (by omega), if_neg (by omega),
    if_pos hfactor] at hbank
  exact tile_eq_of_four hx hx' hgroup hn hbank

end Tiles

/-- Row and bank tell the tile. -/
theorem tileId_inj (hconf : conf.Regular) (hnear : conf.Near a b)
    (hrow : conf.rowAddress a = conf.rowAddress b) (hbank : conf.bankSelector a = conf.bankSelector b) :
    conf.tileId a = conf.tileId b := by
  obtain ⟨hab, hba⟩ := hnear
  have hlt := bankOf_lt conf.factor (conf.tileId a) (conf.tileY a)
  have hlt' := bankOf_lt conf.factor (conf.tileId b) (conf.tileY b)
  rw [bankSelector_eq hconf, bankSelector_eq hconf] at hbank
  rw [rowAddress_eq hconf, rowAddress_eq hconf, tileSelector_eq hconf, tileSelector_eq hconf] at hrow
  have hbank : bankOf conf.factor (conf.tileId a) (conf.tileY a) =
      bankOf conf.factor (conf.tileId b) (conf.tileY b) := by omega
  have hgroup : conf.tileId a / 4 = conf.tileId b / 4 := by omega
  rw [tileId_eq hconf, tileId_eq hconf] at hgroup hbank ⊢
  exact tile_eq (tileX_lt hconf a) (tileX_lt hconf b) hgroup hconf.factor hbank

/-! ## Lines and bytes -/

theorem lineOffsetInTile_lt (conf : DetilerConfig) (a : Nat) : conf.lineOffsetInTile a < 64 := mod_lt _ (by decide)

theorem bankSelector_lt (hconf : conf.Regular) (a : Nat) : conf.bankSelector a < 4 :=
  bankSelector_eq hconf a ▸ mod_lt _ (by decide)

theorem rowAddress_lt (hconf : conf.Regular) (a : Nat) : conf.rowAddress a < 0x10000 := by
  have h := tileSelector_eq hconf a
  rw [rowAddress_eq hconf a]
  omega

theorem columnSelector_eq (conf : DetilerConfig) (a : Nat) : conf.columnSelector a =
      conf.lineOffsetInTile a / 8 * 128 + a / 32 % 8 * 16 + conf.lineOffsetInTile a % 4 * 4 := by
  have hlt := lineOffsetInTile_lt conf a
  have h7 (n : Nat) : n &&& 7 = n % 8 := and_two_pow_sub_one_eq_mod n 3
  have h3 (n : Nat) : n &&& 3 = n % 4 := and_two_pow_sub_one_eq_mod n 2
  unfold columnSelector
  generalize conf.lineOffsetInTile a = line at *
  simp only [h7, h3, shiftRight_eq_div_pow, shiftLeft_eq, Nat.reducePow, Nat.div_one]
  have h1 : line / 8 % 8 * 128 ||| a / 32 % 8 * 16 = line / 8 % 8 * 128 + a / 32 % 8 * 16 :=
    or_eq_add 7 (by omega) (by omega)
  rw [h1, or_eq_add 4 (by omega) (by omega)]
  omega

theorem partitionSelector_eq (conf : DetilerConfig) (a : Nat) :
    conf.partitionSelector a = (conf.lineOffsetInTile a / 4 % 2 + a / 64 % 2) % 2 := by
  simp only [partitionSelector, and_one_is_mod, shiftRight_eq_div_pow, Nat.reducePow]

section

variable (hconf : conf.Regular)

include hconf

theorem joinedAddress_eq (a : Nat) : conf.joinedAddress a = conf.rowAddress a * 65536 + conf.bankSelector a * 16384 +
        (conf.lineOffsetInTile a / 8 * 8 + a / 32 % 8) * 256 + conf.partitionSelector a * 128 +
        conf.lineOffsetInTile a % 4 * 32 + a % 32 := by
  have hline := lineOffsetInTile_lt conf a
  have hcolumn := columnSelector_eq conf a
  have hpartition := partitionSelector_eq conf a
  have hbank := bankSelector_lt hconf a
  have hrow := rowAddress_lt hconf a
  have h65535 (n : Nat) : n &&& 65535 = n % 65536 := and_two_pow_sub_one_eq_mod n 16
  have h63 (n : Nat) : n &&& 63 = n % 64 := and_two_pow_sub_one_eq_mod n 6
  have h31 (n : Nat) : n &&& 31 = n % 32 := and_two_pow_sub_one_eq_mod n 5
  have h3 (n : Nat) : n &&& 3 = n % 4 := and_two_pow_sub_one_eq_mod n 2
  unfold joinedAddress
  generalize conf.lineOffsetInTile a = line at *
  generalize conf.columnSelector a = column at *
  generalize conf.partitionSelector a = part at *
  generalize conf.bankSelector a = bank at *
  generalize conf.rowAddress a = row at *
  simp only [h65535, h63, h31, h3, and_one_is_mod, shiftRight_eq_div_pow, shiftLeft_eq,
    Nat.reducePow, Nat.div_one, Nat.mul_one]
  have hcolumn1 : column / 16 % 64 = line / 8 * 8 + a / 32 % 8 := by omega
  have hcolumn2 : column / 4 % 4 = line % 4 := by omega
  have hpart : part < 2 := by omega
  clear hcolumn hpartition
  rw [hcolumn1, hcolumn2, mod_eq_of_lt hrow, mod_eq_of_lt hbank, mod_eq_of_lt hpart]
  generalize line / 8 * 8 + a / 32 % 8 = q at *
  have h1 : row * 65536 ||| bank * 16384 = row * 65536 + bank * 16384 := or_eq_add 16 (by omega) (by omega)
  have h2 : row * 65536 + bank * 16384 ||| q * 256 = row * 65536 + bank * 16384 + q * 256 :=
    or_eq_add 14 (by omega) (by omega)
  have h₃ : row * 65536 + bank * 16384 + q * 256 ||| part * 128 =
      row * 65536 + bank * 16384 + q * 256 + part * 128 := or_eq_add 8 (by omega) (by omega)
  rw [h1, h2, h₃, or_eq_add 7 (b := line % 4 * 32) (by omega) (by omega), or_eq_add 5 (by omega) (by omega)]

theorem joinedAddress_lt (a : Nat) : conf.joinedAddress a < 0x100000000 := by
  have hline := lineOffsetInTile_lt conf a
  have hbank := bankSelector_lt hconf a
  have hrow := rowAddress_lt hconf a
  have hpart : conf.partitionSelector a < 2 := partitionSelector_eq conf a ▸ mod_lt _ (by decide)
  rw [joinedAddress_eq hconf]
  omega

/-- An address is told by its tile, its line and its last eight bits. -/
theorem address_ext (ha : a < 0x100000000) (hb : b < 0x100000000) (hid : conf.tileId a = conf.tileId b)
    (hline : conf.lineOffsetInTile a = conf.lineOffsetInTile b) (hbyte : a % 256 = b % 256) : a = b := by
  have hn := hconf.tiles.1
  rw [tileId_eq hconf, tileId_eq hconf] at hid
  have hy (a : Nat) : (conf.tileY a * conf.numTilesPerRow + conf.tileX a) / conf.numTilesPerRow = conf.tileY a := by
    rw [mul_comm, mul_add_div hn, div_eq_of_lt (tileX_lt hconf a), add_zero]
  have hx (a : Nat) : (conf.tileY a * conf.numTilesPerRow + conf.tileX a) % conf.numTilesPerRow = conf.tileX a := by
    rw [mul_comm, mul_add_mod, mod_eq_of_lt (tileX_lt hconf a)]
  have hyy : conf.tileY a = conf.tileY b := by rw [← hy a, hid, hy b]
  have hxx : conf.tileX a = conf.tileX b := by rw [← hx a, hid, hx b]
  have hoffset (a : Nat) : conf.texelOffset a =
      conf.numTilesPerRow * (64 * conf.tileY a + conf.lineOffsetInTile a) + conf.tileX a := by
    rw [tileY, lineOffsetInTile, div_add_mod, tileX, div_add_mod]
  have htexel : conf.texelOffset a = conf.texelOffset b := by rw [hoffset a, hoffset b, hyy, hxx, hline]
  apply u32Sub_inj ha hb (c := conf.tileBaseAddress)
  unfold texelOffset u32Sub u32 at htexel
  unfold u32Sub u32
  omega

theorem rowAddress_bankSelector_of_div (h : conf.joinedAddress a / 16384 = conf.joinedAddress b / 16384) :
    conf.rowAddress a = conf.rowAddress b ∧ conf.bankSelector a = conf.bankSelector b := by
  have hdiv (a : Nat) : conf.joinedAddress a / 16384 = conf.rowAddress a * 4 + conf.bankSelector a := by
    have hline := lineOffsetInTile_lt conf a
    have hpart : conf.partitionSelector a < 2 := partitionSelector_eq conf a ▸ mod_lt _ (by decide)
    rw [joinedAddress_eq hconf]
    omega
  have hbank := bankSelector_lt hconf a
  have hbank' := bankSelector_lt hconf b
  rw [hdiv a, hdiv b] at h
  omega

/-- Different addresses have different tiled addresses. -/
theorem tileAddress_inj (ha : a < 0x100000000) (hb : b < 0x100000000) (hnear : conf.Near a b)
    (h : conf.tileAddress a = conf.tileAddress b) : a = b := by
  -- Bit ten is flipped by bit eleven.
  have h := flip_inj 10 h fun hbits => by
    rw [testBit_shiftRight, testBit_shiftRight]
    exact hbits 11 (by decide)
  -- Bit nine is flipped by bits twelve and fourteen, and by the numbers of the bank and the tile.
  have h := flip_inj 9 h fun hbits => by
    have hdiv : conf.joinedAddress a / 16384 = conf.joinedAddress b / 16384 := by
      rw [show 16384 = 2 ^ 14 from rfl, ← shiftRight_eq_div_pow, ← shiftRight_eq_div_pow]
      refine eq_of_testBit_eq fun i => ?_
      rw [testBit_shiftRight, testBit_shiftRight]
      exact hbits (14 + i) (by omega)
    obtain ⟨hrow, hbank⟩ := rowAddress_bankSelector_of_div hconf hdiv
    have hselector : conf.tileSelector a = conf.tileSelector b := by
      rw [tileSelector_eq hconf, tileSelector_eq hconf, tileId_inj hconf hnear hrow hbank]
    rw [testBit_xor, testBit_xor, testBit_xor, testBit_xor, testBit_shiftRight,
      testBit_shiftRight, testBit_shiftRight, testBit_shiftRight, hbits (12 + 0) (by decide),
      hbits (14 + 0) (by decide), hbank, hselector]
  obtain ⟨hrow, hbank⟩ := rowAddress_bankSelector_of_div hconf (congrArg (· / 16384) h)
  have hid := tileId_inj hconf hnear hrow hbank
  have hpart := partitionSelector_eq conf a
  have hpart' := partitionSelector_eq conf b
  rw [joinedAddress_eq hconf, joinedAddress_eq hconf, hrow, hbank] at h
  have hlow : a % 32 = b % 32 := by omega
  have hline0 : conf.lineOffsetInTile a % 4 = conf.lineOffsetInTile b % 4 := by omega
  have hpartition : conf.partitionSelector a = conf.partitionSelector b := by omega
  have hcolumn : conf.lineOffsetInTile a / 8 * 8 + a / 32 % 8 = conf.lineOffsetInTile b / 8 * 8 + b / 32 % 8 := by omega
  clear h hrow hbank
  have hhigh : a / 32 % 8 = b / 32 % 8 := by omega
  have hline1 : conf.lineOffsetInTile a / 4 % 2 = conf.lineOffsetInTile b / 4 % 2 := by omega
  apply address_ext hconf ha hb hid
  · omega
  · omega

/-- The last five bits stay. -/
theorem tileAddress_mod (a : Nat) : conf.tileAddress a % 32 = a % 32 := by
  have hbit (c : Nat) : (c &&& 1) <<< 9 % 2 ^ 5 = 0 ∧ (c &&& 1) <<< 10 % 2 ^ 5 = 0 := by
    rw [shiftLeft_eq, shiftLeft_eq]
    omega
  show _ % 2 ^ 5 = _
  rw [tileAddress, xor_mod_two_pow, (hbit _).2, xor_zero, xor_mod_two_pow, (hbit _).1, xor_zero, joinedAddress_eq hconf]
  omega

theorem tileAddress_lt (a : Nat) : conf.tileAddress a < 0x100000000 := by
  have hbit (c : Nat) : (c &&& 1) <<< 9 < 2 ^ 32 ∧ (c &&& 1) <<< 10 < 2 ^ 32 := by
    rw [shiftLeft_eq, shiftLeft_eq, and_one_is_mod]
    omega
  exact xor_lt_two_pow (xor_lt_two_pow (joinedAddress_lt hconf a) (hbit _).1) (hbit _).2

end

end Rpcsx.Rsx.DetilerConfig
