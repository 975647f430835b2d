import Mathlib.Tactic.Ring
import Rpcsx.Lib.Loops
import Rpcsx.Rsx.Swizzle.ZIndex

/-!
# The walk over a swizzled image

`convert_linear_swizzle` never weaves bits. It keeps what the row and the column deposit in the index,
and steps both by subtracting a mask. Behind the bits that both dimensions have, the mask of the column
has all bits; the bits of the row are counted there in the number that a row begins with. The walk
visits the texels at the places of the closed form.
-/

namespace Rpcsx.Rsx

open Lib List Nat

/-! ## Logarithms -/

theorem floorLog2_eq {value : Nat} (hpos : 0 < value) (hlt : value < 2 ^ 32) : floorLog2 value = value.log2 := by
  have hlog : value.log2 < 32 := (log2_lt hpos.ne').mpr hlt
  unfold floorLog2 countlZero
  split_ifs with hone
  · obtain rfl : value = 1 := by omega
    rfl
  have hxor : ∀ n < 32, (31 - n) ^^^ 31 = n := by decide
  exact hxor _ hlog

theorem le_two_pow_ceilLog2 {value : Nat} (hlt : value < 2 ^ 32) : value ≤ 2 ^ ceilLog2 value := by
  rcases Nat.eq_zero_or_pos value with rfl | hpos
  · exact Nat.zero_le _
  have hlog : value < 2 ^ (value.log2 + 1) := lt_log2_self
  unfold ceilLog2
  rw [floorLog2_eq hpos hlt]
  split_ifs with hand
  · exact hlog.le
  obtain ⟨k, rfl⟩ := (and_sub_one_eq_zero_iff_isPowerOfTwo hpos.ne').mp (not_not.mp hand)
  rw [log2_two_pow, add_zero]

theorem ceilLog2_le {value n : Nat} (hn : n < 32) (hle : value ≤ 2 ^ n) : ceilLog2 value ≤ n := by
  rcases Nat.eq_zero_or_pos value with rfl | hpos
  · exact Nat.zero_le _
  unfold ceilLog2
  rw [floorLog2_eq hpos (hle.trans_lt (Nat.pow_lt_pow_right Nat.one_lt_two hn))]
  split_ifs with hand
  · have hne : value ≠ 2 ^ n := by
      rintro rfl
      exact hand ((and_sub_one_eq_zero_iff_isPowerOfTwo hpos.ne').mpr ⟨n, rfl⟩)
    exact (log2_lt hpos.ne').mpr (by omega)
  rw [add_zero, ← Nat.lt_succ_iff]
  exact (log2_lt hpos.ne').mpr (hle.trans_lt (Nat.pow_lt_pow_succ Nat.one_lt_two))

/-! ## The masks -/

def pairs (m : Nat) : List Axis := (replicate m [Axis.x, .y]).flatten

theorem pairs_succ (m : Nat) : pairs (m + 1) = .x :: .y :: pairs m := rfl

theorem length_pairs (m : Nat) : (pairs m).length = 2 * m := by
  induction m with
  | zero => rfl
  | succ m ih =>
    rw [pairs_succ, length_cons, length_cons, ih]
    rfl

theorem count_pairs {i : Axis} (hi : i ≠ .z) (m : Nat) : ((pairs m).map (· == i)).count true = m := by
  induction m with
  | zero => rfl
  | succ m ih =>
    rw [pairs_succ, map_cons, map_cons, count_cons, count_cons, ih]
    cases i
    exacts [rfl, rfl, absurd rfl hi]

def xBits (m : Nat) : List Bool := (pairs m).map (· == .x) ++ replicate (32 - 2 * m) true

def yBits (m : Nat) : List Bool := (pairs m).map (· == .y) ++ replicate (32 - 2 * m) false

theorem xMask_eq : ∀ m < 16, xMask (1#32 <<< (m <<< 1)) = BitVec.ofNat 32 (maskValue (xBits m)) := by decide +kernel

theorem yMask_eq : ∀ m < 16, yMask (1#32 <<< (m <<< 1)) = BitVec.ofNat 32 (maskValue (yBits m)) := by decide +kernel

theorem limit_eq : ∀ m < 16, 1#32 <<< (m <<< 1) = BitVec.ofNat 32 (2 ^ (2 * m)) := by decide +kernel

theorem length_xBits {m : Nat} (hm : m < 16) : (xBits m).length = 32 := by
  rw [xBits, length_append, length_map, length_pairs, length_replicate]
  omega

theorem length_yBits {m : Nat} (hm : m < 16) : (yBits m).length = 32 := by
  rw [yBits, length_append, length_map, length_pairs, length_replicate]
  omega

theorem deposit_xBits (m k : Nat) : deposit (xBits m) k =
    deposit ((pairs m).map (· == .x)) k + 2 ^ (2 * m) * (k / 2 ^ m % 2 ^ (32 - 2 * m)) := by
  rw [xBits, deposit_append, length_map, length_pairs, count_pairs (by decide), deposit_replicate_true]

theorem deposit_yBits (m k : Nat) : deposit (yBits m) k = deposit ((pairs m).map (· == .y)) k := by
  rw [yBits, deposit_append, deposit_replicate_false, Nat.mul_zero, add_zero]

/-! ## The closed form in two dimensions -/

theorem schedule_two {n a b : Nat} (ha : a ≤ n) (hb : b ≤ n) :
    schedule n (perAxis a b 0) = pairs (min a b) ++ replicate (a - min a b) Axis.x ++ replicate (b - min a b) .y := by
  induction n generalizing a b with
  | zero =>
    obtain rfl : a = 0 := by omega
    obtain rfl : b = 0 := by omega
    rfl
  | succ n ih =>
    have hnext : (fun i => perAxis a b 0 i - 1) = perAxis (a - 1) (b - 1) 0 := by
      funext i
      cases i <;> rfl
    rw [schedule, hnext, ih (by omega) (by omega)]
    cases a with
    | zero =>
      cases b with
      | zero => rfl
      | succ b => simp [axesLeft, bitLeft, perAxis, pairs, replicate_succ]
    | succ a =>
      cases b with
      | zero => simp [axesLeft, bitLeft, perAxis, pairs, replicate_succ]
      | succ b =>
        rw [Nat.add_sub_cancel, Nat.add_sub_cancel, Nat.add_min_add_right, Nat.add_sub_add_right,
          Nat.add_sub_add_right, pairs_succ]
        rfl

theorem sum_axis (f : Axis → Nat) : ∑ i, f i = f .x + (f .y + f .z) := by
  rw [← add_zero (f .z)]
  rfl

/-- The bits that only one dimension has are those of a quotient. -/
theorem weave_two {a b x y : Nat} (hx : x < 2 ^ a) (hy : y < 2 ^ b) : weave (zOrder a b 0) (perAxis x y 0) =
      deposit ((pairs (min a b)).map (· == .x)) x + deposit ((pairs (min a b)).map (· == .y)) y +
        2 ^ (2 * min a b) * (x / 2 ^ min a b + y / 2 ^ min a b) := by
  have hquot {k n m : Nat} (hk : k < 2 ^ n) (hm : m ≤ n) : k / 2 ^ m % 2 ^ (n - m) = k / 2 ^ m := by
    rw [mod_eq_of_lt (Nat.div_lt_of_lt_mul (by rwa [← pow_add, Nat.add_sub_cancel' hm]))]
  have hcolumn : deposit ((zOrder a b 0).map (· == .x)) x =
      deposit ((pairs (min a b)).map (· == .x)) x + 2 ^ (2 * min a b) * (x / 2 ^ min a b) := by
    rw [zOrder, schedule_two (by omega) (by omega), map_append, map_append,
      map_replicate, map_replicate, deposit_append, deposit_append, length_map,
      length_pairs, count_pairs (by decide), beq_self_eq_true, show (Axis.y == .x) = false from rfl,
      deposit_replicate_true, deposit_replicate_false, hquot hx (min_le_left a b), Nat.mul_zero,
      add_zero]
  have hrow : deposit ((zOrder a b 0).map (· == .y)) y =
      deposit ((pairs (min a b)).map (· == .y)) y + 2 ^ (2 * min a b) * (y / 2 ^ min a b) := by
    rw [zOrder, schedule_two (by omega) (by omega), append_assoc, map_append, map_append,
      map_replicate, map_replicate, deposit_append, deposit_append, length_map,
      length_pairs, count_pairs (by decide), beq_self_eq_true, show (Axis.x == .y) = false from rfl,
      deposit_replicate_true, deposit_replicate_false, length_replicate, count_replicate,
      if_neg (by decide), Nat.pow_zero, Nat.div_one, hquot hy (min_le_right a b), Nat.zero_add]
    -- one of the dimensions has no bits behind the pairs
    rcases Nat.le_total a b with hab | hba
    · rw [min_eq_left hab, Nat.sub_self, Nat.pow_zero, Nat.one_mul]
    · rw [min_eq_right hba, div_eq_of_lt hy, Nat.mul_zero]
  have hdepth : deposit ((zOrder a b 0).map (· == .z)) 0 = 0 := deposit_eq_zero_iff.mpr (dvd_zero _)
  rw [weave_eq_sum, sum_axis]
  change deposit _ x + (deposit _ y + deposit _ 0) = _
  rw [hcolumn, hrow, hdepth]
  ring

/-! ## Rows -/

def zOffset (a b x y : Nat) : Nat := weave (zOrder a b 0) (perAxis x y 0)

/-- The index of a texel in the linear image; the offset of its row is a word. -/
def linearIndex (pitchInBlocks x y : Nat) : Nat := y * pitchInBlocks % 2 ^ 32 + x

section Rows

variable {a b : Nat} (ha : a ≤ 15) (hb : b ≤ 15)

theorem limitMask_eq (a b : Nat) : limitMask a b = 1#32 <<< (min a b <<< 1) := by
  rw [limitMask]
  split_ifs with h
  · rw [min_eq_left h.le]
  · rw [min_eq_right (not_lt.mp h)]

include ha hb

/-- What the row and the column have deposited is the index. -/
theorem offset_eq {x y : Nat} (hx : x < 2 ^ a) (hy : y < 2 ^ b) :
    (BitVec.ofNat 32 (deposit (yBits (min a b)) y)).toNat +
        (BitVec.ofNat 32 (deposit (xBits (min a b)) (2 ^ min a b * (y / 2 ^ min a b) + x))).toNat =
      zOffset a b x y := by
  have hm : min a b < 16 := by omega
  have hquot {k n : Nat} (hk : k < 2 ^ n) (hn : n ≤ 15) : k / 2 ^ min a b < 2 ^ (32 - 2 * min a b) := by
    refine Nat.div_lt_of_lt_mul (hk.trans_le ?_)
    rw [← pow_add]
    exact Nat.pow_le_pow_right two_pos (by omega)
  have hsum : y / 2 ^ min a b + x / 2 ^ min a b < 2 ^ (32 - 2 * min a b) := by
    rcases Nat.le_total a b with hab | hba
    · have hzero : x / 2 ^ min a b = 0 := div_eq_of_lt (by rwa [min_eq_left hab])
      rw [hzero]
      exact hquot hy hb
    have hzero : y / 2 ^ min a b = 0 := div_eq_of_lt (by rwa [min_eq_right hba])
    rw [hzero, Nat.zero_add]
    exact hquot hx ha
  have hdrop := deposit_mul_add ((pairs (min a b)).map (· == .x)) (y / 2 ^ min a b) x
  rw [count_pairs (by decide)] at hdrop
  have hylt := deposit_lt (yBits (min a b)) y
  have hxlt := deposit_lt (xBits (min a b)) (2 ^ min a b * (y / 2 ^ min a b) + x)
  rw [length_yBits hm] at hylt
  rw [length_xBits hm] at hxlt
  rw [BitVec.toNat_ofNat, BitVec.toNat_ofNat, mod_eq_of_lt hylt, mod_eq_of_lt hxlt,
    deposit_yBits, deposit_xBits, hdrop, mul_add_div (Nat.two_pow_pos _), mod_eq_of_lt hsum,
    zOffset, weave_two hx hy]
  ring

omit ha in
/-- The number that a row begins with. -/
theorem rowStart_eq {y : Nat} (hy : y ≤ 2 ^ b) : deposit (xBits (min a b)) (2 ^ min a b * (y / 2 ^ min a b)) =
      2 ^ (2 * min a b) * (y / 2 ^ min a b) := by
  have hzero : deposit ((pairs (min a b)).map (· == .x)) (2 ^ min a b * (y / 2 ^ min a b)) = 0 := by
    rw [deposit_eq_zero_iff, count_pairs (by decide)]
    exact dvd_mul_right _ _
  have hquot : y / 2 ^ min a b < 2 ^ (32 - 2 * min a b) := by
    refine Nat.div_lt_of_lt_mul (hy.trans_lt ?_)
    rw [← pow_add]
    exact Nat.pow_lt_pow_right Nat.one_lt_two (by omega)
  rw [deposit_xBits, hzero, Nat.mul_div_cancel_left _ (Nat.two_pow_pos _), mod_eq_of_lt hquot, Nat.zero_add]

variable {T : Type} (copy : Nat → Nat → (Nat → T) → Nat → T) {width y : Nat}

/-- The loop over a row visits its texels. -/
theorem walkRow_eq (hw : width ≤ 2 ^ a) (hy : y < 2 ^ b) (row : BitVec 32) (out : Nat → T) :
    walkRow copy (limitMask a b) width ⟨BitVec.ofNat 32 (deposit (yBits (min a b)) y),
          BitVec.ofNat 32 (deposit (xBits (min a b)) (2 ^ min a b * (y / 2 ^ min a b))), row, out⟩ =
      (BitVec.ofNat 32 (deposit (xBits (min a b)) (2 ^ min a b * (y / 2 ^ min a b) + width)),
        (range width).foldl (fun out x => copy (row.toNat + x) (zOffset a b x y) out) out) := by
  have hm : min a b < 16 := by omega
  unfold walkRow
  induction width with
  | zero => rfl
  | succ x ih =>
    rw [range_succ, foldl_append, foldl_append, ih (by omega), foldl_cons, foldl_nil, foldl_cons, foldl_nil]
    rw [offset_eq ha hb (by omega) hy, limitMask_eq, xMask_eq _ hm, deposit_step (length_xBits hm), add_assoc]

/-- The loop over the rows, after some of them. -/
theorem walk_eq (p : Nat) (hw : width ≤ 2 ^ a) (hy : y ≤ 2 ^ b) (out : Nat → T) :
    (walkStep copy (limitMask a b) width (BitVec.ofNat 32 p))^[y] ⟨0, 0, 0, out⟩ =
      ⟨BitVec.ofNat 32 (deposit (yBits (min a b)) y),
        BitVec.ofNat 32 (deposit (xBits (min a b)) (2 ^ min a b * (y / 2 ^ min a b))), BitVec.ofNat 32 (y * p),
        (range y).foldl (fun out y => (range width).foldl
          (fun out x => copy (linearIndex p x y) (zOffset a b x y) out) out) out⟩ := by
  have hm : min a b < 16 := by omega
  induction y with
  | zero =>
    have hzero (m : List Bool) : deposit m 0 = 0 := deposit_eq_zero_iff.mpr (dvd_zero _)
    rw [Nat.zero_div, Nat.mul_zero, hzero, hzero, Nat.zero_mul]
    rfl
  | succ y ih =>
    rw [Function.iterate_succ_apply', ih (by omega), walkStep, walkRow_eq ha hb copy hw (by omega)]
    rw [limitMask_eq, yMask_eq _ hm, deposit_step (length_yBits hm), Walk.mk.injEq]
    refine ⟨rfl, ?_, ?_, ?_⟩
    · have hlt := deposit_lt (yBits (min a b)) (y + 1)
      rw [length_yBits hm] at hlt
      have hwrap : BitVec.ofNat 32 (deposit (yBits (min a b)) (y + 1)) = 0 ↔ 2 ^ min a b ∣ y + 1 := by
        rw [← BitVec.toNat_inj, BitVec.toNat_ofNat, mod_eq_of_lt hlt, show (0 : BitVec 32).toNat = 0 from rfl,
          deposit_yBits, deposit_eq_zero_iff, count_pairs (by decide)]
      rw [if_congr hwrap rfl rfl, rowStart_eq hb (by omega), rowStart_eq hb hy, Nat.succ_div, limit_eq _ hm]
      split_ifs
      · rw [mul_add, mul_one, BitVec.ofNat_add]
      · rw [add_zero]
    · rw [succ_mul, BitVec.ofNat_add]
    rw [range_succ, foldl_append, foldl_cons, foldl_nil]
    rfl

end Rows

/-! ## The copies -/

def texels (width height : Nat) : List (Nat × Nat) :=
  (range height).flatMap fun y => (range width).map fun x => (x, y)

theorem mem_texels {width height : Nat} {t : Nat × Nat} : t ∈ texels width height ↔ t.1 < width ∧ t.2 < height := by
  obtain ⟨x, y⟩ := t
  simp only [texels, mem_flatMap, mem_range, mem_map, Prod.mk.injEq]
  constructor
  · rintro ⟨y', hy, x', hx, rfl, rfl⟩
    exact ⟨hx, hy⟩
  rintro ⟨hx, hy⟩
  exact ⟨y, hy, x, hx, rfl, rfl⟩

variable {T : Type} {width height : Nat}

/-- The conversion copies every texel between its linear index and its index in the closed form. -/
theorem convertLinearSwizzle_eq (hw : width ≤ 32768) (hh : height ≤ 32768) (size pitch : Nat)
    (inputIsSwizzled : Bool) (input output : Nat → T) :
    convertLinearSwizzle size inputIsSwizzled input output width height pitch =
      (texels width height).foldl (fun out t => copyTexel inputIsSwizzled input
        (linearIndex (pitch / size) t.1 t.2) (zOffset (ceilLog2 width) (ceilLog2 height) t.1 t.2) out) output := by
  have ha : ceilLog2 width ≤ 15 := ceilLog2_le (by decide) hw
  have hb : ceilLog2 height ≤ 15 := ceilLog2_le (by decide) hh
  rw [convertLinearSwizzle, walk_eq ha hb _ _ (le_two_pow_ceilLog2 (by omega))
    (le_two_pow_ceilLog2 (by omega)), texels, foldl_flatMap]
  simp only [foldl_map]

end Rpcsx.Rsx
