import Rpcsx.Lib.BitField
import Rpcsx.Lib.Morton
import Rpcsx.Rsx.Swizzle.Basic

/-!
# The closed form of the swizzled index

`calculate_z_index` weaves the bits of the coordinates, in rounds that take one bit of each axis that
has bits left. As long as the bits fit into a word it is a bijection from the box of the three sizes.
-/

namespace Rpcsx.Rsx

open Lib List Nat Function

variable {l : Axis → Nat} {s s' s'' : ZLoop} {bits bits' : List Axis}

instance : Fintype Axis := ⟨{.x, .y, .z}, fun i => by cases i <;> decide⟩

/-! ## The order of the bits -/

def bitLeft (l : Axis → Nat) (i : Axis) : List Axis := if l i = 0 then [] else [i]

def axesLeft (l : Axis → Nat) : List Axis := bitLeft l .x ++ bitLeft l .y ++ bitLeft l .z

def schedule : Nat → (Axis → Nat) → List Axis
  | 0, _ => []
  | rounds + 1, l => axesLeft l ++ schedule rounds fun i => l i - 1

theorem bitLeft_update {i j : Axis} (n : Nat) (h : i ≠ j) : bitLeft (update l j n) i = bitLeft l i := by
  rw [bitLeft, bitLeft, update_of_ne h]

theorem count_bitLeft (l : Axis → Nat) (i j : Axis) : (bitLeft l j).count i = if j = i ∧ l i ≠ 0 then 1 else 0 := by
  unfold bitLeft
  by_cases hl : l j = 0
  · rw [if_pos hl, if_neg fun h => h.2 (h.1 ▸ hl), count_nil]
  rw [if_neg hl, count_singleton]
  by_cases hij : j = i
  · subst hij
    rw [if_pos (beq_self_eq_true j), if_pos ⟨rfl, hl⟩]
  rw [if_neg (beq_false_of_ne hij ▸ Bool.false_ne_true), if_neg fun h => hij h.1]

theorem count_axesLeft (l : Axis → Nat) (i : Axis) : (axesLeft l).count i = if l i = 0 then 0 else 1 := by
  rw [axesLeft, count_append, count_append, count_bitLeft, count_bitLeft, count_bitLeft]
  cases i <;> simp

variable {n : Nat}

theorem count_schedule (h : ∀ i, l i ≤ n) (i : Axis) : (schedule n l).count i = l i := by
  induction n generalizing l with
  | zero => exact (le_zero.mp (h i)).symm
  | succ n ih =>
    rw [schedule, count_append, count_axesLeft, ih fun j => sub_le_of_le_add (h j)]
    split_ifs <;> omega

theorem length_eq_counts (bits : List Axis) : bits.length = bits.count .x + bits.count .y + bits.count .z := by
  induction bits with
  | nil => rfl
  | cons i bits ih =>
    rw [length_cons, ih]
    cases i <;> simp only [count_cons_self, count_cons_of_ne, ne_eq, reduceCtorEq, not_false_eq_true] <;> omega

/-! ## Rounds -/

def ZLoop.value (s : ZLoop) (rest : List Axis) : Nat :=
  s.offset + 2 ^ s.shiftCount * weave rest s.point

structure Takes (s : ZLoop) (bits : List Axis) (s' : ZLoop) : Prop where
  shift : s'.shiftCount = s.shiftCount + bits.length
  bound : s.offset < 2 ^ s.shiftCount → s'.offset < 2 ^ s'.shiftCount
  value (rest : List Axis) : s.offset < 2 ^ s.shiftCount → s'.value rest = s.value (bits ++ rest)
  box (rest : List Axis) : Box (bits ++ rest) s.point → Box rest s'.point

theorem Takes.refl (s : ZLoop) : Takes s [] s := ⟨rfl, id, fun _ _ => rfl, fun _ => id⟩

theorem Takes.trans (h : Takes s bits s') (h' : Takes s' bits' s'') : Takes s (bits ++ bits') s'' where
  shift := by rw [h'.shift, h.shift, length_append, add_assoc]
  bound hs := h'.bound (h.bound hs)
  value rest hs := by rw [h'.value rest (h.bound hs), h.value _ hs, append_assoc]
  box rest hbox := h'.box rest (h.box _ (by rwa [← append_assoc]))

theorem takeBit_spec (i : Axis) (s : ZLoop) (hshift : s.shiftCount + (bitLeft s.log2 i).length ≤ 32) :
    ∃ s', takeBit i s = some s' ∧ Takes s (bitLeft s.log2 i) s' ∧ s'.log2 = update s.log2 i (s.log2 i - 1) := by
  unfold bitLeft takeBit at *
  by_cases hlog : s.log2 i = 0
  · rw [if_pos hlog, if_pos hlog]
    exact ⟨s, rfl, Takes.refl s, by rw [hlog, Nat.zero_sub, ← hlog, update_eq_self]⟩
  rw [if_neg hlog, length_singleton] at hshift
  rw [if_neg hlog, if_neg hlog, if_pos (show s.shiftCount < 32 by omega)]
  have hbit : (s.point i &&& 1) <<< s.shiftCount = 2 ^ s.shiftCount * (s.point i % 2) := by
    rw [and_one_is_mod, shiftLeft_eq, mul_comm]
  have hpos := Nat.two_pow_pos s.shiftCount
  refine ⟨_, rfl, ⟨rfl, fun hs => ?_, fun rest hs => ?_, fun rest hbox => ?_⟩, rfl⟩
  · have hlt := mul_lt_mul_of_pos_left (mod_lt (s.point i) two_pos) hpos
    rw [← pow_succ] at hlt
    exact or_lt_two_pow (hs.trans (Nat.pow_lt_pow_succ one_lt_two)) (hbit ▸ hlt)
  · simp only [ZLoop.value, singleton_append, weave]
    rw [hbit, or_eq_add' _ hs (dvd_mul_right _ _), shiftRight_one, pow_succ, mul_assoc, mul_add, add_assoc]
  rw [shiftRight_one]
  exact hbox.half

theorem zRound_spec (s : ZLoop) (hshift : s.shiftCount + (axesLeft s.log2).length ≤ 32) :
    ∃ s', zRound s = some s' ∧ Takes s (axesLeft s.log2) s' ∧ s'.log2 = fun i => s.log2 i - 1 := by
  rw [axesLeft, length_append, length_append] at hshift
  obtain ⟨s1, hx, htakes1, hlog1⟩ := takeBit_spec .x s (by omega)
  have hy1 : bitLeft s1.log2 .y = bitLeft s.log2 .y := by rw [hlog1, bitLeft_update _ (by decide)]
  have hshift1 := htakes1.shift
  obtain ⟨s2, hy, htakes2, hlog2⟩ := takeBit_spec .y s1 (by rw [hy1]; omega)
  have hz2 : bitLeft s2.log2 .z = bitLeft s.log2 .z := by
    rw [hlog2, bitLeft_update _ (by decide), hlog1, bitLeft_update _ (by decide)]
  have hshift2 := htakes2.shift
  rw [hy1] at hshift2
  obtain ⟨s3, hz, htakes3, hlog3⟩ := takeBit_spec .z s2 (by rw [hz2]; omega)
  rw [hy1] at htakes2
  rw [hz2] at htakes3
  refine ⟨s3, by simp [zRound, hx, hy, hz], (htakes1.trans htakes2).trans htakes3, ?_⟩
  funext i
  rw [hlog3, hlog2, hlog1]
  cases i <;> rfl

/-- The bits of the order that is left fit into the word, and the coordinates have no others. -/
structure Ready (rounds : Nat) (s : ZLoop) : Prop where
  log (i : Axis) : s.log2 i ≤ rounds
  shift : s.shiftCount + (schedule rounds s.log2).length ≤ 32
  offset : s.offset < 2 ^ s.shiftCount
  box : Box (schedule rounds s.log2) s.point

theorem Ready.turn (h : Ready (n + 1) s) : ∃ s', zRound s = some s' ∧ Ready n s' ∧
      s'.value (schedule n s'.log2) = s.value (schedule (n + 1) s.log2) := by
  have hshift := h.shift
  have hbox := h.box
  rw [schedule, length_append] at hshift
  rw [schedule] at hbox
  obtain ⟨s', hround, htakes, hlog⟩ := zRound_spec s (by omega)
  refine ⟨s', hround, ⟨fun i => ?_, ?_, htakes.bound h.offset, ?_⟩, ?_⟩
  · rw [hlog]
    exact sub_le_of_le_add (h.log i)
  · rw [htakes.shift, hlog]
    omega
  · rw [hlog]
    exact htakes.box _ hbox
  rw [htakes.value _ h.offset, hlog, schedule]

/-- The loop ends when all of the coordinates are used up, and what is left of the order then adds
nothing. -/
theorem zLoop_spec (h : Ready (n + 1) s) : zLoop (n + 1) s = some (s.value (schedule (n + 1) s.log2)) := by
  induction n generalizing s with
  | zero =>
    obtain ⟨s', hround, hready, hvalue⟩ := h.turn
    have hzero := box_nil.mp hready.box
    rw [← hvalue, zLoop, hround]
    simp [hzero, schedule, ZLoop.value, weave]
  | succ n ih =>
    obtain ⟨s', hround, hready, hvalue⟩ := h.turn
    rw [← hvalue, zLoop, hround, Option.bind_eq_bind, Option.bind_some]
    split_ifs with hend
    · have hzero (i : Axis) : s'.point i = 0 := by
        rw [or_eq_zero_iff, or_eq_zero_iff] at hend
        cases i
        exacts [hend.1.1, hend.1.2, hend.2]
      rw [ZLoop.value, weave_zero _ hzero, Nat.mul_zero, add_zero]
    exact ih hready

/-! ## The index -/

def zOrder (a b c : Nat) : List Axis := schedule (max a (max b c) + 1) (perAxis a b c)

theorem perAxis_le (a b c : Nat) (i : Axis) : perAxis a b c i ≤ max a (max b c) + 1 := by
  cases i <;> (simp only [perAxis]; omega)

theorem count_zOrder (a b c : Nat) (i : Axis) : (zOrder a b c).count i = perAxis a b c i :=
  count_schedule (perAxis_le a b c) i

theorem length_zOrder (a b c : Nat) : (zOrder a b c).length = a + b + c := by
  rw [length_eq_counts, count_zOrder, count_zOrder, count_zOrder]
  rfl

variable {a b c : Nat}

theorem box_zOrder {p : Axis → Nat} : Box (zOrder a b c) p ↔ p .x < 2 ^ a ∧ p .y < 2 ^ b ∧ p .z < 2 ^ c := by
  simp only [Box, count_zOrder]
  exact ⟨fun h => ⟨h .x, h .y, h .z⟩, fun h i => by cases i; exacts [h.1, h.2.1, h.2.2]⟩

/-- `calculate_z_index` weaves the coordinates. -/
theorem calculateZIndex_eq {x y z : Nat} (hx : x < 2 ^ a) (hy : y < 2 ^ b) (hz : z < 2 ^ c) (hbits : a + b + c ≤ 32) :
    calculateZIndex x y z a b c = some (weave (zOrder a b c) (perAxis x y z)) := by
  have hready : Ready (max a (max b c) + 1) ⟨perAxis x y z, perAxis a b c, 0, 0⟩ :=
    ⟨perAxis_le a b c, (zero_add _).trans_le ((length_zOrder a b c).trans_le hbits), one_pos,
      box_zOrder.mpr ⟨hx, hy, hz⟩⟩
  rw [calculateZIndex, zLoop_spec hready, ZLoop.value, pow_zero, one_mul, zero_add, zOrder]

/-- Every index is that of exactly one texel. -/
theorem calculateZIndex_bijective (hbits : a + b + c ≤ 32) : (∀ x y z, x < 2 ^ a → y < 2 ^ b → z < 2 ^ c →
      ∃ k < 2 ^ (a + b + c), calculateZIndex x y z a b c = some k) ∧ ∀ k < 2 ^ (a + b + c), ∃! p : Nat × Nat × Nat,
      (p.1 < 2 ^ a ∧ p.2.1 < 2 ^ b ∧ p.2.2 < 2 ^ c) ∧ calculateZIndex p.1 p.2.1 p.2.2 a b c = some k := by
  obtain ⟨hmaps, hinj, hsurj⟩ := weave_bijOn (zOrder a b c)
  rw [length_zOrder] at hmaps hsurj
  constructor
  · intro x y z hx hy hz
    exact ⟨_, hmaps (box_zOrder.mpr ⟨hx, hy, hz⟩), calculateZIndex_eq hx hy hz hbits⟩
  intro k hk
  obtain ⟨p, hp, hpk⟩ := hsurj hk
  obtain ⟨hx, hy, hz⟩ := box_zOrder.mp hp
  have hp' : p = perAxis (p .x) (p .y) (p .z) := by
    funext i
    cases i <;> rfl
  refine ⟨(p .x, p .y, p .z), ⟨⟨hx, hy, hz⟩, ?_⟩, ?_⟩
  · rw [calculateZIndex_eq hx hy hz hbits, ← hp', hpk]
  rintro ⟨x, y, z⟩ ⟨⟨hx', hy', hz'⟩, hk'⟩
  rw [calculateZIndex_eq hx' hy' hz' hbits, Option.some.injEq] at hk'
  have hq := hinj (box_zOrder.mpr ⟨hx', hy', hz'⟩) hp (hk'.trans hpk.symm)
  exact Prod.ext (congrFun hq .x) (Prod.ext (congrFun hq .y) (congrFun hq .z))

end Rpcsx.Rsx
