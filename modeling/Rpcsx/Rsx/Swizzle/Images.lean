import Rpcsx.Rsx.Swizzle.Walk

/-!
# Swizzled images

What a conversion leaves in its output. A linear image is swizzled by writing each texel at the index of
the closed form, and read back from there; in three dimensions there is only the way back.
-/

namespace Rpcsx.Rsx

open Lib Nat List

variable {T : Type} {width height : Nat}

/-! ## Two dimensions -/

variable {x y : Nat}

theorem calculateZIndex_zOffset (hw : width ≤ 32768) (hh : height ≤ 32768) (hx : x < width) (hy : y < height) :
    calculateZIndex x y 0 (ceilLog2 width) (ceilLog2 height) 0 =
      some (zOffset (ceilLog2 width) (ceilLog2 height) x y) := by
  have ha : ceilLog2 width ≤ 15 := ceilLog2_le (by decide) hw
  have hb : ceilLog2 height ≤ 15 := ceilLog2_le (by decide) hh
  exact calculateZIndex_eq (hx.trans_le (le_two_pow_ceilLog2 (by omega)))
    (hy.trans_le (le_two_pow_ceilLog2 (by omega))) one_pos (by omega)

theorem zOffset_injOn (hw : width ≤ 32768) (hh : height ≤ 32768) :
    Set.InjOn (fun t : Nat × Nat => zOffset (ceilLog2 width) (ceilLog2 height) t.1 t.2)
      {t | t ∈ texels width height} := by
  have hbox {t : Nat × Nat} (ht : t ∈ texels width height) :
      Box (zOrder (ceilLog2 width) (ceilLog2 height) 0) (perAxis t.1 t.2 0) := by
    obtain ⟨hx, hy⟩ := mem_texels.mp ht
    exact box_zOrder.mpr ⟨hx.trans_le (le_two_pow_ceilLog2 (by omega)),
      hy.trans_le (le_two_pow_ceilLog2 (by omega)), one_pos⟩
  intro t ht u hu h
  have hpoint := (weave_bijOn _).injOn (hbox ht) (hbox hu) h
  exact Prod.ext (congrFun hpoint .x) (congrFun hpoint .y)

variable (hw : width ≤ 32768) (hh : height ≤ 32768) (size pitch : Nat) (input output : Nat → T)

include hw hh

theorem swizzle_eq_writes : convertLinearSwizzle size false input output width height pitch =
      writes (fun t : Nat × Nat => zOffset (ceilLog2 width) (ceilLog2 height) t.1 t.2)
        (fun t => input (linearIndex (pitch / size) t.1 t.2)) (texels width height) output := by
  rw [convertLinearSwizzle_eq hw hh]
  rfl

theorem unswizzle_eq_writes : convertLinearSwizzle size true input output width height pitch =
      writes (fun t : Nat × Nat => linearIndex (pitch / size) t.1 t.2)
        (fun t => input (zOffset (ceilLog2 width) (ceilLog2 height) t.1 t.2)) (texels width height) output := by
  rw [convertLinearSwizzle_eq hw hh]
  rfl

/-- A linear texel is written at its index. -/
theorem swizzle_apply (hx : x < width) (hy : y < height) :
    convertLinearSwizzle size false input output width height pitch
        (zOffset (ceilLog2 width) (ceilLog2 height) x y) = input (linearIndex (pitch / size) x y) := by
  rw [swizzle_eq_writes hw hh]
  exact writes_of_injOn (zOffset_injOn hw hh) (mem_texels (t := (x, y)).mpr ⟨hx, hy⟩) output

/-- A place of the linear image gets a texel that has this place. Rows may overlap. -/
theorem exists_unswizzle (hx : x < width) (hy : y < height) : ∃ x' < width, ∃ y' < height,
      linearIndex (pitch / size) x' y' = linearIndex (pitch / size) x y ∧
      convertLinearSwizzle size true input output width height pitch (linearIndex (pitch / size) x y) =
          input (zOffset (ceilLog2 width) (ceilLog2 height) x' y') := by
  rw [unswizzle_eq_writes hw hh]
  have h : ∃ t ∈ texels width height, linearIndex (pitch / size) t.1 t.2 =
      linearIndex (pitch / size) x y ∧ _ = input (zOffset (ceilLog2 width) (ceilLog2 height) t.1 t.2) :=
    exists_writes ⟨(x, y), mem_texels.mpr ⟨hx, hy⟩, rfl⟩ output
  obtain ⟨t, ht, hplace, hvalue⟩ := h
  obtain ⟨htx, hty⟩ := mem_texels.mp ht
  exact ⟨t.1, htx, t.2, hty, hplace, hvalue⟩

omit hw hh in
/-- Rows that are not longer than the pitch do not overlap. -/
theorem linearIndex_inj {p x' y' : Nat} (hp : width ≤ p) (hfit : height * p ≤ 2 ^ 32) (hx : x < width) (hy : y < height)
    (hx' : x' < width) (hy' : y' < height) (h : linearIndex p x y = linearIndex p x' y') : x = x' ∧ y = y' := by
  have hrow {v : Nat} (hv : v < height) : v * p < 2 ^ 32 := (mul_lt_mul_of_pos_right hv (by omega)).trans_le hfit
  rw [linearIndex, linearIndex, mod_eq_of_lt (hrow hy), mod_eq_of_lt (hrow hy')] at h
  have hmod := congrArg (· % p) h
  have hdiv := congrArg (· / p) h
  simp only [mul_comm _ p, mul_add_mod, mod_eq_of_lt (hx.trans_le hp), mod_eq_of_lt (hx'.trans_le hp)] at hmod
  simp only [mul_comm _ p, mul_add_div (show 0 < p by omega),
    div_eq_of_lt (hx.trans_le hp), div_eq_of_lt (hx'.trans_le hp), add_zero] at hdiv
  exact ⟨hmod, hdiv⟩

/-- A linear texel is read from its index. -/
theorem unswizzle_apply (hp : width ≤ pitch / size) (hfit : height * (pitch / size) ≤ 2 ^ 32) (hx : x < width)
    (hy : y < height) :
    convertLinearSwizzle size true input output width height pitch (linearIndex (pitch / size) x y) =
      input (zOffset (ceilLog2 width) (ceilLog2 height) x y) := by
  obtain ⟨x', hx', y', hy', hplace, hvalue⟩ := exists_unswizzle hw hh size pitch input output hx hy
  obtain ⟨rfl, rfl⟩ := linearIndex_inj hp hfit hx' hy' hx hy hplace
  exact hvalue

/-- An image that has been swizzled is read back as it was. -/
theorem unswizzle_swizzle (output' : Nat → T) (hx : x < width) (hy : y < height) : convertLinearSwizzle size true
        (convertLinearSwizzle size false input output width height pitch) output' width height pitch
        (linearIndex (pitch / size) x y) = input (linearIndex (pitch / size) x y) := by
  obtain ⟨x', hx', y', hy', hplace, hvalue⟩ := exists_unswizzle hw hh size pitch
    (convertLinearSwizzle size false input output width height pitch) output' hx hy
  rw [hvalue, swizzle_apply hw hh _ _ _ _ hx' hy', hplace]

omit hw hh

/-! ## Three dimensions -/

section Volume

variable {a b c depth : Nat}

def voxel (a b c width height i : Nat) : Nat :=
  weave (zOrder a b c) (perAxis (i % width) (i / width % height) (i / width / height))

def readState (a b c width height : Nat) (input output : Nat → T) (n : Nat) : Nat × (Nat → T) :=
  (n, writes id (fun i => input (voxel a b c width height i)) (range n) output)

variable {y z : Nat}

theorem voxel_eq {x : Nat} (hx : x < width) (hy : y < height) :
    voxel a b c width height ((z * height + y) * width + x) = weave (zOrder a b c) (perAxis x y z) := by
  have hquot : ((z * height + y) * width + x) / width = z * height + y := by
    rw [mul_comm, mul_add_div (by omega), div_eq_of_lt hx, add_zero]
  have hplane : (z * height + y) / height = z := by rw [mul_comm, mul_add_div (by omega), div_eq_of_lt hy, add_zero]
  rw [voxel, hquot, hplane, mul_add_mod', mod_eq_of_lt hx, mul_add_mod', mod_eq_of_lt hy]

variable (hbits : a + b + c ≤ 32) (hwa : width ≤ 2 ^ a) (hhb : height ≤ 2 ^ b) (hdc : depth ≤ 2 ^ c)

include hbits hwa hhb

theorem readTexel_eq {x : Nat} (hx : x < width) (hy : y < height) (hz : z < 2 ^ c) : readTexel input a b c x y z
        (readState a b c width height input output ((z * height + y) * width + x)) =
      some (readState a b c width height input output ((z * height + y) * width + x + 1)) := by
  rw [readTexel, calculateZIndex_eq (hx.trans_le hwa) (hy.trans_le hhb) hz hbits, readState, readState,
    writes, writes, range_succ, foldl_append, foldl_cons, foldl_nil,
    voxel_eq hx hy]
  rfl

theorem readRow_eq (hy : y < height) (hz : z < 2 ^ c) : (range width).foldlM (fun s x => readTexel input a b c x y z s)
        (readState a b c width height input output ((z * height + y) * width)) =
      some (readState a b c width height input output ((z * height + (y + 1)) * width)) := by
  rw [← add_assoc, succ_mul]
  exact foldlM_range (fun x => readState a b c width height input output
    ((z * height + y) * width + x)) fun x hx => readTexel_eq input output hbits hwa hhb hx hy hz

theorem readPlane_eq (hz : z < 2 ^ c) : (range height).foldlM (fun s y => (range width).foldlM
        (fun s x => readTexel input a b c x y z s) s)
        (readState a b c width height input output (z * height * width)) =
      some (readState a b c width height input output ((z + 1) * height * width)) := by
  rw [succ_mul]
  exact foldlM_range (fun y => readState a b c width height input output
    ((z * height + y) * width)) fun y hy => readRow_eq input output hbits hwa hhb hy hz

include hdc

/-- The loops read one texel after the other. -/
theorem readTexels_eq : (range depth).foldlM (fun s z => (range height).foldlM (fun s y =>
      (range width).foldlM (fun s x => readTexel input a b c x y z s) s) s) (0, output) =
      some (readState a b c width height input output (depth * height * width)) := by
  have hstart : (0, output) = readState a b c width height input output (0 * height * width) := by
    rw [Nat.zero_mul, Nat.zero_mul]
    rfl
  rw [hstart]
  exact foldlM_range (fun z => readState a b c width height input output (z * height * width))
    fun z hz => readPlane_eq input output hbits hwa hhb (hz.trans_le hdc)

end Volume

/-- A texel of a volume is read from its index. -/
theorem convertLinearSwizzle3d_spec {depth : Nat} (hw : width ≤ 32768) (hh : height ≤ 32768)
    (hd : depth < 2 ^ 32) (hsize : 0 < size) (hpitch : width * size < 2 ^ 32)
    (hbits : ceilLog2 width + ceilLog2 height + ceilLog2 depth ≤ 32) :
    ∃ out, convertLinearSwizzle3d size input output width height depth = some out ∧
      ∀ x < width, ∀ y < height, ∀ z < depth, out ((z * height + y) * width + x) = input (weave
          (zOrder (ceilLog2 width) (ceilLog2 height) (ceilLog2 depth)) (perAxis x y z)) := by
  unfold convertLinearSwizzle3d
  split_ifs with hone
  · subst hone
    refine ⟨_, rfl, fun x hx y hy z hz => ?_⟩
    obtain rfl : z = 0 := by omega
    have hblocks : width * size % 0x100000000 / size = width := by
      rw [mod_eq_of_lt (show width * size < 0x100000000 from hpitch), Nat.mul_div_cancel _ hsize]
    have hfit : height * width ≤ 2 ^ 32 := (Nat.mul_le_mul hh hw).trans (by decide)
    have hplace : linearIndex width x y = (0 * height + y) * width + x := by
      rw [linearIndex, Nat.zero_mul, zero_add, mod_eq_of_lt]
      exact (mul_lt_mul_of_pos_right hy (by omega)).trans_le hfit
    have happly := unswizzle_apply hw hh size (width * size % 0x100000000) input output
      (hblocks.symm ▸ le_refl width) (hblocks.symm ▸ hfit) hx hy
    rw [hblocks, hplace] at happly
    exact happly
  rw [readTexels_eq input output hbits (le_two_pow_ceilLog2 (by omega))
    (le_two_pow_ceilLog2 (by omega)) (le_two_pow_ceilLog2 hd)]
  refine ⟨_, rfl, fun x hx y hy z hz => ?_⟩
  have hmem : (z * height + y) * width + x ∈ range (depth * height * width) := by
    rw [mem_range]
    calc (z * height + y) * width + x < (z * height + y + 1) * width := by
          rw [succ_mul]
          omega
      _ ≤ ((z + 1) * height) * width := mul_le_mul_right _ (by rw [succ_mul]; omega)
      _ ≤ depth * height * width := mul_le_mul_right _ (mul_le_mul_right _ hz)
  rw [← voxel_eq hx hy]
  exact writes_of_injOn (Set.injOn_id _) hmem output

/-! ## Both ways -/

/-- The swizzled index is a bijection of the box of three sizes that fit into a word. In two dimensions
the conversion of a linear image writes every texel at its index, the conversion of a swizzled one
reads it from there, and the second gives back what the first was given, whatever the pitch; in three
dimensions texels are read in the same way. -/
theorem swizzle_is_morton : (∀ (T : Type) (size pitch width height : Nat) (input output : Nat → T),
      width ≤ 32768 → height ≤ 32768 → (∀ x < width, ∀ y < height, ∃ k < 2 ^ (ceilLog2 width + ceilLog2 height),
          calculateZIndex x y 0 (ceilLog2 width) (ceilLog2 height) 0 = some k ∧
          convertLinearSwizzle size false input output width height pitch k = input (linearIndex (pitch / size) x y) ∧
          (width ≤ pitch / size → height * (pitch / size) ≤ 2 ^ 32 →
            convertLinearSwizzle size true input output width height pitch
              (linearIndex (pitch / size) x y) = input k) ∧ (∃ x' < width, ∃ y' < height, ∃ k',
            linearIndex (pitch / size) x' y' = linearIndex (pitch / size) x y ∧
            calculateZIndex x' y' 0 (ceilLog2 width) (ceilLog2 height) 0 = some k' ∧
            convertLinearSwizzle size true input output width height pitch
              (linearIndex (pitch / size) x y) = input k') ∧ ∀ output' : Nat → T, convertLinearSwizzle size true
            (convertLinearSwizzle size false input output width height pitch) output' width height
            pitch (linearIndex (pitch / size) x y) = input (linearIndex (pitch / size) x y)) ∧
      ∀ k, (∀ x < width, ∀ y < height, calculateZIndex x y 0 (ceilLog2 width) (ceilLog2 height) 0 ≠ some k) →
        convertLinearSwizzle size false input output width height pitch k = output k) ∧
    (∀ a b c : Nat, a + b + c ≤ 32 → (∀ x y z, x < 2 ^ a → y < 2 ^ b → z < 2 ^ c →
        ∃ k < 2 ^ (a + b + c), calculateZIndex x y z a b c = some k) ∧ ∀ k < 2 ^ (a + b + c), ∃! p : Nat × Nat × Nat,
        (p.1 < 2 ^ a ∧ p.2.1 < 2 ^ b ∧ p.2.2 < 2 ^ c) ∧ calculateZIndex p.1 p.2.1 p.2.2 a b c = some k) ∧
    ∀ (T : Type) (size width height depth : Nat) (input output : Nat → T),
      width ≤ 32768 → height ≤ 32768 → depth < 65536 → 0 < size → width * size < 2 ^ 32 →
      ceilLog2 width + ceilLog2 height + ceilLog2 depth ≤ 32 →
      ∃ out, convertLinearSwizzle3d size input output width height depth = some out ∧
        ∀ x < width, ∀ y < height, ∀ z < depth, ∃ k,
          calculateZIndex x y z (ceilLog2 width) (ceilLog2 height) (ceilLog2 depth) = some k ∧
          out ((z * height + y) * width + x) = input k := by
  refine ⟨fun T size pitch width height input output hw hh => ⟨fun x hx y hy => ?_, fun k hk => ?_⟩,
    fun a b c => calculateZIndex_bijective, ?_⟩
  · refine ⟨zOffset (ceilLog2 width) (ceilLog2 height) x y, ?_,
      calculateZIndex_zOffset hw hh hx hy, swizzle_apply hw hh size pitch input output hx hy,
      fun hp hfit => unswizzle_apply hw hh size pitch input output hp hfit hx hy, ?_,
      fun output' => unswizzle_swizzle hw hh size pitch input output output' hx hy⟩
    · exact (weave_lt _ _).trans_eq (by rw [length_zOrder, add_zero])
    obtain ⟨x', hx', y', hy', hplace, hvalue⟩ :=
      exists_unswizzle hw hh size pitch input output hx hy
    exact ⟨x', hx', y', hy', _, hplace, calculateZIndex_zOffset hw hh hx' hy', hvalue⟩
  · rw [swizzle_eq_writes hw hh]
    refine writes_of_forall_ne (fun t ht hplace => ?_) output
    obtain ⟨hx, hy⟩ := mem_texels.mp ht
    exact hk t.1 hx t.2 hy (hplace ▸ calculateZIndex_zOffset hw hh hx hy)
  intro T size width height depth input output hw hh hd hsize hpitch hbits
  obtain ⟨out, hout, hread⟩ := convertLinearSwizzle3d_spec size input output hw hh
    (show depth < 2 ^ 32 by omega) hsize hpitch hbits
  refine ⟨out, hout, fun x hx y hy z hz => ⟨_, ?_, hread x hx y hy z hz⟩⟩
  exact calculateZIndex_eq (hx.trans_le (le_two_pow_ceilLog2 (by omega)))
    (hy.trans_le (le_two_pow_ceilLog2 (by omega))) (hz.trans_le (le_two_pow_ceilLog2 (by omega)))
    hbits

/-- An image of three columns and five rows with a pitch of four texels, a box, and a volume. -/
theorem swizzle_is_morton_small : (∃ k < 32, calculateZIndex 2 4 0 2 3 0 = some k ∧
      convertLinearSwizzle 1 false id (fun _ => 0) 3 5 4 k = linearIndex 4 2 4) ∧
    (∃! p : Nat × Nat × Nat, (p.1 < 4 ∧ p.2.1 < 8 ∧ p.2.2 < 2) ∧ calculateZIndex p.1 p.2.1 p.2.2 2 3 1 = some 37) ∧
    ∃ out, convertLinearSwizzle3d 1 id (fun _ => 0) 2 2 2 = some out ∧
      ∃ k, calculateZIndex 1 0 1 1 1 1 = some k ∧ out 5 = k := by
  obtain ⟨hplane, hbox, hvolume⟩ := swizzle_is_morton
  obtain ⟨hread, -⟩ := hplane Nat 1 4 3 5 id (fun _ => 0) (by decide) (by decide)
  obtain ⟨k, hk, hindex, hvalue, -⟩ := hread 2 (by decide) 4 (by decide)
  obtain ⟨out, hout, hall⟩ := hvolume Nat 1 2 2 2 id (fun _ => 0) (by decide) (by decide) (by decide)
    (by decide) (by decide) (by decide)
  exact ⟨⟨k, hk, hindex, hvalue⟩, (hbox 2 3 1 (by decide)).2 37 (by decide),
    out, hout, hall 1 (by decide) 0 (by decide) 1 (by decide)⟩

/-- The template argument says how the input is: with `true` the texel at column 2 of an image of eight
columns and two rows is not written at its index. Thirty-three bits do not fit into a word. -/
theorem swizzle_not_morton : (calculateZIndex 2 0 0 (ceilLog2 8) (ceilLog2 2) 0 = some 4 ∧
      convertLinearSwizzle 1 true id (fun _ => 0) 8 2 8 4 ≠ linearIndex 8 2 0) ∧
    calculateZIndex 0 0 (2 ^ 10) 11 11 11 = none := by
  refine ⟨⟨by decide +kernel, ?_⟩, by decide +kernel⟩
  decide +kernel

end Rpcsx.Rsx
