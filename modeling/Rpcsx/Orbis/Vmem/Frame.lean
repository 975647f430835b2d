import Rpcsx.Lib.Run
import Rpcsx.Orbis.Vmem.Translation

/-!
# Fixed `map` and the places of file-backed memory

The condition under which a fixed `map` leaves file-backed translation alone outside its range, as
a condition on the table before the call.
-/

namespace Rpcsx.Orbis

open Lib Rx Rpcsx.Kernel AllocableResource VirtualMemoryAllocation MemoryTableWithPayload Option

section Frame

variable {t t' : VirtualMemoryResource}

/-! ## The condition

It looks at the area before the range, cut off at `b`, and at the area after the range, cut off at
`e`. -/

/-- The record above a cut `n` bytes into an area. -/
def recordAbove (d : VirtualMemoryAllocation) (n : Nat) : VirtualMemoryAllocation :=
  (remainder cut d n).getD d

def leftOf (t : VirtualMemoryResource) (b : Nat) : Option (AddressRange × VirtualMemoryAllocation) :=
  (t.prevArea b).map fun x => (⟨x.1.beginAddress, min x.1.endAddress b⟩, x.2)

def rightOf (t : VirtualMemoryResource) (e : Nat) : Option (AddressRange × VirtualMemoryAllocation) :=
  (t.firstAbove e).map fun x =>
    if x.1.beginAddress < e then (⟨e, x.1.endAddress⟩, recordAbove x.2 (e - x.1.beginAddress)) else x

/-- The record that a cut at `e` makes is not the one of the area that follows. -/
def CutOk (t : VirtualMemoryResource) (e : Nat) : Prop :=
  ∀ n pn p, t.firstAbove e = some (n, pn) → n.beginAddress < e →
    remainder cut pn (e - n.beginAddress) = some p → t.valueAt n.endAddress ≠ some p

/-- What a fixed `map` of `[b, e)` must satisfy to keep the places outside. -/
def FrameOk (t : VirtualMemoryResource) (b e : Nat) (info : VirtualMemoryAllocation) (noMerge : Bool) : Prop :=
  CutOk t e ∧ (noMerge = false → MergeOk t (leftOf t b) (rightOf t e) b e info)

variable {d p : VirtualMemoryAllocation}

theorem fileBacked_of_remainder {n : Nat} (h : remainder cut d n = some p) : d.fileBacked ∧ cut d n = some p := by
  unfold remainder at h
  split at h
  · next hd =>
    refine ⟨?_, h⟩
    unfold cut at h
    split at h
    · cases h
    · next hfile =>
      have hsome : d.file.isSome := by
        cases hf : d.file with
        | none => rw [hf] at hfile; exact absurd rfl hfile
        | some file => rfl
      exact Bool.and_eq_true_iff.mpr ⟨hd, hsome⟩
  · cases h

theorem cut_ne {n : Nat} (h : cut d n = some p) (hn : 0 < n) (hn' : n < 2 ^ 64) : d ≠ p := by
  rintro rfl
  unfold cut at h
  split at h
  · cases h
  have hoff := congrArg VirtualMemoryAllocation.deviceOffset (some.inj h)
  dsimp only [u64] at hoff
  omega

/-! ## The table before `merge` -/

variable {t₁ t₂ : VirtualMemoryResource} {b e : Nat} {info : VirtualMemoryAllocation}

variable {a : Nat} {pn : VirtualMemoryAllocation} {n : AddressRange}

section

variable (hcut : CutAbove cut t t₁ e) (hassigned : Assigned t₁ t₂ b e info) (hwf : t.WF)

include hcut hassigned hwf

/-- Below the range the second table is the old one. -/
theorem second_below (hbe : b < e) (ha : a < b) : t₂.areaOf a = t.areaOf a := by
  rw [hassigned.below a ha]
  rcases hcut with ⟨rfl, -⟩ | ⟨k, k', d, p, it, -, -, hek, -, hmap⟩
  · rfl
  obtain ⟨t', hmap', -, harea⟩ := hwf.map_spec hek p true
  rw [hmap] at hmap'
  cases hmap'
  rw [harea, mappedArea, if_pos (by omega)]

/-- Above it areas are cut off at `e`, with the record that belongs there. -/
theorem second_above (hbound : e < 2 ^ 64) (hok : CutOk t e) {k k' : Nat} (hk : t.IsArea k k' d)
    (hea : e ≤ a) (hka : k ≤ a) (hak : a < k') :
    t₂.areaOf a = some (max k e, if k < e then recordAbove d (e - k) else d) := by
  rw [hassigned.above a hea]
  rcases hcut with ⟨rfl, hnone⟩ | ⟨j, j', dj, p, it, hj, hje, hej, hrem, hmap⟩
  · rw [hk.areaOf_eq hka hak, map_some]
    split
    · next hke => rw [recordAbove, hnone k k' d hk hke (by omega)]; rfl
    · rfl
  obtain ⟨t', hmap', -, harea⟩ := hwf.map_spec hej p true
  rw [hmap] at hmap'
  cases hmap'
  obtain ⟨-, hcutp⟩ := fileBacked_of_remainder hrem
  have hbefore : valueBefore t e ≠ some p := by
    obtain ⟨i, rfl⟩ : ∃ i, e = i + 1 := ⟨e - 1, by omega⟩
    rw [valueBefore, areaBefore_succ, hj.areaOf_eq (by omega) (by omega)]
    exact fun h => cut_ne hcutp (by omega) (by omega) (some.inj h)
  rw [harea, mappedArea, if_neg (by omega), mergedBegin_of_ne hbefore]
  by_cases haj : a < j'
  · -- the part of the area that was cut
    rw [if_pos haj]
    have heq := hj.areaOf_eq (a := a) (by omega) haj
    rw [hk.areaOf_eq hka hak] at heq
    cases heq
    rw [map_some, if_pos hje, recordAbove, hrem, max_self, max_eq_right hje.le]
    rfl
  have hjk : j' ≤ k := by
    rcases whole_of_edges hj hj hk with h | h | h
    · omega
    · exact h
    · omega
  rw [if_neg haj, hk.areaOf_eq hka hak]
  dsimp only
  rw [if_neg (by omega : ¬ k < e)]
  by_cases hlt : j' < k
  · rw [if_pos hlt]; rfl
  obtain rfl : j' = k := by omega
  have hfirst := hj.firstAbove_eq hwf hej fun x h1 h2 => by omega
  have hne : d ≠ p := by
    rintro rfl
    refine hok _ _ d hfirst hje hrem ?_
    exact valueAt_eq_some.mpr ⟨j', hk.areaOf_begin⟩
  rw [if_neg hlt, if_neg (fun h => hne h.2)]
  rfl

theorem second_above_none (hea : e ≤ a) (hnone : t.areaOf a = none) : t₂.areaOf a = none := by
  rw [hassigned.above a hea]
  rcases hcut with ⟨rfl, -⟩ | ⟨j, j', dj, p, it, hj, hje, hej, -, hmap⟩
  · rw [hnone]; rfl
  obtain ⟨t', hmap', -, harea⟩ := hwf.map_spec hej p true
  rw [hmap] at hmap'
  cases hmap'
  have haj : ¬ a < j' := by
    intro haj
    rw [hj.areaOf_eq (by omega) haj] at hnone
    cases hnone
  rw [harea, mappedArea, if_neg (by omega), if_neg haj, hnone]
  rfl

/-- So outside the range it has the same places. -/
theorem second_location (hbe : b < e) (hbound : e < 2 ^ 64) (hok : CutOk t e)
    (ha : a ∉ AddressRange.mk b e) : location t₂ a = location t a := by
  by_cases hab : a < b
  · rw [location, location, second_below hcut hassigned hwf hbe hab]
  have hea : e ≤ a := by
    by_contra hlt
    exact ha ⟨not_lt.mp hab, not_le.mp hlt⟩
  cases hA : t.areaOf a with
  | none => rw [location, location, second_above_none hcut hassigned hwf hea hA, hA]
  | some x =>
    obtain ⟨k', hk, hka, hak⟩ := hwf.areaOf_eq_some.mp hA
    rw [location, second_above hcut hassigned hwf hbound hok hk hea hka hak, location_eq hk hka hak, bind_some]
    by_cases hke : x.1 < e
    · rw [if_pos hke, max_eq_right hke.le, recordAbove]
      cases hrem : remainder cut x.2 (e - x.1) with
      | none =>
        rw [getD_none]
        -- without a record of its own the part above the cut is not file-backed
        have hfb : x.2.fileBacked = false := by
          by_contra hfb
          have hfb : x.2.fileBacked := by simpa using hfb
          obtain ⟨hal, hfile⟩ := Bool.and_eq_true_iff.mp hfb
          rw [remainder, isAllocated_eq, if_pos hal, cut, if_neg] at hrem
          · cases hrem
          · cases hf : x.2.file with
            | none => rw [hf] at hfile; cases hfile
            | some file => simp
        rw [locate_eq_none hfb, locate_eq_none hfb]
      | some p =>
        rw [getD_some, locate_cut (fileBacked_of_remainder hrem).2]
        congr 1
        omega
    rw [if_neg hke, max_eq_left (not_lt.mp hke)]

/-- The area before the range in the second table. -/
theorem second_prevArea (hbe : b < e) : t₂.prevArea b = leftOf t b := by
  have hbelow : ∀ a, a < b → t₂.areaOf a = t.areaOf a := fun a ha => second_below hcut hassigned hwf hbe ha
  unfold leftOf
  cases hp : t.prevArea b with
  | none =>
    cases hp' : t₂.prevArea b with
    | none => rfl
    | some x =>
      obtain ⟨hx, hxb, -⟩ := hassigned.wf.prevArea_eq_some hp'
      have hnone := hwf.prevArea_eq_none hp hxb
      rw [← hbelow _ hxb, hx.areaOf_begin] at hnone
      cases hnone
  | some x =>
    obtain ⟨⟨l, l'⟩, pl⟩ := x
    obtain ⟨hl, hlb, hgap⟩ := hwf.prevArea_eq_some hp
    dsimp only at hl hlb hgap
    have hlt := hl.lt
    have hl2 : t₂.IsArea l (min l' b) pl := by
      refine hassigned.wf.isArea_of_areaOf (lt_min hlt hlb) (fun a h1 h2 => ?_) fun h => ?_
      · rw [hbelow a (lt_of_lt_of_le h2 (min_le_right _ _)), hl.areaOf_eq h1 (lt_of_lt_of_le h2 (min_le_left _ _))]
      rcases le_or_gt b l' with hle | hle
      · rw [min_eq_right hle, hassigned.isArea.areaOf_begin] at h
        cases h
        exact lt_irrefl _ hlb
      rw [min_eq_left hle.le, hbelow l' hle] at h
      have := edge_of_isArea hwf hl h
      omega
    refine hl2.prevArea_eq hassigned.wf hlb fun x h1 h2 => ?_
    rw [hbelow x h2]
    refine hgap x ?_ h2
    rcases min_le_iff.mp h1 with h | h
    · exact h
    · omega

/-- The area after it. -/
theorem second_firstAbove (hbound : e < 2 ^ 64) (hok : CutOk t e) : t₂.firstAbove e = rightOf t e := by
  unfold rightOf
  cases hn : t.firstAbove e with
  | none =>
    cases hn' : t₂.firstAbove e with
    | none => rfl
    | some x =>
      obtain ⟨hx, hxe, -⟩ := hassigned.wf.firstAbove_eq_some hn'
      have hnone := second_above_none hcut hassigned hwf (le_max_left e x.1.beginAddress)
        (hwf.firstAbove_eq_none hn (le_max_left _ _))
      rw [hx.areaOf_eq (le_max_right _ _) (max_lt hxe hx.lt)] at hnone
      cases hnone
  | some x =>
    obtain ⟨⟨n, n'⟩, pn⟩ := x
    obtain ⟨hn, hen, hgap⟩ := hwf.firstAbove_eq_some hn
    dsimp only at hn hen hgap
    have hnn := hn.lt
    have hn2 : t₂.IsArea (max n e) n' (if n < e then recordAbove pn (e - n) else pn) := by
      refine hassigned.wf.isArea_of_areaOf (max_lt hnn hen) (fun a h1 h2 => ?_) fun h => ?_
      · obtain ⟨h3, h4⟩ := max_le_iff.mp h1
        exact second_above hcut hassigned hwf hbound hok hn h4 h3 h2
      · cases hA : t.areaOf n' with
        | none =>
          rw [second_above_none hcut hassigned hwf hen.le hA] at h
          cases h
        | some y =>
          obtain rfl := edge_of_isArea hwf hn hA
          obtain ⟨k', hk, -, -⟩ := hwf.areaOf_eq_some.mp hA
          rw [second_above hcut hassigned hwf hbound hok hk hen.le (le_refl _) hk.lt] at h
          have := (Prod.mk.inj (some.inj h)).1
          omega
    have hfirst := hn2.firstAbove_eq hassigned.wf hen fun x h1 h2 =>
      second_above_none hcut hassigned hwf h1 (hgap x h1 (by
        rcases lt_max_iff.mp h2 with h | h
        · exact h
        · omega))
    rw [hfirst, map_some]
    by_cases hne : n < e
    · simp only [if_pos hne, max_eq_right hne.le]
    · simp only [if_neg hne, max_eq_left (not_lt.mp hne)]

end

/-! ## The call -/

/-- `MergeOk` reads three records of the table. -/
theorem mergeOk_congr {left right : Option (AddressRange × VirtualMemoryAllocation)}
    (hbefore : ∀ q, q ≤ b → valueBefore t₂ q = valueBefore t q)
    (hleft : ∀ l pl, left = some (l, pl) → l.beginAddress ≤ b)
    (hright : ∀ n pn, right = some (n, pn) → t₂.valueAt n.endAddress = t.valueAt n.endAddress) :
    MergeOk t₂ left right b e info ↔ MergeOk t left right b e info := by
  have hnext : ∀ q p, q ≤ b → (NextOk t₂ right q e p ↔ NextOk t right q e p) := by
    intro q p hq
    refine forall_congr' fun n => forall_congr' fun pn => forall_congr' fun hn => ?_
    rw [hbefore q hq, hright n pn hn]
  cases left with
  | none => simp only [MergeOk, hnext b info (le_refl b)]
  | some x =>
    have hl := hleft x.1 x.2 rfl
    simp only [MergeOk, hnext b info (le_refl b), hnext _ x.2 hl, hbefore _ hl]

theorem second_valueBefore (hcut : CutAbove cut t t₁ e) (hassigned : Assigned t₁ t₂ b e info)
    (hwf : t.WF) (hbe : b < e) {q : Nat} (hq : q ≤ b) : valueBefore t₂ q = valueBefore t q := by
  unfold valueBefore
  cases q with
  | zero => rw [areaBefore_zero, areaBefore_zero]
  | succ a =>
    rw [areaBefore_succ, areaBefore_succ, second_below hcut hassigned hwf hbe hq]

/-- At and above the end of the area after the range nothing has changed. -/
theorem second_valueAt (hcut : CutAbove cut t t₁ e) (hassigned : Assigned t₁ t₂ b e info)
    (hwf : t.WF) (hbound : e < 2 ^ 64) (hok : CutOk t e)
    (hn : t.firstAbove e = some (n, pn)) :
    t₂.valueAt n.endAddress = t.valueAt n.endAddress := by
  obtain ⟨hn, hen, -⟩ := hwf.firstAbove_eq_some hn
  unfold valueAt
  cases hA : t.areaOf n.endAddress with
  | none => rw [second_above_none hcut hassigned hwf hen.le hA]
  | some y =>
    have hy : y.1 = n.endAddress := edge_of_isArea hwf hn hA
    obtain ⟨k', hk, h1, h2⟩ := hwf.areaOf_eq_some.mp hA
    rw [second_above hcut hassigned hwf hbound hok hk hen.le h1 h2, if_neg (by omega)]
    rfl

/-- When the cut makes the record of the next area, the two are one area from then on. -/
theorem second_fused (hcut : CutAbove cut t t₁ e) (hassigned : Assigned t₁ t₂ b e info) (hwf : t.WF)
    (hn : t.firstAbove e = some (n, pn)) (hne : n.beginAddress < e)
    (hrem : remainder cut pn (e - n.beginAddress) = some p) (hnext : t.valueAt n.endAddress = some p) :
    (t₂.areaOf e).isSome ∧ t₂.areaOf e = t₂.areaOf n.endAddress := by
  obtain ⟨hn, hen, -⟩ := hwf.firstAbove_eq_some hn
  rcases hcut with ⟨-, hnone⟩ | ⟨j, j', dj, p', it, hj, hje, hej, hrem', hmap⟩
  · rw [hnone _ _ _ hn hne hen] at hrem
    cases hrem
  have heq := hn.areaOf_eq (a := e) hne.le hen
  rw [hj.areaOf_eq hje.le hej] at heq
  cases heq
  obtain ⟨rfl, -⟩ := hj.unique hn
  rw [hrem] at hrem'
  cases hrem'
  obtain ⟨t', hmap', -, harea⟩ := hwf.map_spec hej p true
  rw [hmap] at hmap'
  cases hmap'
  obtain ⟨k, hk⟩ := valueAt_eq_some.mp hnext
  have hkn := edge_of_isArea hwf hn hk
  rw [hassigned.above e (le_refl e), hassigned.above _ hen.le, harea, harea,
    mappedArea, mappedArea, if_neg (lt_irrefl e),
    if_pos hej, if_neg (by omega), if_neg (lt_irrefl _), hk]
  simp [hkn]

/-- **A fixed `map` on any table.** It returns, and outside its range file-backed addresses stand for
the same places as before exactly when the range was refused or `FrameOk` held. -/
theorem fixed_map_keeps_places_iff {flags : AllocationFlags} {alignment : Nat}
    (info : VirtualMemoryAllocation) (hwf : t.WF) (hbound : ∀ a, (t.areaOf a).isSome = true → a < 0x10000000000000000)
    (hcall : FixedCall b e flags alignment) : ∃ t' res, map t b (e - b) info flags alignment = some (t', res) ∧
      (Stable t t' ⟨b, e⟩ ↔ (Accepts t b e flags → FrameOk t b e info flags.NoMerge)) := by
  have hbe := hcall.lt
  have he64 := hcall.bound
  by_cases hacc : Accepts t b e flags
  swap
  · obtain ⟨errc, hmap⟩ := map_of_not_accepts info hcall hwf hacc
    exact ⟨t, _, hmap, fun _ h => absurd h hacc, fun _ a _ place hloc => hloc⟩
  obtain ⟨t₁, t₂, -, hcut, hassigned, hmap⟩ :=
    map_of_accepts info cutsRight hcall hwf hacc
  have hbound₂ : ∀ a, (t₂.areaOf a).isSome → a < 0x10000000000000000 := by
    intro a ha
    by_cases hea : e ≤ a
    · refine hbound a ?_
      cases hA : t.areaOf a with
      | none => rw [second_above_none hcut hassigned hwf hea hA] at ha; exact ha
      | some x => rfl
    · omega
  obtain ⟨t₃, it₃, hmerge, hwf₃, hcoarser, hiff⟩ := merge_spec hassigned.wf hassigned.isArea hbound₂
  rw [hmap]
  simp only [hacc, true_implies]
  by_cases hok : CutOk t e
  · have hloc : ∀ a, a ∉ AddressRange.mk b e → location t₂ a = location t a :=
      fun a ha => second_location hcut hassigned hwf hbe he64 hok ha
    cases hno : flags.NoMerge with
    | true =>
      refine ⟨t₂, _, rfl, fun _ => ⟨hok, fun h => by cases h⟩, fun _ a ha place h => ?_⟩
      rw [hloc a ha]
      exact h
    | false =>
      refine ⟨t₃, ⟨some it₃, none, ⟨b, e⟩⟩, by rw [mergeUnless, if_neg (by simp), hmerge]; rfl, ?_⟩
      have hsame : Stable t t₃ ⟨b, e⟩ ↔ Stable t₂ t₃ ⟨b, e⟩ :=
        forall_congr' fun a => forall_congr' fun ha => by rw [hloc a ha]
      rw [hsame, hiff, second_prevArea hcut hassigned hwf hbe,
        second_firstAbove hcut hassigned hwf he64 hok, mergeOk_congr]
      · exact ⟨fun h => ⟨hok, fun _ => h⟩, fun h => h.2 rfl⟩
      · exact fun q hq => second_valueBefore hcut hassigned hwf hbe hq
      · intro l pl hl
        obtain ⟨x, hx, hlx⟩ := map_eq_some_iff.mp hl
        cases hlx
        exact (hwf.prevArea_eq_some hx).2.1.le
      intro n pn hn
      obtain ⟨x, hx, hnx⟩ := map_eq_some_iff.mp hn
      have hend : n.endAddress = x.1.endAddress := by
        split at hnx
        · cases hnx; rfl
        · cases hnx; rfl
      rw [hend]
      exact second_valueAt hcut hassigned hwf he64 hok hx
  -- the cut has fused two areas that stand for different places
  have hcon : ¬ FrameOk t b e info flags.NoMerge := fun h => hok h.1
  simp only [CutOk, not_forall, not_not, exists_prop] at hok
  obtain ⟨n, pn, p, hn, hne, hrem, hnext⟩ := hok
  obtain ⟨hn', hen, -⟩ := hwf.firstAbove_eq_some hn
  obtain ⟨hsome, hsame⟩ := second_fused hcut hassigned hwf hn hne hrem hnext
  obtain ⟨hfb, hcutp⟩ := fileBacked_of_remainder hrem
  obtain ⟨k, hk⟩ := valueAt_eq_some.mp hnext
  have hkn := edge_of_isArea hwf hn' hk
  obtain ⟨file, -, hlocate⟩ := locate_of_fileBacked hfb
  have hloc : location t e = p.locate 0 := by rw [location_eq hn' hne.le hen, locate_cut hcutp, Nat.add_zero]
  have hloc' : location t n.endAddress = p.locate 0 := by rw [location, hk, bind_some, hkn, Nat.sub_self]
  have hp : p.locate 0 = some (file, u64 (pn.deviceOffset + (e - n.beginAddress + 0))) := by
    rw [locate_cut hcutp, hlocate]
  have hclash : ∀ t₄ : VirtualMemoryResource, t₄.WF → Coarser t₂ t₄ → ¬ Stable t t₄ ⟨b, e⟩ := by
    intro t₄ hwf₄ hcoarser₄
    obtain ⟨hsome₄, hsame₄⟩ := hcoarser₄ e n.endAddress hsome hsame
    exact not_stable_of_same hwf₄ (fun h => lt_irrefl _ h.2) (fun h => lt_asymm h.2 hen) hen
      (hbound _ (by rw [hk]; rfl)) hsome₄ hsame₄ (hloc.trans hp) (hloc'.trans hp)
  cases hno : flags.NoMerge with
  | true =>
    rw [hno] at hcon
    exact ⟨t₂, _, rfl, iff_of_false (hclash t₂ hassigned.wf fun _ _ h1 h2 => ⟨h1, h2⟩) hcon⟩
  | false =>
    rw [hno] at hcon
    exact ⟨t₃, ⟨some it₃, none, ⟨b, e⟩⟩, by rw [mergeUnless, if_neg (by simp), hmerge]; rfl,
      iff_of_false (hclash t₃ hwf₃ hcoarser) hcon⟩

/-! ## Two mappings of one file -/

def fileArea (deviceOffset : Nat) : VirtualMemoryAllocation where
  flagsEx := { Allocated := true }
  prot := { CpuRead := true }
  file := some ⟨1, {}, false⟩
  deviceOffset := deviceOffset
  name := "/a"

/-- The address space of a process in which each range has been mapped, with its record, by a fixed
`map` at page alignment. -/
def mappedAll (calls : List (AddressRange × VirtualMemoryAllocation)) : Option VirtualMemoryResource :=
  (create MemoryTableWithPayload.empty ⟨0x400000, 0x700000000000⟩).bind fun t =>
    calls.foldlM (fun t call => (AllocableResource.map t call.1.beginAddress call.1.size call.2
      { AllocationFlags.none with Fixed := true } vmem.kPageSize).map Prod.fst) t

theorem reachable_mappedAll {calls : List (AddressRange × VirtualMemoryAllocation)}
    (h : mappedAll calls = some t) : Reachable t := by
  obtain ⟨t0, hcreate, hcalls⟩ := bind_eq_some_iff.mp h
  have hreach : Reachable t0 := .single (.create hcreate)
  clear h hcreate
  induction calls generalizing t0 with
  | nil => cases hcalls; exact hreach
  | cons call calls ih =>
    obtain ⟨t₁, hcall, hcalls⟩ := bind_eq_some_iff.mp hcalls
    obtain ⟨⟨t₂, res⟩, hmap, rfl⟩ := map_eq_some_iff.mp hcall
    exact ih t₂ hcalls (hreach.tail (.map hmap))

/-- One mapping of two pages: unmapping the first leaves the second where it was. -/
theorem fixed_map_keeps_places_second_page : ∃ t t' : VirtualMemoryResource, ∃ res, Reachable t ∧
    map t 0x400000 (0x404000 - 0x400000) {}
      { AllocationFlags.none with Fixed := true } vmem.kPageSize = some (t', res) ∧
    location t 0x404000 = some (⟨1, {}, false⟩, 0x4000) ∧ Stable t t' ⟨0x400000, 0x404000⟩ := by
  obtain ⟨t, ht, hareas, hprev, hfirst, hvalue, hloc⟩ : ∃ t, mappedAll [(⟨0x400000, 0x408000⟩, fileArea 0)] = some t ∧
      t.areas = [(⟨0x400000, 0x408000⟩, fileArea 0), (⟨0x408000, 0x700000000000⟩, {})] ∧
      t.prevArea 0x400000 = none ∧ t.firstAbove 0x404000 = some (⟨0x400000, 0x408000⟩, fileArea 0) ∧
      t.valueAt 0x408000 = some {} ∧ location t 0x404000 = some (⟨1, {}, false⟩, 0x4000) :=
    exists_some_and (by decide +kernel)
  have hreach := reachable_mappedAll ht
  have hbound : ∀ a, (t.areaOf a).isSome → a < 0x10000000000000000 := by
    intro a ha
    obtain ⟨x, hx⟩ := isSome_iff_exists.mp ha
    obtain ⟨k', hk, -, hak⟩ := hreach.wf.areaOf_eq_some.mp hx
    have hmem := hreach.wf.mem_areas (r := ⟨x.1, k'⟩).mpr hk
    rw [hareas] at hmem
    simp only [List.mem_cons, Prod.mk.injEq, AddressRange.mk.injEq, List.not_mem_nil, or_false] at hmem
    omega
  have hcall : FixedCall 0x400000 0x404000 { AllocationFlags.none with Fixed := true }
    vmem.kPageSize := ⟨by decide, by decide, rfl, rfl, by decide⟩
  obtain ⟨t', res, hmap, hiff⟩ := fixed_map_keeps_places_iff {} hreach.wf hbound hcall
  refine ⟨t, t', res, hreach, hmap, hloc, hiff.mpr fun _ => ⟨?_, fun _ => ?_⟩⟩
  · intro n pn p hn _ hrem
    rw [hfirst] at hn
    cases hn
    rw [hvalue]
    rintro ⟨⟩
    exact absurd (fileBacked_of_remainder hrem).2 (by decide)
  rw [leftOf, hprev]
  intro h
  cases h

/-- Two mappings that overlap in the file: unmapping the first page of the first one gives the second
page the record that the other mapping has, the two areas become one, and the other mapping's page
stands for the next page of the file. -/
theorem unmap_moves_other_mapping : ∃ t t' : VirtualMemoryResource, ∃ res, Reachable t ∧
    map t 0x400000 (0x404000 - 0x400000) {}
      { AllocationFlags.none with Fixed := true } vmem.kPageSize = some (t', res) ∧
    location t 0x408000 = some (⟨1, {}, false⟩, 0x4000) ∧ location t' 0x408000 = some (⟨1, {}, false⟩, 0x8000) := by
  obtain ⟨t, ht, hcall⟩ : ∃ t, mappedAll [(⟨0x400000, 0x408000⟩, fileArea 0), (⟨0x408000, 0x40c000⟩, fileArea 0x4000)] =
      some t ∧ (map t 0x400000 (0x404000 - 0x400000) {}
        { AllocationFlags.none with Fixed := true } vmem.kPageSize).any fun x =>
          location t 0x408000 = some (⟨1, {}, false⟩, 0x4000) ∧
          location x.1 0x408000 = some (⟨1, {}, false⟩, 0x8000) := exists_some_and (by decide +kernel)
  obtain ⟨⟨t', res⟩, hmap, hloc⟩ := exists_some_and hcall
  exact ⟨t, t', res, reachable_mappedAll ht, hmap, hloc⟩

end Frame

end Rpcsx.Orbis
