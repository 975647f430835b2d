import Rpcsx.Kernel.MemoryResource.Fixed
import Rpcsx.Rx.MemoryTable.Overlap

/-!
# Resources with gaps

A resource whose table has gaps: `merge` may fill them, as it does not look whether two neighbours touch.
What can be said of every operation is that it does not go over the end of the table, and of the search
for a free range that it finds the first one there is.
-/

namespace Rpcsx.Kernel

open Rx AllocationInfo AddressRange MemoryTableWithPayload Option

namespace AllocableResource

def Below {A : Type} (n : Nat) (t : Allocations A) : Prop :=
  ∀ a, (t.areaOf a).isSome = true → a < n

section Below

variable {A : Type} {t t' : Allocations A} {n : Nat} {r : AddressRange} {it : Nat} {merge : Bool}

theorem Below.area_end_le (h : Below n t) {k k' : Nat} {d : A} (harea : t.IsArea k k' d) : k' ≤ n := by
  have hlt := harea.lt
  have hlast := h (k' - 1) (by rw [harea.areaOf_eq (by omega) (by omega)]; rfl)
  omega

/-- Only a range that is not empty can be mapped. -/
theorem lt_of_map [Inhabited A] [DecidableEq A] {info : A} (hmap : t.map r info merge false = some (t', it)) :
    r.beginAddress < r.endAddress := by
  by_contra hr
  have hv : r.isValid = false := by
    rw [← Bool.not_eq_true, isValid_iff]
    exact hr
  simp [MemoryTableWithPayload.map, hv] at hmap

theorem range?_lt (h : t.range? it = some r) : r.beginAddress < r.endAddress := by
  obtain ⟨k, hk, rfl⟩ := map_eq_some_iff.mp h
  obtain ⟨x, hx, rfl⟩ := map_eq_some_iff.mp hk
  have hlt := List.find?_some hx
  exact of_decide_eq_true hlt

theorem Below.of_map [Inhabited A] [DecidableEq A] (h : Below n t) (hwf : t.WF) {info : A}
    (hr : r.endAddress ≤ n) (hmap : t.map r info merge false = some (t', it)) : Below n t' := by
  have hvalid := lt_of_map hmap
  obtain ⟨t1, hmap', -, harea⟩ := hwf.map_spec hvalid info merge
  obtain rfl : t1 = t' := (Prod.mk.inj (some.inj (hmap'.symm.trans hmap))).1
  intro a ha
  rw [harea, mappedArea] at ha
  by_cases hab : a < r.beginAddress
  · rw [if_pos hab] at ha
    exact h a ha
  rw [if_neg hab] at ha
  by_cases hae : a < r.endAddress
  · omega
  rw [if_neg hae] at ha
  apply h a
  cases hA : t.areaOf a with
  | none =>
    rw [hA] at ha
    exact ha
  | some x => rfl

theorem Below.of_setAt (h : Below n t) (hwf : t.WF) {k : Nat} {d : A} (hset : t.setAt k d = some t') : Below n t' := by
  have hset' := hset
  simp only [setAt, bind_eq_some_iff, map_eq_some_iff] at hset'
  obtain ⟨m, hfind, m', hm, -⟩ := hset'
  obtain ⟨d0, hget⟩ : ∃ d0, m.get? = some d0 := by
    cases m with
    | o d0 => exact ⟨d0, rfl⟩
    | x => cases hm
    | xo d0 => exact ⟨d0, rfl⟩
  obtain ⟨k', harea⟩ := hwf.exists_isArea hfind hget
  obtain ⟨t1, hstep, -, hareas⟩ := hwf.setAt_spec harea d
  obtain rfl : t1 = t' := some.inj (hstep.symm.trans hset)
  intro a ha
  rw [hareas] at ha
  split_ifs at ha with hin
  · exact hin.2.trans_le (h.area_end_le harea)
  · exact h a ha

theorem Below.of_updateIn (h : Below n t) (hwf : t.WF) {range : AddressRange}
    {f : AddressRange → A → Option A} (hupdate : t.updateIn range f = some t') : t'.WF ∧ Below n t' := by
  unfold updateIn at hupdate
  generalize t.areasIn range = areas at hupdate
  induction areas generalizing t with
  | nil =>
    cases hupdate
    exact ⟨hwf, h⟩
  | cons x areas ih =>
    rw [List.foldlM_cons, bind_eq_bind, bind_eq_some_iff] at hupdate
    obtain ⟨t1, hstep, hrest⟩ := hupdate
    obtain ⟨d, -, hset⟩ := bind_eq_some_iff.mp hstep
    exact ih (h.of_setAt hwf hset) (hwf.of_setAt hset) hrest

end Below

variable {A : Type} [AllocationInfo A] [Inhabited A] [DecidableEq A] {t t' : Allocations A} {n : Nat}

/-! ## Merging -/

variable {p : A}

/-- Two neighbours, whether they touch or not. -/
theorem joinAt_below (hwf : t.WF) {l l' r r' it : Nat} {p' : A} (hl : t.IsArea l l' p) (hr : t.IsArea r r' p')
    (hle : l' ≤ r) (hit : it = l ∨ it = r) : ∃ t' q q' m, joinAt t l r it = some (t', q) ∧ t'.WF ∧ t'.IsArea q q' m ∧
      (Below n t → Below n t') := by
  cases hj : joins p p' ⟨l, l'⟩ ⟨r, r'⟩ with
  | false =>
    rw [joinAt_of_not_joins hl hr hj]
    obtain rfl | rfl := hit
    · exact ⟨t, _, _, _, rfl, hwf, hl, id⟩
    · exact ⟨t, _, _, _, rfl, hwf, hr, id⟩
  | true =>
    obtain ⟨t', hjoin, hblock⟩ := joinAt_of_joins hwf hl hr hle it hj rfl
    refine ⟨t', _, _, _, hjoin, hblock.wf, hblock.isArea, fun h => ?_⟩
    obtain ⟨i, d, hend⟩ := exists_isArea_fusedEnd hwf hr (AllocationInfo.merge p p' ⟨l, l'⟩ ⟨r, r'⟩)
    exact fun a ha => hblock.lt_of_isSome hend h ha

variable {b e : Nat}

theorem merge_below (hwf : t.WF) (harea : t.IsArea b e p) :
    ∃ t' it, merge t b = some (t', it) ∧ t'.WF ∧ (Below n t → Below n t') := by
  obtain ⟨t1, q, q', m, hprev, hwf1, hq, hbelow1⟩ : ∃ t1 q q' m, joinPrev t b = some (t1, q) ∧ t1.WF ∧
      t1.IsArea q q' m ∧ (Below n t → Below n t1) := by
    cases h : t.prevArea b with
    | none => exact ⟨t, b, e, p, joinPrev_of_none hwf harea h, hwf, harea, id⟩
    | some x =>
      obtain ⟨hr, hlt, -⟩ := hwf.prevArea_eq_some h
      rw [joinPrev_of_some hwf harea h]
      refine joinAt_below hwf hr harea ?_ (.inr rfl)
      exact hr.le_begin harea hlt
  rw [merge_eq_joinNext hprev]
  cases h : t1.firstAbove q' with
  | none => exact ⟨t1, q, joinNext_of_none hwf1 hq h, hwf1, hbelow1⟩
  | some x =>
    obtain ⟨r, d⟩ := x
    obtain ⟨hr, hlt, hgap⟩ := hwf1.firstAbove_eq_some h
    rw [joinNext_of_some hwf1 hq h]
    have hle : q' ≤ r.beginAddress := by
      by_contra hgt
      exact absurd (hq.end_le hr (not_le.mp hgt)) (not_le.mpr hlt)
    obtain ⟨t2, q2, _, _, hjoin, hwf2, -, hbelow2⟩ := joinAt_below (n := n) hwf1 hq hr hle (.inl rfl)
    exact ⟨t2, q2, hjoin, hwf2, fun h => hbelow2 (hbelow1 h)⟩

/-! ## Placing a record -/

omit [AllocationInfo A] [Inhabited A] [DecidableEq A] in
theorem Below.of_assigned (hbelow : Below n t) {info : A} (h : Assigned t t' b e info) (he : e ≤ n) : Below n t' := by
  intro a ha
  by_cases hab : a < b
  · rw [h.below a hab] at ha
    exact hbelow a ha
  by_cases hae : a < e
  · omega
  rw [h.above a (not_lt.mp hae), isSome_map] at ha
  exact hbelow a ha

theorem mergeUnless_below (noMerge : Bool) (hwf : t.WF) (harea : t.IsArea b e p) :
    ∃ t' it, mergeUnless noMerge t b = some (t', it) ∧ t'.WF ∧ (Below n t → Below n t') := by
  cases noMerge with
  | true => exact ⟨t, b, rfl, hwf, id⟩
  | false => exact merge_below hwf harea

theorem place_below (hwf : t.WF) {it it' : Nat} {d : A} (hit : t.IsArea it it' d) (hbe : b < e) (info : A)
    (flags : AllocationFlags) : ∃ t' k, place t it ⟨b, e⟩ info flags = some (t', ⟨some k, none, ⟨b, e⟩⟩) ∧ t'.WF ∧
      (e ≤ n → Below n t → Below n t') := by
  obtain ⟨t1, hassign, hwf1, harea1, hbelow, habove⟩ := assign_spec hwf hit hbe info
  obtain ⟨t2, k, hmerge, hwf2, hbelow2⟩ := mergeUnless_below (n := n) flags.NoMerge hwf1 harea1
  refine ⟨t2, k, ?_, hwf2, fun he h => hbelow2 (h.of_assigned ⟨hwf1, harea1, hbelow, habove⟩ he)⟩
  rw [place_eq, hassign, bind_some, hmerge]
  rfl

/-- A range of the requested size is not trimmed. -/
theorem trimRange_fromBeginSize (b size al : Nat) (flags : AllocationFlags) :
    trimRange size al flags (.fromBeginSize b size) = .fromBeginSize b size := by
  have hle : (fromBeginSize b size).size ≤ size := by
    show u64Sub ((b + size) % 2 ^ 64) b ≤ size
    by_cases hwrap : b ≤ (b + size) % 2 ^ 64
    · rw [u64Sub_of_le hwrap]
      omega
    rw [u64Sub, if_neg hwrap]
    omega
  exact if_neg (not_lt.mpr hle)

section Fixed

/-- Only a range that is not empty can be given a record. -/
theorem isValid_of_place {it : Nat} {r : AddressRange} {info : A} {flags : AllocationFlags} {res : AllocationResult}
    (h : place t it r info flags = some (t', res)) : r.beginAddress < r.endAddress := by
  obtain ⟨x, hassign, -⟩ := bind_eq_some_iff.mp h
  obtain ⟨r', hr', hassign⟩ := bind_eq_some_iff.mp hassign
  split at hassign
  · next heq => exact heq ▸ range?_lt hr'
  · exact lt_of_map hassign

variable (htruncate : truncate (A := A) = none)

include htruncate

/-- **A fixed call** when nobody wants to be told: it is refused unless the table has both ends of the
range, which begins at the next multiple of the alignment. -/
theorem map_fixed_eq (hwf : t.WF) (size : Nat) (info : A) {hint al : Nat} (hb : alignUp hint al = b) :
    (∃ errc, map t hint size info { AllocationFlags.none with Fixed := true } al = some (t, .failed errc) ∧
      ¬((t.areaOf b).isSome = true ∧ (t.areaOf (u64Sub (u64 (b + size)) 1)).isSome = true)) ∨
    ∃ k k' d, t.IsArea k k' d ∧ k ≤ b ∧ b < k' ∧ (t.areaOf (u64Sub (u64 (b + size)) 1)).isSome = true ∧
      map t hint size info { AllocationFlags.none with Fixed := true } al =
        place t k (.fromBeginSize b size) info { AllocationFlags.none with Fixed := true } := by
  unfold map
  simp only [AllocationFlags.none, Bool.false_eq_true, if_false, if_true, hb, hwf.queryArea_eq]
  cases hbegin : t.areaOf b with
  | none => exact .inl ⟨_, rfl, fun h => Bool.false_ne_true h.1⟩
  | some x =>
    obtain ⟨k', harea, h1, h2⟩ := hwf.areaOf_eq_some.mp hbegin
    simp only [map_some, mapFixed, hwf.queryArea_eq]
    cases hlast : t.areaOf (u64Sub (u64 (b + size)) 1) with
    | none => exact .inl ⟨_, rfl, fun h => Bool.false_ne_true h.2⟩
    | some y =>
      refine .inr ⟨x.1, k', x.2, harea, h1, h2, rfl, ?_⟩
      -- nobody wants to be told, and nothing is trimmed
      simp [harea.get?_eq, harea.range?_eq, notify, notifyAll, htruncate, trimRange_fromBeginSize]

/-- Whatever a fixed call does, it stays below the end of the table. -/
theorem map_fixed_below (hwf : t.WF) (hbelow : Below n t) {hint size al : Nat} {info : A} {res : AllocationResult}
    (h : map t hint size info { AllocationFlags.none with Fixed := true } al = some (t', res)) :
    t'.WF ∧ Below n t' := by
  refine ⟨wf_of_edits (map_edits h) hwf, ?_⟩
  obtain ⟨errc, hmap, -⟩ | ⟨k, k', d, harea, -, -, hlast, hmap⟩ := map_fixed_eq htruncate hwf size info
    (rfl : alignUp hint al = _)
  · obtain rfl := (Prod.mk.inj (some.inj (hmap.symm.trans h))).1
    exact hbelow
  rw [hmap] at h
  have hvalid := isValid_of_place h
  obtain ⟨t2, k2, hplace, -, hbelow2⟩ := place_below (n := n) hwf harea hvalid info
    { AllocationFlags.none with Fixed := true }
  obtain rfl := (Prod.mk.inj (some.inj (hplace.symm.trans h))).1
  have hlast := hbelow _ hlast
  change alignUp hint al < u64 (alignUp hint al + size) at hvalid
  rw [u64Sub_of_le (by omega)] at hlast
  exact hbelow2 (show u64 (alignUp hint al + size) ≤ n by omega) hbelow

end Fixed

/-! ## The search -/

def Usable (hint size alignment : Nat) (flags : AllocationFlags) (k k' : Nat) (d : A) : Prop :=
  isAllocated d = false ∧ hasEnoughSpace hint size alignment flags ⟨k, k'⟩ = true

variable {size al : Nat}

section Search

omit [Inhabited A] [DecidableEq A]

theorem isUsable_eq {hint : Nat} {flags : AllocationFlags} {k k' : Nat} {d : A} (h : t.IsArea k k' d) :
    isUsable t hint size al flags k = some (!isAllocated d && hasEnoughSpace hint size al flags ⟨k, k'⟩) := by
  simp [isUsable, h.get?_eq, h.range?_eq]

theorem exists_usable (hwf : t.WF) {hint it : Nat} {flags : AllocationFlags}
    (h : isUsable t hint size al flags it = some true) :
    ∃ it' d, t.IsArea it it' d ∧ Usable hint size al flags it it' d := by
  have hget := h
  simp only [isUsable, bind_eq_bind, bind_eq_some_iff] at hget
  obtain ⟨d, hget, -⟩ := hget
  rw [get?, bind_eq_some_iff] at hget
  obtain ⟨m, hfind, hm⟩ := hget
  obtain ⟨it', hit⟩ := hwf.exists_isArea hfind hm
  rw [isUsable_eq hit, some.injEq, Bool.and_eq_true, Bool.not_eq_true'] at h
  exact ⟨it', d, hit, h⟩

def FirstUsable (t : Allocations A) (hint size alignment : Nat) (flags : AllocationFlags) (c : Nat) : Iter → Prop
  | none => ∀ k k' d, t.IsArea k k' d → c ≤ k → ¬Usable hint size alignment flags k k' d
  | some j => ∃ j' e, t.IsArea j j' e ∧ Usable hint size alignment flags j j' e ∧
      ∀ k k' d, t.IsArea k k' d → c ≤ k → k < j → ¬Usable hint size alignment flags k k' d

/-- **The search upwards** finds the first area that is usable. It starts at a place where no area is
cut, and every turn goes over one area. -/
theorem searchUp_spec (hwf : t.WF) (hint size al : Nat) (flags : AllocationFlags) {fuel c : Nat}
    (hc : ∀ k, t.nextArea c = some k → c ≤ k) (hfuel : t.areasAbove c < fuel) :
    ∃ it, searchUp t (isUsable t hint size al flags) fuel (t.nextArea c) = some it ∧
      FirstUsable t hint size al flags c it ∧ ∀ j ∈ it, c ≤ j := by
  induction fuel generalizing c with
  | zero => omega
  | succ fuel ih =>
    have hfirst := hwf.firstFrom_nextArea c
    cases hnext : t.nextArea c with
    | none =>
      rw [hnext] at hfirst
      refine ⟨none, rfl, fun k k' d hk hck => ?_, nofun⟩
      exact absurd (hfirst k hck) hk.areaOf_ne_none
    | some j =>
      rw [hnext] at hfirst
      obtain ⟨j', e, hj, -, hgap⟩ := hfirst
      have hcj := hc j hnext
      -- nothing begins between `c` and `j`
      have hbefore : ∀ k k' d, t.IsArea k k' d → c ≤ k → ¬k < j := by
        intro k k' d hk hck hkj
        exact absurd (hgap k hck hkj) hk.areaOf_ne_none
      rw [searchUp, isUsable_eq hj, bind_some]
      cases husable : !isAllocated e && hasEnoughSpace hint size al flags ⟨j, j'⟩ with
      | true =>
        simp only [Bool.and_eq_true, Bool.not_eq_true'] at husable
        exact ⟨some j, rfl, ⟨j', e, hj, husable, fun k k' d hk hck hkj => (hbefore k k' d hk hck hkj).elim⟩,
          fun _ hi => some.inj hi ▸ hcj⟩
      | false =>
        have hnot : ¬Usable hint size al flags j j' e := by
          rintro ⟨h1, h2⟩
          rw [h1, h2] at husable
          cases husable
        have hlt := hwf.areasAbove_lt hwf hj hcj le_rfl (fun _ _ => rfl)
        have hstart : ∀ k, t.nextArea j' = some k → j' ≤ k := by
          intro k hk
          have hfirst := hwf.firstFrom_nextArea j'
          rw [hk] at hfirst
          obtain ⟨k', d, hk, hlt, -⟩ := hfirst
          by_contra hkj
          exact absurd (hj.end_le hk (not_le.mp hkj)) (not_le.mpr hlt)
        obtain ⟨it, hsearch, hit, hle⟩ := ih hstart (by omega)
        have hjj' := hj.lt
        refine ⟨it, ?_, ?_, fun i hi => (hcj.trans hjj'.le).trans (hle i hi)⟩
        · rw [if_neg Bool.false_ne_true, hj.iterNext_eq hwf]
          exact hsearch
        have hskip : ∀ k k' d, t.IsArea k k' d → c ≤ k → ¬j' ≤ k → ¬Usable hint size al flags k k' d := by
          intro k k' d hk hck hkj
          have hin := hj.areaOf_eq (not_lt.mp (hbefore k k' d hk hck)) (not_le.mp hkj)
          rw [hk.areaOf_begin] at hin
          obtain rfl : k = j := (Prod.mk.inj (some.inj hin)).1
          obtain ⟨rfl, rfl⟩ := hj.unique hk
          exact hnot
        cases it with
        | none =>
          intro k k' d hk hck
          by_cases hkj : j' ≤ k
          · exact hit k k' d hk hkj
          · exact hskip k k' d hk hck hkj
        | some i =>
          obtain ⟨i', e', hi, husable', hmin⟩ := hit
          refine ⟨i', e', hi, husable', fun k k' d hk hck hki => ?_⟩
          by_cases hkj : j' ≤ k
          · exact hmin k k' d hk hkj hki
          · exact hskip k k' d hk hck hkj

def dryFlags : AllocationFlags := { AllocationFlags.none with Dry := true }

def stackFlags : AllocationFlags := { AllocationFlags.none with Stack := true }

section Upwards

variable {hint it it' : Nat} {d : A} {flags : AllocationFlags} (hpos : 0 < al)
  (hbound : it' + al < 2 ^ 64) (hstack : flags.Stack = false) (hint_dvd : al ∣ hint) (hit : it < it')

omit [AllocationInfo A] in
include hstack in
/-- The space is counted from the hint if that is inside. -/
theorem hasEnoughSpace_iff {b : Nat}
    (hb : (if hint ≠ 0 ∧ (AddressRange.mk it it').containsAddr hint then hint else it) = b) :
    hasEnoughSpace hint size al flags ⟨it, it'⟩ = true ↔ alignUp b al < it' ∧ size ≤ it' - alignUp b al := by
  subst hb
  simp only [hasEnoughSpace, hstack, Bool.false_eq_true, if_false, Bool.and_eq_true, isValid_iff, decide_eq_true_eq]
  split_ifs <;> exact and_congr_right fun hlt => by rw [AddressRange.size, u64Sub_of_le hlt.le]; rfl

include hpos hbound hstack hint_dvd hit

/-- Where a search upwards puts a record: inside the area it found, on a multiple of the alignment. -/
theorem found_range (h : Usable hint size al flags it it' d) : ∃ b, al ∣ b ∧ it ≤ b ∧ b + size ≤ it' ∧
      (hint < it' → b = alignUp (max it hint) al) ∧
      trimRange size al flags (freeRange hint size al flags ⟨it, it'⟩) = ⟨b, b + size⟩ := by
  obtain ⟨-, hspace⟩ := h
  by_cases hin : hint ≠ 0 ∧ (AddressRange.mk it it').containsAddr hint
  · have hmem : it ≤ hint ∧ hint < it' := containsAddr_iff.mp hin.2
    have halign := alignUp_eq_self hpos (by omega) hint_dvd
    rw [hasEnoughSpace_iff hstack (if_pos hin), halign] at hspace
    refine ⟨hint, hint_dvd, hmem.1, by omega, fun _ => by rw [max_eq_right hmem.1, halign], ?_⟩
    simp only [freeRange, if_pos hin, hstack, Bool.false_eq_true, if_false, trimRange, fromBeginEnd,
      AddressRange.size, fromBeginSize]
    rw [u64Sub_of_le hmem.2.le, u64_of_lt (by omega)]
    split
    · rfl
    · rw [show it' = hint + size by omega]
  rw [hasEnoughSpace_iff hstack (if_neg hin)] at hspace
  have hle := le_alignUp it hpos (by omega)
  refine ⟨alignUp it al, dvd_alignUp it al, hle, by omega, fun hlt => ?_, ?_⟩
  · rw [Nat.max_eq_left]
    by_contra hgt
    exact hin ⟨by omega, containsAddr_iff.mpr ⟨(not_le.mp hgt).le, hlt⟩⟩
  simp only [freeRange, if_neg hin, hstack, Bool.false_eq_true, if_false, trimRange_fromBeginSize]
  rw [fromBeginSize, u64_of_lt (by omega)]

theorem usable_iff (hlt : hint < it') (hsize : 0 < size) : Usable hint size al flags it it' d ↔
    isAllocated d = false ∧ alignUp (max it hint) al + size ≤ it' := by
  constructor
  · intro h
    obtain ⟨b, -, -, hle, hb, -⟩ := found_range hpos hbound hstack hint_dvd hit h
    rw [← hb hlt]
    exact ⟨h.1, hle⟩
  rintro ⟨hd, hle⟩
  refine ⟨hd, ?_⟩
  by_cases hin : hint ≠ 0 ∧ (AddressRange.mk it it').containsAddr hint
  · rw [max_eq_right (containsAddr_iff.mp hin.2).1] at hle
    rw [hasEnoughSpace_iff hstack (if_pos hin)]
    omega
  have hmax : max it hint = it := by
    apply Nat.max_eq_left
    by_contra hgt
    exact hin ⟨by omega, containsAddr_iff.mpr ⟨(not_le.mp hgt).le, hlt⟩⟩
  rw [hmax] at hle
  rw [hasEnoughSpace_iff hstack (if_neg hin)]
  omega

end Upwards

end Search

/-- **A dry search** reports the place in the first area that ends above the address and is usable. -/
theorem map_dry_spec (hwf : t.WF) (size : Nat) (info : A) (hpos : 0 < al) {hint b : Nat} (hb : alignUp hint al = b)
    (hbound : ∀ a, (t.areaOf a).isSome → a + 1 + al < 2 ^ 64) :
    (∃ errc, map t hint size info dryFlags al = some (t, .failed errc) ∧
      ∀ k k' d, t.IsArea k k' d → b < k' → ¬Usable b size al dryFlags k k' d) ∨
    ∃ k k' d, t.IsArea k k' d ∧ b < k' ∧ Usable b size al dryFlags k k' d ∧
      (∀ j j' e, t.IsArea j j' e → b < j' → j < k → ¬Usable b size al dryFlags j j' e) ∧
      map t hint size info dryFlags al =
        some (t, ⟨none, none, ⟨alignUp (max k b) al, alignUp (max k b) al + size⟩⟩) := by
  have hmap : map t hint size info dryFlags al = match t.nextArea b with
      | none => some (t, .failed .invalid_argument)
      | some i => mapSearch t i b size info dryFlags al := by
    have hlower : (if b = 0 ∧ dryFlags.Stack = true then t.iterPrev none else t.lowerBound b) = t.nextArea b := by
      rw [if_neg fun h => Bool.false_ne_true h.2, hwf.lowerBound_eq]
    unfold map
    rw [hb, ← hlower]
    rfl
  rw [hmap]
  have hfirst := hwf.firstFrom_nextArea b
  cases hnext : t.nextArea b with
  | none =>
    refine .inl ⟨_, rfl, fun k k' d hk hlt => ?_⟩
    obtain ⟨_, -, hsome⟩ := hfirst.exists_le hk hlt
    rw [hnext] at hsome
    cases hsome
  | some i =>
    -- the search begins at the first area that ends above the address
    have hfrom {k k' : Nat} {d : A} (hk : t.IsArea k k' d) (hbk : b < k') : i ≤ k := by
      obtain ⟨j, hle, hj⟩ := hfirst.exists_le hk hbk
      rw [hnext] at hj
      exact some.inj hj ▸ hle
    rw [hnext] at hfirst
    obtain ⟨i', d0, hi, hlt, -⟩ := hfirst
    have hstart : t.nextArea i = some i := by rw [nextArea, hi.areaOf_begin]
    have hlen := (t.areasAbove_le i).trans (areas_length_le hwf)
    obtain ⟨it, hsearch, hit, hle⟩ := searchUp_spec hwf b size al dryFlags
      (c := i) (fun k hk => (some.inj (hstart.symm.trans hk)).le) (Nat.lt_succ_of_le hlen)
    rw [hstart] at hsearch
    simp only [mapSearch, searchFree, show dryFlags.Stack = false from rfl, Bool.false_eq_true, if_false]
    rw [hsearch]
    cases it with
    | none => exact .inl ⟨_, rfl, fun k k' d hk hbk => hit k k' d hk (hfrom hk hbk)⟩
    | some j =>
      obtain ⟨j', e, hj, huse, hmin⟩ := hit
      have hjj' := hj.lt
      have hbj' : b < j' := by
        obtain rfl | hij := (hle j rfl).eq_or_lt
        · rw [(hj.unique hi).1]
          exact hlt
        have := hi.le_begin hj hij
        omega
      have hlast := hbound (j' - 1) (by rw [hj.areaOf_eq (by omega) (by omega)]; rfl)
      obtain ⟨c, -, -, -, hc, hrange⟩ := found_range hpos (by omega) rfl (hb ▸ dvd_alignUp hint al) hjj' huse
      refine .inr ⟨j, j', e, hj, hbj', huse, fun k k' d hk hbk => hmin k k' d hk (hfrom hk hbk), ?_⟩
      rw [← hc hbj', ← hrange]
      simp only [bind_eq_bind, bind_some, hj.range?_eq, show dryFlags.Dry = true from rfl, if_true]
      rfl

/-- A search from the end places the record at the end of an area that is usable, if it finds one. -/
theorem map_stack_cases (hwf : t.WF) {info : A} {res : AllocationResult}
    (h : map t 0 size info stackFlags al = some (t', res)) : (t' = t ∧ ∃ errc, res = .failed errc) ∨
    ∃ k k' d, t.IsArea k k' d ∧ Usable 0 size al stackFlags k k' d ∧
      place t k (.fromBeginSize (alignDown (u64Sub k' size) al) size) info stackFlags = some (t', res) := by
  unfold map at h
  simp only [stackFlags, AllocationFlags.none, if_true, alignDown, Nat.zero_mod, Nat.sub_self,
    and_self, Bool.false_eq_true, if_false] at h
  split at h
  · cases h
    exact .inl ⟨rfl, _, rfl⟩
  next it hit =>
  simp only [mapSearch, searchFree, if_true, bind_eq_bind, bind_eq_some_iff] at h
  obtain ⟨found, ⟨k, -, usable, husable, hfound⟩, h⟩ := h
  cases usable with
  | false =>
    cases hfound
    cases h
    exact .inl ⟨rfl, _, rfl⟩
  | true =>
    cases hfound
    right
    obtain ⟨k', d, hk, husable⟩ := exists_usable hwf husable
    refine ⟨k, k', d, hk, husable, ?_⟩
    simp only [hk.range?_eq, bind_some, freeRange, ne_eq, not_true_eq_false, false_and,
      if_false, if_true, Bool.false_eq_true] at h
    rw [trimRange_fromBeginSize] at h
    exact h

section Usable

omit [Inhabited A] [DecidableEq A]

variable {size al k k' : Nat} {d : A}

/-- What a search from the end finds is inside the area. -/
theorem usable_stack (hpos : 0 < al) (hbound : k' + (al - 1) < 2 ^ 64)
    (hkk' : k < k') (h : Usable 0 size al stackFlags k k' d) :
    size ≤ k' ∧ k ≤ alignDown (k' - size) al := by
  obtain ⟨-, hspace⟩ := h
  simp only [hasEnoughSpace, stackFlags, AllocationFlags.none, AddressRange.size,
    fromBeginEnd, intersection, ne_eq, not_true_eq_false, false_and, if_false,
    if_true, min_self, Bool.and_eq_true, isValid_iff, decide_eq_true_eq] at hspace
  obtain ⟨hlt, hsize⟩ := hspace
  rw [u64Sub_of_le hlt.le] at hsize
  generalize hD : alignDown (u64Sub k' size) al = D at hlt hsize
  have hle : size ≤ k' := by omega
  rw [u64Sub_of_le hle] at hD
  refine ⟨hle, ?_⟩
  rw [hD]
  by_contra hcon
  rw [max_eq_left (not_le.mp hcon).le] at hlt hsize
  -- the aligned address of the area would come before the aligned end
  have hk := le_alignUp k hpos (by omega)
  have hA := le_alignDown (dvd_alignUp k al) (show _ ≤ k' - size by omega)
  omega

end Usable

/-! ## Tables with a single record

When every area has the same record, mapping another range with that record joins it to all that it
touches, so that the areas are the stretches of the mapped addresses. -/

structure Stretches {A : Type} (p : A) (t : Allocations A) : Prop where
  record : ∀ a k d, t.areaOf a = some (k, d) → d = p
  apart : ∀ a k d, t.areaOf a = some (k + 1, d) → t.areaOf k = none

section Stretches

omit [AllocationInfo A]

variable {p : A}

variable {b : Nat}

omit [Inhabited A] in
/-- What is joined to the range begins where nothing comes before. -/
theorem Stretches.before_mergedBegin (hwf : t.WF) (h : Stretches p t) {k : Nat} (hk : t.mergedBegin b p true = k + 1) :
    k < b ∧ t.areaOf k = none := by
  obtain ⟨hbegin, hne⟩ | ⟨hbefore, hlt, hin⟩ := hwf.mergedBegin_cases b p
  · obtain rfl : b = k + 1 := hbegin.symm.trans hk
    refine ⟨Nat.lt_succ_self k, ?_⟩
    cases hb : t.areaOf k with
    | none => rfl
    | some x =>
      obtain ⟨j, d⟩ := x
      obtain rfl := h.record k j d hb
      rw [areaBefore_succ] at hne
      exact absurd hb (hne j)
  rw [hk] at hlt hin
  exact ⟨by omega, h.apart _ _ _ (hin _ le_rfl hlt)⟩

theorem Stretches.map_spec (hwf : t.WF) (h : Stretches p t) {e : Nat} (hbe : b < e) :
    ∃ t' it, t.map ⟨b, e⟩ p true false = some (t', it) ∧ t'.WF ∧ Stretches p t' ∧
      ∀ a, (t'.areaOf a).isSome ↔ (t.areaOf a).isSome ∨ (b ≤ a ∧ a < e) := by
  obtain ⟨t', hmap, hwf', harea⟩ := hwf.map_spec hbe p true
  refine ⟨t', _, hmap, hwf', ⟨fun a k d ha => ?_, fun a k d ha => ?_⟩, fun a => ?_⟩
  · rw [harea, mappedArea] at ha
    split_ifs at ha with hab hae
    · exact h.record a k d ha
    · exact (Prod.mk.inj (some.inj ha)).2.symm
    split at ha
    · cases ha
    next j d' hj =>
    obtain rfl := h.record a j d' hj
    split_ifs at ha with hej hd
    · exact (Prod.mk.inj (some.inj ha)).2.symm
    · exact (Prod.mk.inj (some.inj ha)).2.symm
    · exact absurd ⟨rfl, rfl⟩ hd
  · -- what is below the range stays, and so does a gap above it
    have hleft {k : Nat} (hk : t.mergedBegin b p true = k + 1) : t'.areaOf k = none := by
      obtain ⟨hkb, hnone⟩ := h.before_mergedBegin hwf hk
      rw [harea, mappedArea, if_pos hkb]
      exact hnone
    rw [harea, mappedArea] at ha
    split_ifs at ha with hab hae
    · obtain ⟨k', hk, hka, -⟩ := hwf.areaOf_eq_some.mp ha
      rw [harea, mappedArea, if_pos (by omega)]
      exact h.apart a k d ha
    · exact hleft (Prod.mk.inj (some.inj ha)).1
    split at ha
    · cases ha
    next j d' hj =>
    obtain rfl := h.record a j d' hj
    split_ifs at ha with hej hd
    · obtain rfl : j = k + 1 := (Prod.mk.inj (some.inj ha)).1
      rw [harea, mappedArea, if_neg (by omega), if_neg (by omega), h.apart a k _ hj]
    · exact hleft (Prod.mk.inj (some.inj ha)).1
    exact absurd ⟨rfl, rfl⟩ hd
  rw [harea, mappedArea]
  by_cases hab : a < b
  · rw [if_pos hab]
    exact ⟨Or.inl, fun h => h.elim id fun h => absurd h.1 (not_le.mpr hab)⟩
  by_cases hae : a < e
  · rw [if_neg hab, if_pos hae]
    exact ⟨fun _ => .inr ⟨not_lt.mp hab, hae⟩, fun _ => rfl⟩
  rw [if_neg hab, if_neg hae]
  cases hA : t.areaOf a with
  | none => simp [hae]
  | some x =>
    dsimp only
    split_ifs <;> simp

omit [Inhabited A] [DecidableEq A] in
/-- An interval of mapped addresses is inside one area. -/
theorem Stretches.exists_isArea (hwf : t.WF) (h : Stretches p t) {e : Nat} (hbe : b < e)
    (hin : ∀ a, b ≤ a → a < e → (t.areaOf a).isSome) : ∃ k k', t.IsArea k k' p ∧ k ≤ b ∧ e ≤ k' := by
  obtain ⟨⟨k, d⟩, hb⟩ := isSome_iff_exists.mp (hin b le_rfl hbe)
  obtain rfl := h.record b k d hb
  obtain ⟨k', harea, hkb, hbk'⟩ := hwf.areaOf_eq_some.mp hb
  refine ⟨k, k', harea, hkb, ?_⟩
  by_contra hlt
  -- the address behind the area would begin another one that touches it
  obtain ⟨⟨j, d'⟩, hk'⟩ := isSome_iff_exists.mp (hin k' hbk'.le (not_le.mp hlt))
  obtain ⟨j', hj, hjk', hlt'⟩ := hwf.areaOf_eq_some.mp hk'
  obtain rfl : j = k' := by
    by_contra hne
    have h1 := hj.areaOf_eq (a := k' - 1) (by omega) (by omega)
    rw [harea.areaOf_eq (by omega) (by omega)] at h1
    cases h1
    exact absurd (harea.unique hj).1 (by omega)
  obtain ⟨i, rfl⟩ : ∃ i, j = i + 1 := ⟨j - 1, by omega⟩
  have hnone := h.apart _ _ _ hk'
  rw [harea.areaOf_eq (by omega) (by omega)] at hnone
  cases hnone

end Stretches

end AllocableResource

end Rpcsx.Kernel
