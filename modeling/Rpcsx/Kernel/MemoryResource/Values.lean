import Rpcsx.Kernel.MemoryResource.Fixed
import Rpcsx.Rx.MemoryTable.Refinement

/-!
# What is seen of the records

`merge` joins areas and a truncation rebases one, but a property of records that neither can tell
apart is a function of the address, and a fixed `map` changes it exactly in its range. Together with
the table having no gaps and what is allocated lying on multiples of a page, that is all the callers of
a resource need to know of it, as long as they do not ask where areas begin.
-/

namespace Rpcsx.Kernel

open Rx AllocationInfo MemoryTableWithPayload Option

namespace AllocableResource

variable {A X : Type} [AllocationInfo A] [Inhabited A] [DecidableEq A] {t t' t'' : Allocations A}
  {cut : A → Nat → Option A} {obs : A → X} {n : Nat}

def seen (obs : A → X) (t : Allocations A) (a : Nat) : Option X := (t.valueAt a).map obs

/-- Records that `merge` joins look alike, as does what it makes of them, and a remainder looks like
the area it was cut from. -/
structure Visible (cut : A → Nat → Option A) (obs : A → X) : Prop where
  joined : ∀ {l r lr rr}, joins l r lr rr = true →
    obs r = obs l ∧ obs (AllocationInfo.merge l r lr rr) = obs l
  rebased : ∀ {d n d'}, isAllocated d = true → cut d n = some d' → obs d' = obs d

/-- Everything that neither `merge` nor a truncation can tell apart is as before. -/
def SameSeen (cut : A → Nat → Option A) (t t' : Allocations A) : Prop :=
  ∀ {X : Type} {obs : A → X}, Visible cut obs → ∀ a, seen obs t' a = seen obs t a

/-- The tables that the operations work on: without gaps, and with all allocated areas on multiples of
`n`. Free areas may begin anywhere, as those do that stand for mappings of the host. -/
structure Regular (n : Nat) (t : Allocations A) : Prop where
  wf : t.WF
  gapless : t.Gapless
  begins : ∀ k d, t.areaOf k = some (k, d) → isAllocated d = true → n ∣ k
  ends : ∀ a, seen isAllocated t a = some true → seen isAllocated t (a + 1) ≠ some true → n ∣ a + 1
  top : ∀ a, (t.areaOf a).isSome = true → t.areaOf (a + 1) = none → n ∣ a + 1

section Basics

omit [AllocationInfo A] [Inhabited A] [DecidableEq A]

theorem isSome_seen (obs : A → X) (t : Allocations A) (a : Nat) : (seen obs t a).isSome = (t.areaOf a).isSome := by
  rw [seen, valueAt, isSome_map, isSome_map]

variable {a : Nat}

theorem seen_eq {k k' : Nat} {d : A} (h : t.IsArea k k' d) (h1 : k ≤ a) (h2 : a < k') :
    seen obs t a = some (obs d) := by
  rw [seen, valueAt, h.areaOf_eq h1 h2]
  rfl

theorem seen_congr (h : t'.areaOf a = t.areaOf a) : seen obs t' a = seen obs t a := by
  rw [seen, seen, valueAt, valueAt, h]

theorem isSome_of_seen (h : seen obs t' a = seen obs t a) : (t'.areaOf a).isSome = (t.areaOf a).isSome := by
  rw [← isSome_seen obs, ← isSome_seen obs, h]

theorem gapless_congr (h : t.Gapless) (hsome : ∀ a, (t'.areaOf a).isSome = (t.areaOf a).isSome) : t'.Gapless := by
  intro x y z hxy hyz hx hz
  rw [hsome] at hx hz ⊢
  exact h x y z hxy hyz hx hz

end Basics

section Regular

omit [Inhabited A] [DecidableEq A]

/-- The area before an area touches it. -/
theorem Regular.prev_touches (h : Regular n t) {b e : Nat} {p p0 : A} {r : AddressRange}
    (harea : t.IsArea b e p) (hprev : t.prevArea b = some (r, p0)) : r.endAddress = b := by
  obtain ⟨hr, hrb, hgap⟩ := h.wf.prevArea_eq_some hprev
  have hle := hr.le_begin harea hrb
  by_contra hne
  have hsome := h.gapless r.beginAddress r.endAddress b hr.lt.le hle hr.isSome_begin harea.isSome_begin
  rw [hgap _ (le_refl _) (by omega)] at hsome
  cases hsome

/-- The area after an area touches it. -/
theorem Regular.next_touches (h : Regular n t) {b e : Nat} {p p0 : A} {r : AddressRange}
    (harea : t.IsArea b e p) (hnext : t.firstAbove e = some (r, p0)) : r.beginAddress = e := by
  obtain ⟨hr, her, hgap⟩ := h.wf.firstAbove_eq_some hnext
  have hbe := harea.lt
  have hle : e ≤ r.beginAddress := by
    by_contra hlt
    have := harea.end_le hr (not_le.mp hlt)
    omega
  by_contra hne
  have hsome := h.gapless b e r.beginAddress hbe.le hle harea.isSome_begin hr.isSome_begin
  rw [hgap e (le_refl e) (by omega)] at hsome
  cases hsome

/-- An allocated area lies on multiples of `n`. -/
theorem Regular.aligned (h : Regular n t) {k k' : Nat} {d : A} (harea : t.IsArea k k' d)
    (hd : isAllocated d) : n ∣ k ∧ n ∣ k' := by
  have hlt := harea.lt
  refine ⟨h.begins k d (harea.areaOf_begin) hd, ?_⟩
  have hlast : seen isAllocated t (k' - 1) = some true := by rw [seen_eq harea (by omega) (by omega), hd]
  by_cases hnext : seen isAllocated t (k' - 1 + 1) = some true
  · rw [Nat.sub_add_cancel (by omega)] at hnext
    obtain ⟨d', hvalue, hd'⟩ := map_eq_some_iff.mp hnext
    obtain ⟨x, hx, rfl⟩ := map_eq_some_iff.mp hvalue
    have hbegin : t.areaOf k' = some (x.1, x.2) := hx
    rw [edge_of_isArea h.wf harea hbegin] at hbegin
    exact h.begins k' _ hbegin hd'
  have hdvd := h.ends _ hlast hnext
  rwa [Nat.sub_add_cancel (by omega)] at hdvd

/-- A table in which the same is allocated is regular as soon as its allocated areas begin on multiples
of `n`. -/
theorem Regular.of_begins (h : Regular n t) (hwf : t'.WF) (hstatus : ∀ a, seen isAllocated t' a = seen isAllocated t a)
    (hbegin : ∀ k d, t'.areaOf k = some (k, d) → isAllocated d → n ∣ k) : Regular n t' where
  wf := hwf
  gapless := gapless_congr h.gapless fun a => isSome_of_seen (hstatus a)
  begins := hbegin
  ends a ha ha' := by
    rw [hstatus] at ha ha'
    exact h.ends a ha ha'
  top a ha ha' := by
    have hnone := isSome_of_seen (hstatus (a + 1))
    rw [isSome_of_seen (hstatus a)] at ha
    rw [ha'] at hnone
    exact h.top a ha (isSome_eq_false_iff.mp hnone.symm |> isNone_iff_eq_none.mp)

end Regular

/-! ## Merging -/

/-- `t'` is `t` with a block of whole areas, `[b, e)` among them, replaced by one. -/
structure Merged (t t' : Allocations A) (b e q q' : Nat) (m : A) : Prop
    extends Block t t' q q' m where
  le_begin : q ≤ b
  le_end : e ≤ q'
  begins : ∃ d, t.areaOf q = some (q, d)
  covered : ∀ a, q ≤ a → a < q' → (t.areaOf a).isSome = true

section Merged

omit [AllocationInfo A] [Inhabited A] [DecidableEq A]

variable {b e q q' : Nat} {p m : A}

theorem merged_self (hwf : t.WF) (h : t.IsArea b e p) : Merged t t b e b e p where
  wf := hwf
  isArea := h
  outside _ _ := rfl
  le_begin := le_refl b
  le_end := le_refl e
  begins := ⟨p, h.areaOf_begin⟩
  covered a h1 h2 := by rw [h.areaOf_eq h1 h2]; rfl

theorem Merged.isSome_eq (h : Merged t t' b e q q' m) (a : Nat) : (t'.areaOf a).isSome = (t.areaOf a).isSome := by
  by_cases hin : q ≤ a ∧ a < q'
  · rw [h.covered a hin.1 hin.2, h.isArea.areaOf_eq hin.1 hin.2]
    rfl
  rw [h.outside a (by omega)]

theorem Merged.trans {q1 q1' : Nat} {m1 : A} (h : Merged t t' b e q q' m)
    (h' : Merged t' t'' q q' q1 q1' m1) : Merged t t'' b e q1 q1' m1 where
  wf := h'.wf
  isArea := h'.isArea
  outside a ha := by
    have := h'.le_begin
    have := h'.le_end
    rw [h'.outside a ha, h.outside a (by omega)]
  le_begin := le_trans h'.le_begin h.le_begin
  le_end := le_trans h.le_end h'.le_end
  begins := by
    obtain ⟨d, hd⟩ := h'.begins
    rcases h'.le_begin.eq_or_lt with rfl | hlt
    · exact h.begins
    · exact ⟨d, by rw [← h.outside q1 (Or.inl hlt), hd]⟩
  covered a h1 h2 := by rw [← h.isSome_eq, h'.covered a h1 h2]

end Merged

variable {b e : Nat}

omit [Inhabited A] [DecidableEq A] in
theorem Merged.regular {q q' : Nat} {m : A} (h : Merged t t' b e q q' m)
    (hstatus : ∀ a, seen isAllocated t' a = seen isAllocated t a) (hreg : Regular n t) : Regular n t' := by
  refine hreg.of_begins h.wf hstatus fun k d hk hd => ?_
  by_cases hin : q ≤ k ∧ k < q'
  · rw [h.isArea.areaOf_eq hin.1 hin.2] at hk
    cases hk
    -- the block begins where an area did, and that one was allocated as well
    obtain ⟨d', hd'⟩ := h.begins
    have hsame := hstatus q
    rw [seen_eq h.isArea le_rfl h.isArea.lt, seen, valueAt, hd', hd] at hsame
    exact hreg.begins q d' hd' (some.inj hsame).symm
  rw [h.outside k (by omega)] at hk
  exact hreg.begins k d hk hd

variable {p : A}

/-- Joining two areas that touch makes a block, in which everything looks as before. -/
theorem joinAt_merged (hreg : Regular n t) {l r r' : Nat} {p' : A} (hl : t.IsArea l r p) (hr : t.IsArea r r' p')
    (it : Nat) (h : joins p p' ⟨l, r⟩ ⟨r, r'⟩) {m : A} (hm : AllocationInfo.merge p p' ⟨l, r⟩ ⟨r, r'⟩ = m) :
    ∃ t', joinAt t l r it = some (t', t.mergedBegin l m true) ∧
      Merged t t' l r' (t.mergedBegin l m true) (t.fusedEnd r' m) m ∧ SameSeen cut t t' := by
  have hwf := hreg.wf
  have hedge : ∀ k d, t.areaOf r' = some (k, d) → k = r' := fun _ _ => edge_of_isArea hwf hr
  obtain ⟨t', hjoin, hblock⟩ := joinAt_of_joins hwf hl hr (le_refl r) it h hm
  obtain ⟨j, d, hbegin⟩ := exists_isArea_mergedBegin hwf hl m
  obtain ⟨i, d', hend⟩ := exists_isArea_fusedEnd hwf hr m
  have hq := hwf.mergedBegin_le l m
  have hq' := hwf.le_fusedEnd m hedge
  refine ⟨t', hjoin, ⟨hblock, hq, hq', ⟨d, hbegin.areaOf_begin⟩, ?_⟩, ?_⟩
  · intro a h1 h2
    have hlt := hend.lt
    exact hreg.gapless _ a (t.fusedEnd r' m - 1) h1 (by omega) hbegin.isSome_begin
      (by rw [hend.areaOf_eq (by omega) (by omega)]; rfl)
  intro X obs hvis a
  obtain ⟨hobs, hobs'⟩ := hvis.joined h
  rw [hm] at hobs'
  by_cases hin : t.mergedBegin l m true ≤ a ∧ a < t.fusedEnd r' m
  · rw [seen_eq hblock.isArea hin.1 hin.2]
    by_cases hal : a < l
    · rcases hwf.mergedBegin_cases l m with ⟨heq, -⟩ | ⟨-, -, hsame⟩
      · omega
      rw [seen, valueAt, hsame a hin.1 hal]
      rfl
    by_cases har : a < r
    · rw [seen_eq hl (not_lt.mp hal) har, hobs']
    by_cases har' : a < r'
    · rw [seen_eq hr (not_lt.mp har) har', hobs, hobs']
    rcases hwf.fusedEnd_cases m hedge with ⟨heq, -⟩ | harea
    · omega
    · rw [seen_eq harea (not_lt.mp har') hin.2]
  exact seen_congr (hblock.outside a (by omega))

variable (cut) in
/-- The first half of `merge`. -/
theorem joinPrev_merged (hreg : Regular n t) (harea : t.IsArea b e p) :
    ∃ t' q q' m, joinPrev t b = some (t', q) ∧ Merged t t' b e q q' m ∧ SameSeen cut t t' := by
  cases hprev : t.prevArea b with
  | none =>
    exact ⟨t, b, e, p, joinPrev_of_none hreg.wf harea hprev, merged_self hreg.wf harea, fun _ _ => rfl⟩
  | some x =>
    obtain ⟨⟨l, l'⟩, p0⟩ := x
    obtain rfl : l' = b := hreg.prev_touches harea hprev
    obtain ⟨hl, hlb, -⟩ := hreg.wf.prevArea_eq_some hprev
    rw [joinPrev_of_some hreg.wf harea hprev]
    cases hj : joins p0 p ⟨l, l'⟩ ⟨l', e⟩ with
    | false =>
      exact ⟨t, l', e, p, joinAt_of_not_joins hl harea hj, merged_self hreg.wf harea, fun _ _ => rfl⟩
    | true =>
      obtain ⟨t', hjoin, hm, hseen⟩ := joinAt_merged hreg hl harea l' hj rfl
      exact ⟨t', _, _, _, hjoin, { hm with le_begin := le_trans hm.le_begin hlb.le }, hseen⟩

variable (cut) in
/-- The second half. -/
theorem joinNext_merged (hreg : Regular n t) (harea : t.IsArea b e p) :
    ∃ t' q q' m, joinNext t b = some (t', q) ∧ Merged t t' b e q q' m ∧ SameSeen cut t t' := by
  cases hnext : t.firstAbove e with
  | none =>
    exact ⟨t, b, e, p, joinNext_of_none hreg.wf harea hnext, merged_self hreg.wf harea, fun _ _ => rfl⟩
  | some x =>
    obtain ⟨⟨r, r'⟩, p0⟩ := x
    obtain rfl : r = e := hreg.next_touches harea hnext
    obtain ⟨hr, her, -⟩ := hreg.wf.firstAbove_eq_some hnext
    rw [joinNext_of_some hreg.wf harea hnext]
    cases hj : joins p p0 ⟨b, r⟩ ⟨r, r'⟩ with
    | false =>
      exact ⟨t, b, r, p, joinAt_of_not_joins harea hr hj, merged_self hreg.wf harea, fun _ _ => rfl⟩
    | true =>
      obtain ⟨t', hjoin, hm, hseen⟩ := joinAt_merged hreg harea hr b hj rfl
      exact ⟨t', _, _, _, hjoin, { hm with le_end := le_trans her.le hm.le_end }, hseen⟩

section Operations

variable (hstatus : Visible cut (isAllocated : A → Bool)) {b e : Nat}

include hstatus

/-- **`merge`** makes a block around the area, in which everything looks as before. -/
theorem merge_merged (hreg : Regular n t) {p : A} (harea : t.IsArea b e p) :
    ∃ t' q q' m, merge t b = some (t', q) ∧ Merged t t' b e q q' m ∧ Regular n t' ∧ SameSeen cut t t' := by
  obtain ⟨t1, q, q', m, hprev, hm1, hseen1⟩ := joinPrev_merged cut hreg harea
  have hreg1 := hm1.regular (hseen1 hstatus) hreg
  obtain ⟨t2, q2, q2', m2, hnext, hm2, hseen2⟩ := joinNext_merged cut hreg1 hm1.isArea
  refine ⟨t2, q2, q2', m2, ?_, hm1.trans hm2, hm2.regular (hseen2 hstatus) hreg1, ?_⟩
  · rw [merge_eq_joinNext hprev, hnext]
  intro X obs hvis a
  rw [hseen2 hvis, hseen1 hvis]

theorem mergeUnless_merged (noMerge : Bool) (hreg : Regular n t) {p : A} (harea : t.IsArea b e p) :
    ∃ t' q q' m, mergeUnless noMerge t b = some (t', q) ∧ Merged t t' b e q q' m ∧ Regular n t' ∧
      SameSeen cut t t' := by
  cases noMerge with
  | true => exact ⟨t, b, e, p, rfl, merged_self hreg.wf harea, hreg, fun _ _ => rfl⟩
  | false => exact merge_merged hstatus hreg harea

end Operations

/-! ## The new record -/

/-- Where a record may be put: on multiples of `n`, or, if it is a free one, where all is free. -/
def Fits (n : Nat) (t : Allocations A) (b e : Nat) (info : A) : Prop :=
  (n ∣ b ∧ n ∣ e) ∨
    (isAllocated info = false ∧ ∀ a, b ≤ a → a < e → seen isAllocated t a = some false)

section NewRecord

omit [Inhabited A] [DecidableEq A]

variable {b e : Nat} {info : A}

omit [AllocationInfo A] in
theorem Assigned.seen_eq (h : Assigned t t' b e info) (a : Nat) :
    seen obs t' a = if a ∈ AddressRange.mk b e then some (obs info) else seen obs t a := by
  simp only [AddressRange.mem_def]
  by_cases hab : a < b
  · rw [if_neg (by omega), seen_congr (h.below a hab)]
  by_cases hae : a < e
  · rw [if_pos ⟨not_lt.mp hab, hae⟩, AllocableResource.seen_eq h.isArea (not_lt.mp hab) hae]
  rw [if_neg (by omega), seen, seen, valueAt, valueAt, h.above a (not_lt.mp hae)]
  cases t.areaOf a with
  | none => rfl
  | some x => rfl

omit [AllocationInfo A] in
theorem Assigned.isSome_eq (h : Assigned t t' b e info) (hin : ∀ a, b ≤ a → a < e → (t.areaOf a).isSome) (a : Nat) :
    (t'.areaOf a).isSome = (t.areaOf a).isSome := by
  rw [← isSome_seen id, ← isSome_seen id, h.seen_eq]
  split
  · next ha =>
    rw [AddressRange.mem_def] at ha
    rw [isSome_seen, hin a ha.1 ha.2]
    rfl
  rfl

/-- The remainder of an allocated area that is cut begins on a multiple of `n` as well. -/
theorem Fits.dvd_end (hfit : Fits n t b e info) (hbe : b < e) {k k' : Nat} {d : A}
    (harea : t.IsArea k k' d) (hke : k < e) (hek : e < k') (hd : isAllocated d) : n ∣ e := by
  obtain ⟨-, he⟩ | ⟨-, hfree⟩ := hfit
  · exact he
  have hseen := hfree (e - 1) (by omega) (by omega)
  rw [AllocableResource.seen_eq harea (by omega) (by omega)] at hseen
  rw [some.inj hseen] at hd
  cases hd

theorem Assigned.ends (h : Assigned t t' b e info) (hreg : Regular n t) (hfit : Fits n t b e info)
    (a : Nat) (ha : seen isAllocated t' a = some true) (ha' : seen isAllocated t' (a + 1) ≠ some true) :
    n ∣ a + 1 := by
  obtain ⟨hb, he⟩ | ⟨hinfo, hfree⟩ := hfit
  · rw [h.seen_eq] at ha ha'
    simp only [AddressRange.mem_def] at ha ha'
    by_cases hin : b ≤ a ∧ a < e
    · by_cases hlast : a + 1 = e
      · rwa [hlast]
      rw [if_pos hin] at ha
      rw [if_pos (by omega)] at ha'
      exact absurd ha ha'
    rw [if_neg hin] at ha
    by_cases hfirst : b ≤ a + 1 ∧ a + 1 < e
    · have : a + 1 = b := by omega
      rwa [this]
    rw [if_neg hfirst] at ha'
    exact hreg.ends a ha ha'
  -- nothing is allocated that was not, and nothing freed
  have hsame (x : Nat) : seen isAllocated t' x = seen isAllocated t x := by
    rw [h.seen_eq]
    split
    · next hx =>
      rw [AddressRange.mem_def] at hx
      rw [hinfo, hfree x hx.1 hx.2]
    rfl
  rw [hsame] at ha ha'
  exact hreg.ends a ha ha'

/-- A range in a table without gaps may be assigned to. -/
theorem Assigned.regular (h : Assigned t t' b e info) (hreg : Regular n t)
    (hin : ∀ a, b ≤ a → a < e → (t.areaOf a).isSome) (hfit : Fits n t b e info) : Regular n t' where
  wf := h.wf
  gapless := gapless_congr hreg.gapless (h.isSome_eq hin)
  ends := h.ends hreg hfit
  top a ha ha' := by
    have hnone := h.isSome_eq hin (a + 1)
    rw [h.isSome_eq hin] at ha
    rw [ha'] at hnone
    exact hreg.top a ha (isNone_iff_eq_none.mp (isSome_eq_false_iff.mp hnone.symm))
  begins k d hk hd := by
    by_cases hkb : k < b
    · rw [h.below k hkb] at hk
      exact hreg.begins k d hk hd
    by_cases hke : k < e
    · rw [h.isArea.areaOf_eq (not_lt.mp hkb) hke] at hk
      cases hk
      obtain ⟨hb, -⟩ | ⟨hinfo, -⟩ := hfit
      · exact hb
      rw [hinfo] at hd
      cases hd
    rw [h.above k (not_lt.mp hke)] at hk
    obtain ⟨⟨j, d'⟩, hj, heq⟩ := map_eq_some_iff.mp hk
    obtain ⟨hmax, rfl⟩ := Prod.mk.inj heq
    rcases Nat.lt_or_ge e j with hlt | hge
    · rw [max_eq_left hlt.le] at hmax
      subst hmax
      exact hreg.begins j _ hj hd
    rw [max_eq_right hge] at hmax
    subst hmax
    rcases hge.eq_or_lt with rfl | hlt
    · exact hreg.begins j _ hj hd
    obtain ⟨j', harea, -, hej⟩ := hreg.wf.areaOf_eq_some.mp hj
    exact hfit.dvd_end h.isArea.lt harea hlt hej hd

end NewRecord

/-- Cutting the last area shows nothing. -/
theorem CutAbove.spec (hstatus : Visible cut (isAllocated : A → Bool)) (hreg : Regular n t)
    (he : ∀ k k' d, t.IsArea k k' d → k < e → e < k' → isAllocated d → n ∣ e) (h : CutAbove cut t t' e) :
    Regular n t' ∧ SameSeen cut t t' := by
  rcases h with ⟨rfl, -⟩ | ⟨k, k', d, d', it, harea, hke, hek, hrem, hmap⟩
  · exact ⟨hreg, fun _ _ => rfl⟩
  have hallocated : isAllocated d ∧ cut d (e - k) = some d' := by
    unfold remainder at hrem
    split at hrem
    · next hd => exact ⟨hd, hrem⟩
    · cases hrem
  have hdvd := he k k' d harea hke hek hallocated.1
  have hd' : isAllocated d' := by
    rw [hstatus.rebased hallocated.1 hallocated.2]
    exact hallocated.1
  obtain ⟨t1, it1, hmap1, hwf1, hvalue⟩ := hreg.wf.valueAt_map (r := ⟨e, k'⟩) (AddressRange.isValid_iff.mpr hek) d' true
  rw [hmap] at hmap1
  cases hmap1
  have hseen : SameSeen cut t t' := by
    intro X obs hvis a
    rw [seen, hvalue]
    split
    · next ha =>
      rw [AddressRange.mem_def] at ha
      rw [seen_eq harea (by have := ha.1; dsimp only at this; omega) ha.2, map_some,
        hvis.rebased hallocated.1 hallocated.2]
    rfl
  refine ⟨hreg.of_begins hwf1 (hseen hstatus) fun j dj hj hdj => ?_, hseen⟩
  obtain ⟨t1, hmap1, -, hspec⟩ := hreg.wf.map_spec hek d' true
  rw [hmap] at hmap1
  cases hmap1
  have hmerged : n ∣ t.mergedBegin e d' true := by
    rcases hreg.wf.mergedBegin_cases e d' with ⟨heq, -⟩ | ⟨-, hlt, hin⟩
    · rwa [heq]
    · exact hreg.begins _ _ (hin _ (le_refl _) hlt) hd'
  rw [hspec, mappedArea] at hj
  split at hj
  · exact hreg.begins j dj hj hdj
  split at hj
  · cases hj
    exact hmerged
  cases hA : t.areaOf j with
  | none =>
    rw [hA] at hj
    cases hj
  | some x =>
    rw [hA] at hj
    dsimp only at hj
    split at hj
    · cases hj
      exact hreg.begins _ _ hA hdj
    split at hj
    · cases hj
      exact hmerged
    · cases hj
      exact (hreg.aligned harea hallocated.1).2

end AllocableResource

end Rpcsx.Kernel
