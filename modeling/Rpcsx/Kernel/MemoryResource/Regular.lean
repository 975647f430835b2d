import Rpcsx.Kernel.MemoryResource.Gaps
import Rpcsx.Kernel.MemoryResource.Values

/-!
# Calls on regular tables

What one call leaves behind, for the callers that only ask what is seen at an address: the new record
is seen in its range, everything else is as it was, and the table is regular again. A record may be put
in place of one of the same kind, or anywhere by a fixed `map`; a search ends in the same way.
-/

namespace Rpcsx.Kernel

open Rx AllocationInfo Option

namespace AllocableResource

variable {A : Type} [AllocationInfo A] [Inhabited A] [DecidableEq A] {t t' : Allocations A}
  {cut : A → Nat → Option A} {n b e al : Nat} {flags : AllocationFlags} {info : A}

/-- What a record put at `[b, e)` leaves behind: it lies in the area `[q, q')`. -/
structure Placed (cut : A → Nat → Option A) (n : Nat) (t t' : Allocations A) (b e : Nat) (info : A)
    (q q' : Nat) : Prop where
  regular : Regular n t'
  isArea : ∃ m, t'.IsArea q q' m
  le_begin : q ≤ b
  le_end : e ≤ q'
  isSome : ∀ a, (t'.areaOf a).isSome = (t.areaOf a).isSome
  seen : ∀ {X : Type} {obs : A → X}, Visible cut obs → ∀ a,
    seen obs t' a = if a ∈ AddressRange.mk b e then some (obs info) else seen obs t a
  above : (∀ k k' d, t.IsArea k k' d → k < e → k' ≤ e) → ∀ a, q' ≤ a → t'.areaOf a = t.areaOf a

section

variable (hstatus : Visible cut (isAllocated : A → Bool))

include hstatus

/-- The last two of the three tables. -/
theorem Assigned.placed (h : Assigned t t' b e info) (hreg : Regular n t)
    (hin : ∀ a, b ≤ a → a < e → (t.areaOf a).isSome) (hfit : Fits n t b e info) (noMerge : Bool) :
    ∃ t'' q q', mergeUnless noMerge t' b = some (t'', q) ∧ Placed cut n t t'' b e info q q' := by
  obtain ⟨t'', q, q', m, hmerge, hm, hreg', hseen⟩ :=
    mergeUnless_merged hstatus noMerge (h.regular hreg hin hfit) h.isArea
  refine ⟨t'', q, q', hmerge, hreg', ⟨m, hm.isArea⟩, hm.le_begin, hm.le_end, fun a => ?_, ?_, ?_⟩
  · rw [hm.isSome_eq, h.isSome_eq hin]
  · intro X obs hvis a
    rw [hseen hvis, h.seen_eq]
  intro hedge a ha
  have hle := hm.le_end
  rw [hm.outside a (.inr ha), h.above a (by omega)]
  exact hreg.wf.map_max_areaOf hedge (by omega)

/-- **A fixed `map`** that is taken. -/
theorem map_fixed_placed (hcut : CutsRight cut) (hreg : Regular n t)
    (hcall : FixedCall b e flags al) (hacc : Accepts t b e flags) (hfit : Fits n t b e info) :
    ∃ t' q q', map t b (e - b) info flags al = some (t', ⟨some q, none, ⟨b, e⟩⟩) ∧ Placed cut n t t' b e info q q' := by
  have hbe := hcall.lt
  obtain ⟨t1, t2, hwf1, hcutAbove, hassigned, hmap⟩ := map_of_accepts info hcut hcall hreg.wf hacc
  have hin (a : Nat) (hba : b ≤ a) (hae : a < e) : (t.areaOf a).isSome := by
    obtain ⟨it, it', d, hit, h1, h2, hlast, -⟩ := hacc
    exact hreg.gapless b a (e - 1) hba (by omega) (by rw [hit.areaOf_eq h1 h2]; rfl) hlast
  obtain ⟨hreg1, hseen1⟩ := hcutAbove.spec hstatus hreg fun k k' d hk hke hek hd =>
    hfit.dvd_end hbe hk hke hek hd
  have hsome1 (a : Nat) : (t1.areaOf a).isSome = (t.areaOf a).isSome := isSome_of_seen (hseen1 hstatus a)
  have hfit1 : Fits n t1 b e info := by
    refine hfit.imp id fun ⟨hinfo, hfree⟩ => ⟨hinfo, fun a hba hae => ?_⟩
    rw [hseen1 hstatus]
    exact hfree a hba hae
  obtain ⟨t3, q, q', hmerge, hplaced⟩ := hassigned.placed hstatus hreg1
    (fun a hba hae => by rw [hsome1]; exact hin a hba hae) hfit1 flags.NoMerge
  refine ⟨t3, q, q', by rw [hmap, hmerge]; rfl, { hplaced with isSome := ?_, seen := ?_, above := ?_ }⟩
  · intro a
    rw [hplaced.isSome, hsome1]
  · intro X obs hvis a
    rw [hplaced.seen hvis, hseen1 hvis]
  intro hedge
  -- nothing is cut where an area ends
  obtain ⟨rfl, -⟩ | ⟨k, k', d, -, -, hk, hke, hek, -⟩ := hcutAbove
  · exact hplaced.above hedge
  · exact absurd (hedge k k' d hk hke) (not_le.mpr hek)

/-- **A new record in place** of one that is allocated if it is. -/
theorem setAt_placed (hreg : Regular n t) {k k' : Nat} {d d' : A} (harea : t.IsArea k k' d)
    (hd : isAllocated d' = isAllocated d) (noMerge : Bool) :
    ∃ t1 t' q q', t.setAt k d' = some t1 ∧ mergeUnless noMerge t1 k = some (t', q) ∧
      Placed cut n t t' k k' d' q q' := by
  have hlt := harea.lt
  obtain ⟨t1, hset, hwf1, hareas⟩ := hreg.wf.setAt_spec harea d'
  have hassigned : Assigned t t1 k k' d' := by
    refine ⟨hwf1, hwf1.isArea_of_areaOf hlt (fun a h1 h2 => ?_) ?_, fun a ha => ?_, fun a ha => ?_⟩
    · rw [hareas, if_pos ⟨h1, h2⟩]
    · rw [hareas, if_neg (by omega)]
      intro hk'
      exact hlt.ne (edge_of_isArea hreg.wf harea hk')
    · rw [hareas, if_neg (by omega)]
    rw [hareas, if_neg (by omega)]
    exact (hreg.wf.map_max_areaOf (fun _ _ _ => harea.end_le) ha).symm
  have hfit : Fits n t k k' d' := by
    cases hallocated : isAllocated d with
    | true => exact .inl (hreg.aligned harea hallocated)
    | false =>
      exact .inr ⟨hd.trans hallocated, fun a h1 h2 => by rw [seen_eq harea h1 h2, hallocated]⟩
  obtain ⟨t', q, q', hmerge, hplaced⟩ := hassigned.placed hstatus hreg
    (fun a h1 h2 => by rw [harea.areaOf_eq h1 h2]; rfl) hfit noMerge
  exact ⟨t1, t', q, q', hset, hmerge, hplaced⟩

end

/-! ## Any call -/

section Calls

variable {it : Nat}

variable {res : AllocationResult}

omit [AllocationInfo A] [Inhabited A] [DecidableEq A] in
/-- The search upwards ends at a usable area. -/
theorem usable_of_searchUp {usable : Nat → Option Bool} {fuel : Nat} {start : Iter}
    (h : searchUp t usable fuel start = some (some it)) : usable it = some true := by
  induction fuel generalizing start with
  | zero => cases h
  | succ fuel ih =>
    cases start with
    | none => cases h
    | some j =>
      obtain ⟨found, hfound, h⟩ := bind_eq_some_iff.mp h
      cases found with
      | true =>
        obtain rfl := some.inj (some.inj h)
        exact hfound
      | false => exact ih h

variable {hint size : Nat}

variable (hstatus : Visible cut (isAllocated : A → Bool))

include hstatus

/-- A record put on multiples of `n`. -/
theorem place_regular (hreg : Regular n t) {it' : Nat} {d : A} (hit : t.IsArea it it' d)
    (hin : ∀ a, b ≤ a → a < e → (t.areaOf a).isSome) (hb : n ∣ b) (he : n ∣ e)
    (h : place t it ⟨b, e⟩ info flags = some (t', res)) :
    Regular n t' ∧ ∀ a, (t'.areaOf a).isSome = (t.areaOf a).isSome := by
  have hbe : b < e := isValid_of_place h
  obtain ⟨t1, hassign, hwf1, harea1, hbelow, habove⟩ := assign_spec hreg.wf hit hbe info
  have hassigned : Assigned t t1 b e info := ⟨hwf1, harea1, hbelow, habove⟩
  obtain ⟨t2, q, q', hmerge, hplaced⟩ := hassigned.placed hstatus hreg hin (.inl ⟨hb, he⟩) flags.NoMerge
  rw [place_eq, hassign, bind_some, hmerge] at h
  cases h
  exact ⟨hplaced.regular, hplaced.isSome⟩

omit hstatus in
/-- A fixed call that changes something is one on a range of addresses. -/
theorem map_fixed_cases (hfixed : flags.Fixed) (hsize : size < 2 ^ 64)
    (hb : (if flags.Stack then alignDown hint al else alignUp hint al) = b)
    (h : map t hint size info flags al = some (t', res)) :
    t' = t ∨ (flags.Dry = false ∧ 0 < size ∧ b + size < 2 ^ 64 ∧ ∃ it, t.queryArea b = some it) := by
  unfold map at h
  simp only [hb, hfixed, if_true] at h
  split at h
  · exact .inl (Prod.mk.inj (some.inj h)).1.symm
  next it hit =>
  unfold mapFixed at h
  split at h
  · exact .inl (Prod.mk.inj (some.inj h)).1.symm
  next endIt hend =>
  simp only [bind_eq_bind, bind_eq_some_iff] at h
  obtain ⟨d, -, range, -, h⟩ := h
  split at h
  · exact .inl (Prod.mk.inj (some.inj h)).1.symm
  obtain ⟨t1, hnotify, h⟩ := bind_eq_some_iff.mp h
  split at h
  · next hdry =>
    rw [notify, hdry, Bool.or_true, if_pos rfl] at hnotify
    cases hnotify
    exact .inl (Prod.mk.inj (some.inj h)).1.symm
  next hdry =>
  rw [trimRange_fromBeginSize] at h
  have hvalid : b < u64 (b + size) := isValid_of_place h
  unfold u64 at hvalid
  exact .inr ⟨eq_false_of_ne_true hdry, by omega, by omega, it, hit⟩

/-- **Any call** whose size and alignment are multiples of `n`, except for a search downwards. -/
theorem map_regular (hcut : CutsRight cut) (hreg : Regular n t) (hpos : 0 < al)
    (hbound : ∀ a, (t.areaOf a).isSome → a + 1 + al < 2 ^ 64)
    (hsize : size < 2 ^ 64) (hsize_dvd : n ∣ size) (halign : n ∣ al)
    (hstack : flags.Stack → flags.Fixed) (h : map t hint size info flags al = some (t', res)) :
    Regular n t' ∧ ∀ a, (t'.areaOf a).isSome = (t.areaOf a).isSome := by
  obtain ⟨b, hb⟩ : ∃ b, (if flags.Stack then alignDown hint al else alignUp hint al) = b := ⟨_, rfl⟩
  have hdvd : al ∣ b := by
    rw [← hb]
    split
    · exact dvd_alignDown hint al
    · exact dvd_alignUp hint al
  cases hfixed : flags.Fixed with
  | true =>
    obtain rfl | ⟨hdry, hsize0, hend, it, hit⟩ := map_fixed_cases hfixed hsize hb h
    · exact ⟨hreg, fun _ => rfl⟩
    have hsome : (t.areaOf b).isSome := by
      rw [hreg.wf.queryArea_eq] at hit
      obtain ⟨x, hx, -⟩ := map_eq_some_iff.mp hit
      rw [hx]
      rfl
    have haligned : (if flags.Stack then alignDown b al else alignUp b al) = b := by
      split
      · exact le_antisymm (alignDown_le b al) (le_alignDown hdvd le_rfl)
      · exact alignUp_eq_self hpos (by have := hbound b hsome; omega) hdvd
    have hcall : FixedCall b (b + size) flags al := ⟨by omega, hend, hfixed, hdry, haligned⟩
    have hmap : map t hint size info flags al = map t b (b + size - b) info flags al := by
      unfold map
      simp only [hb, haligned, Nat.add_sub_cancel_left]
    rw [hmap] at h
    by_cases hacc : Accepts t b (b + size) flags
    · have hfit : Fits n t b (b + size) info := .inl ⟨halign.trans hdvd, Nat.dvd_add (halign.trans hdvd) hsize_dvd⟩
      obtain ⟨t1, q, q', hmap1, hplaced⟩ := map_fixed_placed hstatus hcut hreg hcall hacc hfit
      obtain rfl : t1 = t' := (Prod.mk.inj (some.inj (hmap1.symm.trans h))).1
      exact ⟨hplaced.regular, hplaced.isSome⟩
    obtain ⟨errc, hmap1⟩ := map_of_not_accepts info hcall hreg.wf hacc
    obtain rfl : t = t' := (Prod.mk.inj (some.inj (hmap1.symm.trans h))).1
    exact ⟨hreg, fun _ => rfl⟩
  | false =>
    have hup : flags.Stack = false := by
      cases hs : flags.Stack with
      | false => rfl
      | true => rw [hstack hs] at hfixed; cases hfixed
    have hb' : alignUp hint al = b := by
      rw [← hb, hup]
      rfl
    unfold map at h
    simp only [hb', hfixed, hup, Bool.false_eq_true, if_false, and_false] at h
    split at h
    · obtain rfl := (Prod.mk.inj (some.inj h)).1
      exact ⟨hreg, fun _ => rfl⟩
    next start hstart =>
    simp only [mapSearch, searchFree, hup, Bool.false_eq_true, if_false, bind_eq_bind, bind_eq_some_iff] at h
    obtain ⟨found, hfound, h⟩ := h
    cases found with
    | none =>
      obtain rfl := (Prod.mk.inj (some.inj h)).1
      exact ⟨hreg, fun _ => rfl⟩
    | some it =>
      obtain ⟨it', d, hit, husable⟩ := exists_usable hreg.wf (usable_of_searchUp hfound)
      have hlt := hit.lt
      have hlast := hbound (it' - 1) (by rw [hit.areaOf_eq (by omega) (by omega)]; rfl)
      obtain ⟨c, hc, hic, hci, -, hrange⟩ := found_range hpos (by omega) hup hdvd hlt husable
      simp only [hit.range?_eq, bind_some, hrange] at h
      split at h
      · obtain rfl := (Prod.mk.inj (some.inj h)).1
        exact ⟨hreg, fun _ => rfl⟩
      refine place_regular hstatus hreg hit (fun a h1 h2 => ?_) (halign.trans hc)
        (Nat.dvd_add (halign.trans hc) hsize_dvd) h
      rw [hit.areaOf_eq (by omega) (by omega)]
      rfl

end Calls

end AllocableResource

end Rpcsx.Kernel
