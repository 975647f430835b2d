import Rpcsx.Util.AddressRange.Exclude

/-!
# A vector as a set of addresses

A run of merges and exclusions from the empty vector keeps to the union and the difference of sets of
addresses as long as no merge takes ranges together that only meet across the two ends of the
addresses, and no exclusion leaves a piece at both ends, which `check_consistency` takes to touch.
`overlaps` then answers for the set. `contains` asks whether an entry lies inside the range, and not
whether the range lies inside an entry; its answer is the right one only if there is no entry of either
kind but the range itself.
-/

namespace Rpcsx.Util

namespace AddressRangeVector

open AddressRange Set

variable {n : Nat} {r e f : AddressRange n} {data : AddressRangeVector n}

/-! ## Vectors with separate entries -/

theorem Separate.eq_of_near (hs : Separate data) (he : e ∈ data) (hf : f ∈ data) (hev : e.Valid)
    (hfv : f.Valid) (hnear : e.Near f) : e = f := by
  by_contra hne
  exact hs.forall he hf hne hev hfv hnear

/-- A range of covered addresses lies inside one entry. -/
theorem Separate.exists_inside (hs : Separate data) (hr : r.Valid)
    (h : r.addresses ⊆ covered data) : ∃ e ∈ data, r.Inside e := by
  obtain ⟨e, he, hstart⟩ := h ⟨le_rfl, hr⟩
  refine ⟨e, he, hstart.1, ?_⟩
  by_contra hlast
  rw [not_le, Fin.lt_def] at hlast
  -- the address behind the entry is covered by another one, which then is near
  obtain ⟨f, hf, hnext⟩ := h (show ⟨e.last.val + 1, by omega⟩ ∈ r.addresses from
    mem_addresses.mpr ⟨hstart.2.trans (Nat.le_succ _), hlast⟩)
  have hlastmem : e.last ∈ e.addresses := ⟨valid_of_mem hstart, le_rfl⟩
  have hef := hs.eq_of_near he hf (valid_of_mem hstart) (valid_of_mem hnext)
    (near_of_mem hlastmem hnext (by dsimp only; omega) (by dsimp only; omega))
  rw [← hef, mem_addresses] at hnext
  dsimp only at hnext
  omega

local instance (priority := 2000) neZero : NeZero (n + 2) := ⟨by omega⟩

def full : AddressRange n := ⟨0, umax⟩

theorem addresses_full : (full : AddressRange n).addresses = univ :=
  eq_univ_of_forall fun a => ⟨Fin.zero_le a, Fin.le_last a⟩

theorem near_full (r : AddressRange n) : r.Near full := ⟨r.start.isLt.le, Nat.zero_le _⟩

theorem eq_zero_of_mem (h : 0 ∈ e.addresses) : e.start = 0 := le_antisymm h.1 (Fin.zero_le _)

theorem eq_umax_of_mem (h : umax ∈ e.addresses) : e.last = umax := le_antisymm (Fin.le_last _) h.2

section

variable (hs : Separate data)

include hs

/-- With entries at both ends there is only one. -/
theorem Separate.unwrapped_iff : Unwrapped data ↔ (0 ∈ covered data → umax ∈ covered data → full ∈ data) := by
  constructor
  · rintro hw ⟨e, he, hzero⟩ ⟨f, hf, hmax⟩
    have hstart := eq_zero_of_mem hzero
    have hlast := eq_umax_of_mem hmax
    obtain rfl : e = f := by
      by_contra hne
      exact hw.forall he hf hne (valid_of_mem hzero) (valid_of_mem hmax) (.inr ⟨hstart, hlast⟩)
    rwa [show full = e from AddressRange.ext hstart.symm hlast.symm]
  intro h
  refine hs.imp_of_mem fun {e f} he hf hapart hev hfv hwrap => hapart hev hfv ?_
  have hfull : full ∈ data := by
    rcases hwrap with ⟨hlast, hstart⟩ | ⟨hstart, hlast⟩
    · exact h ⟨f, hf, hstart.le, Fin.zero_le _⟩ ⟨e, he, Fin.le_last _, hlast.ge⟩
    · exact h ⟨e, he, hstart.le, Fin.zero_le _⟩ ⟨f, hf, Fin.le_last _, hlast.ge⟩
  have heq {g : AddressRange n} (hg : g ∈ data) (hgv : g.Valid) : g = full :=
    hs.eq_of_near hg hfull hgv (Fin.zero_le _) (near_full g)
  rw [heq he hev, heq hf hfv]
  exact near_full full

theorem Separate.full_mem (h : covered data = univ) : full ∈ data := by
  obtain ⟨e, he, hstart, hlast⟩ := hs.exists_inside (r := full) (Fin.zero_le _) (h ▸ subset_univ _)
  have hfull : e = full := AddressRange.ext (le_antisymm hstart (Fin.zero_le _)) (le_antisymm (Fin.le_last _) hlast)
  rwa [← hfull]

/-! ## Queries -/

omit hs in
/-- `overlaps` tells whether some address of the range is covered. -/
theorem overlaps_iff (hr : r.Valid) : overlaps data r ↔ ∃ a ∈ r.addresses, a ∈ covered data := by
  simp only [overlaps, List.any_eq_true, Bool.and_eq_true, decide_eq_true_eq]
  constructor
  · rintro ⟨e, he, hev, hover⟩
    obtain ⟨a, har, hae⟩ := hover.exists_mem hev hr
    exact ⟨a, har, e, he, hae⟩
  rintro ⟨a, har, e, he, hae⟩
  exact ⟨e, he, valid_of_mem hae, hae.1.trans har.2, har.1.trans hae.2⟩

omit hs in
theorem contains_eq_true : contains data r ↔ ∃ e ∈ data, e.Valid ∧ e.Inside r := by
  simp only [contains, List.any_eq_true, Bool.and_eq_true, decide_eq_true_eq]

/-- `contains` tells whether the range is covered exactly if no entry but the range itself is part of
the range or has it as a part. -/
theorem contains_iff (hr : r.Valid) : (contains data r ↔ r.addresses ⊆ covered data) ↔
      ∀ e ∈ data, e.Valid → e.Inside r ∨ r.Inside e → e = r := by
  have hsubset : r.addresses ⊆ covered data ↔ ∃ e ∈ data, r.Inside e :=
    ⟨hs.exists_inside hr, fun ⟨e, he, hin⟩ a ha => ⟨e, he, hin.subset ha⟩⟩
  rw [contains_eq_true, hsubset]
  have hchain {e f : AddressRange n} (he : e ∈ data) (hf : f ∈ data) (hev : e.Valid)
      (her : e.Inside r) (hrf : r.Inside f) : e = r := by
    have hef := hs.eq_of_near he hf hev (hrf.valid hr) ((her.trans hrf).near hev)
    exact her.antisymm (hef ▸ hrf)
  constructor
  · intro h e he hev hin
    rcases hin with her | hre
    · obtain ⟨f, hf, hrf⟩ := h.mp ⟨e, he, hev, her⟩
      exact hchain he hf hev her hrf
    obtain ⟨f, hf, hfv, hfr⟩ := h.mpr ⟨e, he, hre⟩
    have hfe := hs.eq_of_near hf he hfv hev ((hfr.trans hre).near hfv)
    exact hfe ▸ hchain hf he hfv hfr hre
  intro h
  constructor
  · rintro ⟨e, he, hev, her⟩
    exact ⟨e, he, h e he hev (.inl her) ▸ ⟨le_rfl, le_rfl⟩⟩
  rintro ⟨e, he, hre⟩
  have hev := hre.valid hr
  exact ⟨e, he, hev, h e he hev (.inr hre) ▸ ⟨le_rfl, le_rfl⟩⟩

/-! ## Steps -/

inductive Op (n : Nat) where
  | merge (newRange : AddressRange n)
  | exclude (exclusion : AddressRange n)
  | excludeAll (other : AddressRangeVector n)

def step (data : AddressRangeVector n) : Op n → AddressRangeVector n
  | .merge newRange => merge data newRange
  | .exclude exclusion => exclude data exclusion
  | .excludeAll other => excludeAll data other

def stepSet (s : Set (Address n)) : Op n → Set (Address n)
  | .merge newRange => s ∪ newRange.addresses
  | .exclude exclusion => s \ exclusion.addresses
  | .excludeAll other => s \ covered other

/-- Some address is excluded, but neither the first nor the last one. -/
def Hollows (other : AddressRangeVector n) : Prop :=
  (∃ x ∈ other, x.Valid) ∧ ∀ x ∈ other, ¬x.OverlapsAddress 0 ∧ ¬x.OverlapsAddress umax

instance (other : AddressRangeVector n) : Decidable (Hollows other) :=
  inferInstanceAs (Decidable (_ ∧ _))

/-- A merge meets only entries that really are near, and an exclusion does not leave the range of all
the addresses with both of its ends. -/
def StepOk (data : AddressRangeVector n) : Op n → Prop
  | .merge newRange =>
    newRange.Valid → ∀ e ∈ data, e.Valid → e.Touches newRange → e.Near newRange
  | .exclude exclusion => ¬(full ∈ data ∧ Hollows [exclusion])
  | .excludeAll other => ¬(full ∈ data ∧ Hollows other)

instance (data : AddressRangeVector n) : (op : Op n) → Decidable (StepOk data op)
  | .merge _ => inferInstanceAs (Decidable (_ → _))
  | .exclude _ => inferInstanceAs (Decidable (¬_))
  | .excludeAll _ => inferInstanceAs (Decidable (¬_))

/-- The vector stands for the set that it should stand for after a call, and is consistent. -/
def Agrees (data : AddressRangeVector n) (s : Set (Address n)) : Prop :=
  covered data = s ∧ checkConsistency data = true

/-- If both ends are covered then everything is. -/
theorem Separate.unwrapped_of (h : 0 ∈ covered data → umax ∈ covered data → covered data = univ) : Unwrapped data :=
  hs.unwrapped_iff.mpr fun hzero hmax => hs.full_mem (h hzero hmax)

theorem Separate.covered_of_ends (hw : Unwrapped data) (hzero : 0 ∈ covered data)
    (hmax : umax ∈ covered data) : covered data = univ :=
  eq_univ_of_univ_subset fun _ ha =>
    ⟨full, hs.unwrapped_iff.mp hw hzero hmax, addresses_full.superset ha⟩

omit hs in
/-- Near ranges at the two ends of the addresses are all of them. -/
theorem union_of_near (hnear : e.Near r) (hlast : e.last = umax) (hstart : r.start = 0) :
    e.addresses ∪ r.addresses = univ := by
  refine eq_univ_of_forall fun a => ?_
  have ha := a.isLt
  obtain ⟨hle, -⟩ := hnear
  rw [mem_union, mem_addresses, mem_addresses, hlast, hstart, val_umax, Fin.val_zero]
  omega

/-- Ranges at the two ends that are not near leave an address that no entry covers. -/
theorem Separate.exists_gap (he : e ∈ data) (hev : e.Valid) (hr : r.Valid)
    (hwrap : e.Wraps r) (hfar : ¬e.Near r) : ∃ a, a ∉ covered data ∧ a ∉ r.addresses := by
  have hgap (v : Nat) (hv : v < n + 2) (hnext : v + 1 = e.start.val ∨ v = e.last.val + 1)
      (hout : ¬(r.start.val ≤ v ∧ v ≤ r.last.val)) : ∃ a, a ∉ covered data ∧ a ∉ r.addresses := by
    refine ⟨⟨v, hv⟩, ?_, hout⟩
    -- an entry that covers an address next to another one is near to it
    rintro ⟨f, hf, hmem⟩
    have hfv := valid_of_mem hmem
    rw [mem_addresses] at hmem
    rw [valid_iff] at hev
    dsimp only at hmem
    have hfe := hs.eq_of_near hf he hfv hev ⟨by omega, by omega⟩
    subst hfe
    omega
  unfold Near at hfar
  rw [valid_iff] at hev hr
  rcases hwrap with ⟨hlast, hstart⟩ | ⟨hstart, hlast⟩
  · rw [eq_umax_iff] at hlast
    rw [eq_zero_iff] at hstart
    exact hgap (e.start.val - 1) (by omega) (.inl (by omega)) (by omega)
  rw [eq_umax_iff] at hlast
  rw [eq_zero_iff] at hstart
  exact hgap (e.last.val + 1) (by omega) (.inr rfl) (by omega)

theorem agrees_merge_iff (hw : Unwrapped data) :
    Agrees (merge data r) (covered data ∪ r.addresses) ↔ StepOk data (.merge r) := by
  constructor
  · rintro ⟨hcover, -⟩ hr e he hev htouch
    by_contra hfar
    have hwrap := ((touches_iff_near hev hr).mp htouch).resolve_left hfar
    obtain ⟨h, hh, hrh, heh⟩ := exists_hull hr he hev htouch
    obtain ⟨a, hdata, hnew⟩ := hs.exists_gap he hev hr hwrap hfar
    -- the hull of the two is everything
    have ha : a ∈ h.addresses := by
      rcases hwrap with ⟨hlast, hstart⟩ | ⟨hstart, hlast⟩
      · exact ⟨(hrh.1.trans hstart.le).trans (Fin.zero_le a), (Fin.le_last a).trans (hlast.ge.trans heh.2)⟩
      · exact ⟨(heh.1.trans hstart.le).trans (Fin.zero_le a), (Fin.le_last a).trans (hlast.ge.trans hrh.2)⟩
    exact (hcover.subset ⟨h, hh, ha⟩).elim hdata hnew
  intro hok
  by_cases hr : r.Valid
  · obtain ⟨hcover, hseparate⟩ := merge_spec ⟨hok hr, hs⟩
    refine ⟨hcover, checkConsistency_iff.mpr ⟨hseparate, hseparate.unwrapped_of ?_⟩⟩
    rw [hcover]
    have hnear {e : AddressRange n} (he : e ∈ data) (hev : e.Valid) (hwrap : e.Wraps r) : e.Near r :=
      hok hr e he hev ((touches_iff_near hev hr).mpr (.inr hwrap))
    have hsub {e : AddressRange n} (he : e ∈ data) : e.addresses ∪ r.addresses ⊆
        covered data ∪ r.addresses := union_subset_union_left _ fun a ha => ⟨e, he, ha⟩
    rintro (hzero | hzero) (hmax | hmax)
    · rw [hs.covered_of_ends hw hzero hmax, univ_union]
    · obtain ⟨e, he, hmem⟩ := hzero
      have hstart := eq_zero_of_mem hmem
      have hlast := eq_umax_of_mem hmax
      have hunion := union_of_near (hnear he (valid_of_mem hmem) (.inr ⟨hstart, hlast⟩)).symm hlast hstart
      exact eq_univ_of_univ_subset (hunion ▸ union_comm _ _ ▸ hsub he)
    · obtain ⟨e, he, hmem⟩ := hmax
      have hstart := eq_zero_of_mem hzero
      have hlast := eq_umax_of_mem hmem
      have hunion := union_of_near (hnear he (valid_of_mem hmem) (.inl ⟨hlast, hstart⟩)) hlast hstart
      exact eq_univ_of_univ_subset (hunion ▸ hsub he)
    refine eq_univ_of_forall fun a => .inr ?_
    exact ⟨(eq_zero_of_mem hzero).le.trans (Fin.zero_le a), (Fin.le_last a).trans (eq_umax_of_mem hmax).ge⟩
  rw [merge, if_pos hr, addresses_of_not_valid hr, union_empty]
  exact ⟨rfl, checkConsistency_iff.mpr ⟨hs, hw⟩⟩

theorem agrees_excludeAll_iff (hw : Unwrapped data) (other : AddressRangeVector n) :
    Agrees (excludeAll data other) (covered data \ covered other) ↔ ¬(full ∈ data ∧ Hollows other) := by
  obtain ⟨hcover, hseparate⟩ := excludeAll_spec data other
  constructor
  · rintro ⟨-, hc⟩ ⟨hfull, ⟨x, hx, hxv⟩, hends⟩
    obtain ⟨hs', hw'⟩ := checkConsistency_iff.mp hc
    have hleft (a : Address n) (ha : a ∉ covered other) : a ∈ covered (excludeAll data other) := by
      rw [hcover]
      exact ⟨⟨full, hfull, addresses_full.superset (mem_univ a)⟩, ha⟩
    have hall := hs'.covered_of_ends hw' (hleft 0 fun ⟨y, hy, hmem⟩ => (hends y hy).1 hmem)
      (hleft umax fun ⟨y, hy, hmem⟩ => (hends y hy).2 hmem)
    have hstart : x.start ∈ covered (excludeAll data other) := by
      rw [hall]
      exact mem_univ _
    rw [hcover] at hstart
    exact hstart.2 ⟨x, hx, le_rfl, hxv⟩
  intro hok
  refine ⟨hcover, checkConsistency_iff.mpr ⟨hseparate hs, (hseparate hs).unwrapped_of ?_⟩⟩
  rw [hcover]
  rintro ⟨hzero, hzero'⟩ ⟨hmax, hmax'⟩
  have hnone : covered other = ∅ := by
    refine eq_empty_of_forall_notMem fun a ⟨x, hx, ha⟩ => hok ?_
    exact ⟨hs.unwrapped_iff.mp hw hzero hmax, ⟨x, hx, valid_of_mem ha⟩,
      fun y hy => ⟨fun hmem => hzero' ⟨y, hy, hmem⟩, fun hmem => hmax' ⟨y, hy, hmem⟩⟩⟩
  rw [hnone, sdiff_empty]
  exact hs.covered_of_ends hw hzero hmax

end

/-- A call does what it should exactly under the condition on it. -/
theorem agrees_step_iff (hc : checkConsistency data) (op : Op n) :
    Agrees (step data op) (stepSet (covered data) op) ↔ StepOk data op := by
  obtain ⟨hs, hw⟩ := checkConsistency_iff.mp hc
  cases op with
  | merge r => exact agrees_merge_iff hs hw
  | exclude x =>
    have hx := agrees_excludeAll_iff hs hw [x]
    rw [covered_cons, covered_nil, union_empty] at hx
    exact hx
  | excludeAll other => exact agrees_excludeAll_iff hs hw other

/-! ## Runs -/

/-- Every call meets the condition on it, in the vector that the calls before it have left. -/
def Meets : AddressRangeVector n → List (Op n) → Prop
  | _, [] => True
  | data, op :: ops => StepOk data op ∧ Meets (step data op) ops

instance decidableMeets : (data : AddressRangeVector n) → (ops : List (Op n)) → Decidable (Meets data ops)
  | _, [] => inferInstanceAs (Decidable True)
  | data, op :: ops =>
    have := decidableMeets (step data op) ops
    inferInstanceAs (Decidable (_ ∧ _))

theorem agrees_run {s : Set (Address n)} {ops : List (Op n)} (h : Agrees data s)
    (hm : Meets data ops) : Agrees (ops.foldl step data) (ops.foldl stepSet s) := by
  induction ops generalizing data s with
  | nil => exact h
  | cons op ops ih =>
    obtain ⟨hcover, hc⟩ := h
    have hstep := (agrees_step_iff hc op).mpr hm.1
    rw [hcover] at hstep
    exact ih hstep hm.2

/-- A vector stands for a set of addresses. After any calls on the empty vector that meet the
conditions it covers what the unions and differences leave and is consistent, `overlaps` answers for
the set, and `contains` does exactly if there is no entry inside the range or around it but the range
itself. A further call keeps this up exactly under its condition. -/
theorem vector_refines_set (ops : List (Op n)) (hm : Meets [] ops) :
    covered (ops.foldl step []) = ops.foldl stepSet ∅ ∧ checkConsistency (ops.foldl step []) = true ∧
      (∀ r : AddressRange n, r.Valid →
        (overlaps (ops.foldl step []) r = true ↔ ∃ a ∈ r.addresses, a ∈ ops.foldl stepSet ∅) ∧
        ((contains (ops.foldl step []) r = true ↔ r.addresses ⊆ ops.foldl stepSet ∅) ↔
          ∀ e ∈ ops.foldl step [], e.Valid → e.Inside r ∨ r.Inside e → e = r)) ∧
      ∀ op : Op n, Agrees (step (ops.foldl step []) op) (stepSet (ops.foldl stepSet ∅) op) ↔
        StepOk (ops.foldl step []) op := by
  obtain ⟨hcover, hc⟩ := agrees_run (s := ∅) ⟨covered_nil, rfl⟩ hm
  obtain ⟨hs, -⟩ := checkConsistency_iff.mp hc
  rw [← hcover]
  exact ⟨rfl, hc, fun r hr => ⟨overlaps_iff hr, contains_iff hs hr⟩, agrees_step_iff hc⟩

/-- Three merges, the last of which joins the first two, and an exclusion that splits the result. -/
theorem vector_refines_set_split : let ops : List (Op 0xfffffffe) :=
      [.merge ⟨0, 9⟩, .merge ⟨20, 29⟩, .merge ⟨8, 21⟩, .exclude ⟨5, 10⟩]
    Meets [] ops ∧ ops.foldl step [] = [⟨0, 4⟩, null, ⟨11, 29⟩] ∧
      covered (ops.foldl step []) = ops.foldl stepSet ∅ := by
  intro ops
  have hm : Meets [] ops := by decide +kernel
  exact ⟨hm, by decide +kernel, (vector_refines_set ops hm).1⟩

/-- `contains` denies a part of an entry. The range at the end of the 32-bit addresses is merged with
the one at zero to everything between them. An exclusion from the middle of all the addresses leaves a
vector that is not consistent. -/
theorem vector_not_set : (contains (n := 0xfffffffe) (step [] (.merge ⟨0, 9⟩)) ⟨2, 3⟩ = false ∧
      (⟨2, 3⟩ : AddressRange 0xfffffffe).addresses ⊆ stepSet ∅ (.merge ⟨0, 9⟩)) ∧
    ((0x1000 : Address 0xfffffffe) ∈ covered ([Op.merge ⟨0, 9⟩, .merge ⟨0xfffff000, 0xffffffff⟩].foldl step []) ∧
      (0x1000 : Address 0xfffffffe) ∉ [Op.merge ⟨0, 9⟩, .merge ⟨0xfffff000, 0xffffffff⟩].foldl stepSet ∅) ∧
    checkConsistency (n := 0xfffffffe) ([Op.merge ⟨0, 0xffffffff⟩, .exclude ⟨5, 10⟩].foldl step []) = false := by
  have hmerge : [Op.merge (n := 0xfffffffe) ⟨0, 9⟩, .merge ⟨0xfffff000, 0xffffffff⟩].foldl step [] =
      [⟨0, 0xffffffff⟩] := by decide +kernel
  refine ⟨⟨by decide +kernel, ?_⟩, ⟨?_, ?_⟩, by decide +kernel⟩
  · exact (Inside.subset (by decide)).trans subset_union_right
  · rw [hmerge]
    exact ⟨_, List.mem_singleton_self _, by decide, by decide⟩
  have hfirst : ¬(⟨0, 9⟩ : AddressRange 0xfffffffe).OverlapsAddress 0x1000 := by decide
  have hsecond : ¬(⟨0xfffff000, 0xffffffff⟩ : AddressRange 0xfffffffe).OverlapsAddress 0x1000 := by decide
  rintro ((h | h) | h)
  · exact h
  · exact hfirst h
  · exact hsecond h

end AddressRangeVector

end Rpcsx.Util
