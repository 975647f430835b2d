import Rpcsx.Kernel.MemoryResource.Regular
import Rpcsx.Orbis.Vmem.Helpers
import Rpcsx.Orbis.Vmem.Translation

/-!
# Virtual memory: the attributes of an address

What `query` and `queryProtection` tell of an address is everything in the record of its area but the
offset, and nothing where no area is allocated. `modifyRange` goes over the areas of a range, some of
which it changes in place and some through `map`, and both may join areas. Seen from an address, it
applies one function to the attributes, and it does so in the range only, if all allocated areas and the
range itself lie on page boundaries. An area that has been joined to one before it is not visited
any more: it has the attributes that the other one was given, so that the function must not change
them again.
-/

namespace Rpcsx.Orbis

open Rx Rpcsx.Kernel AllocableResource Option

structure Attributes where
  flags : BlockFlags
  flagsEx : BlockFlagsEx
  prot : Protection
  type : MemoryType
  file : Option File
  callerAddress : Nat
  name : String
  deriving DecidableEq, Repr

namespace VirtualMemoryAllocation

def attributes (a : VirtualMemoryAllocation) : Option Attributes :=
  if a.isAllocated then some ⟨a.flags, a.flagsEx, a.prot, a.type, a.file, a.callerAddress, a.name⟩
  else none

theorem isSome_attributes (a : VirtualMemoryAllocation) : a.attributes.isSome = a.isAllocated := by
  unfold attributes
  cases a.isAllocated with
  | true => rfl
  | false => rfl

theorem attributes_eq_none {a : VirtualMemoryAllocation} (h : a.isAllocated = false) : a.attributes = none := by
  rw [attributes, h]
  rfl

theorem visible_attributes : Visible cut attributes where
  joined {l r lr rr} h := by
    refine ⟨?_, rfl⟩
    unfold joins at h
    split at h
    · next hl =>
      obtain ⟨hr, hrelated⟩ := Bool.and_eq_true_iff.mp h
      obtain ⟨⟨h1, h2, h3, h4, h5, h6, h7⟩, -⟩ := (isRelated_iff hl).mp hrelated
      have hl' : l.isAllocated := hl
      have hr' : r.isAllocated := hr
      rw [attributes, attributes, if_pos hl', if_pos hr', h1, h2, h3, h4, h5, h6, h7]
    · next hl =>
      rw [attributes_eq_none (eq_false_of_ne_true hl), attributes_eq_none (by simpa using h)]
  rebased {d n d'} hd h := by
    unfold cut at h
    split at h
    · cases h
    · cases h
      rfl

theorem visible_isAllocated : Visible cut (AllocationInfo.isAllocated : VirtualMemoryAllocation → Bool) where
  joined h := by
    obtain ⟨h1, h2⟩ := visible_attributes.joined h
    rw [isAllocated_eq, isAllocated_eq, isAllocated_eq, ← isSome_attributes, ← isSome_attributes,
      ← isSome_attributes, h1, h2]
    exact ⟨rfl, rfl⟩
  rebased hd h := by
    have h1 := visible_attributes.rebased hd h
    rw [isAllocated_eq, isAllocated_eq, ← isSome_attributes, ← isSome_attributes, h1]

end VirtualMemoryAllocation

open VirtualMemoryAllocation

/-- The address spaces that this is about: without gaps, below the end of the user's addresses, and
with all allocated areas on page boundaries. -/
structure Paged (t : VirtualMemoryResource) : Prop where
  regular : Regular vmem.kPageSize t
  below : ∀ a, (t.areaOf a).isSome = true → a < 0x700000000000

namespace vmem

variable {t t' : VirtualMemoryResource} {range : AddressRange} {σ : Type}
  {cb : σ → VirtualMemoryAllocation → AddressRange → Option (σ × VirtualMemoryAllocation)}
  {f : Attributes → Attributes}

theorem partRecord_attributes (a : VirtualMemoryAllocation) (it : Nat) (r : AddressRange) :
    (partRecord a it r).attributes = a.attributes := by
  unfold partRecord
  split
  · rfl
  · rfl

/-- A callback that applies `f`, once or twice. -/
structure Applies (cb : σ → VirtualMemoryAllocation → AddressRange →
    Option (σ × VirtualMemoryAllocation)) (f : Attributes → Attributes) : Prop where
  attributes : ∀ {s a r s' a'}, cb s a r = some (s', a') → a'.attributes = a.attributes.map f
  twice : ∀ x, f (f x) = f x

theorem Applies.isAllocated (h : Applies cb f) {s s' : σ} {a a' : VirtualMemoryAllocation}
    {r : AddressRange} (hcb : cb s a r = some (s', a')) : a'.isAllocated = a.isAllocated := by
  rw [← isSome_attributes, ← isSome_attributes, h.attributes hcb, isSome_map]

structure Pages (range : AddressRange) : Prop where
  lt : range.beginAddress < range.endAddress
  dvd_begin : kPageSize ∣ range.beginAddress
  dvd_end : kPageSize ∣ range.endAddress

/-- What a turn at the area `[it, it')` leaves behind, to go on after the area `[q, q')`. -/
structure Turn (f : Attributes → Attributes) (range : AddressRange) (t t' : VirtualMemoryResource)
    (it it' q q' : Nat) : Prop where
  paged : Paged t'
  isArea : ∃ m, t'.IsArea q q' m
  le_begin : it' ≤ range.endAddress → q ≤ max range.beginAddress it
  le_end : min range.endAddress it' ≤ q'
  seen : ∀ a, seen attributes t' a =
    if (it ≤ a ∧ a < it') ∧ a ∈ range then (seen attributes t a).map (Option.map f)
    else seen attributes t a
  above : it' ≤ range.endAddress → ∀ a, q' ≤ a → t'.areaOf a = t.areaOf a

/-- What lies in the same page as a covered page boundary is covered as well. -/
theorem isSome_page (h : Paged t) {a i : Nat} (ha : kPageSize ∣ a) (hsome : (t.areaOf a).isSome)
    (hi : i < kPageSize) : (t.areaOf (a + i)).isSome := by
  induction i with
  | zero => exact hsome
  | succ i ih =>
    by_contra hnone
    have hdvd := h.regular.top (a + i) (ih (by omega)) (isNone_iff_eq_none.mp (by simpa [Nat.add_assoc] using hnone))
    have hle := Nat.le_of_dvd (by omega) ((Nat.dvd_add_right ha).mp (Nat.add_assoc a i 1 ▸ hdvd))
    omega

/-- The rest of a page that begins in a free area is free. -/
theorem free_page (h : Paged t) {a i it it' : Nat} {d : VirtualMemoryAllocation} (ha : kPageSize ∣ a)
    (harea : t.IsArea it it' d) (h1 : it ≤ a) (h2 : a < it') (hd : d.isAllocated = false)
    (hi : i < kPageSize) : seen AllocationInfo.isAllocated t (a + i) = some false := by
  have hcovered := isSome_page h ha (by rw [harea.areaOf_eq h1 h2]; rfl) hi
  obtain ⟨x, hx⟩ := isSome_iff_exists.mp hcovered
  obtain ⟨k', hk, hka, hak⟩ := h.regular.wf.areaOf_eq_some.mp hx
  rw [seen_eq hk hka hak, isAllocated_eq]
  cases hx2 : x.2.isAllocated with
  | false => rfl
  | true =>
    -- an allocated area begins on a page boundary, so that it would hold `a` as well
    obtain ⟨m, hm⟩ := (h.regular.aligned hk hx2).1
    obtain ⟨j, hj⟩ := ha
    have hle : x.1 ≤ a := by
      rw [hm, hj]
      apply Nat.mul_le_mul_left
      by_contra hlt
      have := Nat.mul_le_mul_left kPageSize (not_le.mp hlt)
      rw [Nat.mul_succ] at this
      omega
    have heq := hk.areaOf_eq hle (by omega)
    rw [harea.areaOf_eq h1 h2] at heq
    cases heq
    rw [hd] at hx2
    cases hx2

theorem Paged.of_placed (h : Paged t) {b e q q' : Nat} {info : VirtualMemoryAllocation}
    (hp : Placed cut kPageSize t t' b e info q q') : Paged t' where
  regular := hp.regular
  below a ha := h.below a (by rwa [hp.isSome] at ha)

theorem seen_of_free {a : Nat} (h : seen AllocationInfo.isAllocated t a = some false) :
    seen attributes t a = some none := by
  obtain ⟨d, hd, hfree⟩ := map_eq_some_iff.mp h
  rw [seen, hd, map_some, attributes_eq_none hfree]

def modifyFlags (noMerge : Bool) : AllocationFlags := { AllocationFlags.none with NoMerge := noMerge }

/-! ## What the callback is called for -/

/-- What `modifyRange` hands to its callback at the area `it`. -/
def handed (range : AddressRange) (t : VirtualMemoryResource) (it : Nat) :
    Option (VirtualMemoryAllocation × AddressRange) := do
  let itRange ← t.range? it
  let a ← t.get? it
  let mapRange := range.intersection itRange
  return (if mapRange = itRange then a else partRecord a it mapRange, mapRange)

/-- From an area on `modifyRange` comes to a call of its callback that meets `P`, with what the calls
before it have left. -/
inductive Comes (cb : σ → VirtualMemoryAllocation → AddressRange → Option (σ × VirtualMemoryAllocation))
    (range : AddressRange) (flags : AllocationFlags) (P : σ → VirtualMemoryAllocation → AddressRange → Prop) :
    σ → VirtualMemoryResource → Iter → Prop
  | here {s : σ} {t : VirtualMemoryResource} {it : Nat} {x : VirtualMemoryAllocation × AddressRange}
      (hit : it < range.endAddress) (hx : handed range t it = some x) (hp : P s x.1 x.2) :
      Comes cb range flags P s t (some it)
  | next {s s' : σ} {t t' : VirtualMemoryResource} {it it' : Nat} (hit : it < range.endAddress)
      (hturn : modifyArea cb range flags s t it = some (s', t', it'))
      (h : Comes cb range flags P s' t' (t'.iterNext it')) : Comes cb range flags P s t (some it)

/-- It comes to a call for which the callback gives nothing. -/
def Dies (cb : σ → VirtualMemoryAllocation → AddressRange → Option (σ × VirtualMemoryAllocation))
    (range : AddressRange) (flags : AllocationFlags) : σ → VirtualMemoryResource → Iter → Prop :=
  Comes cb range flags fun s a r => cb s a r = none

theorem Comes.imp {flags : AllocationFlags} {P Q : σ → VirtualMemoryAllocation → AddressRange → Prop} {s : σ}
    {i : Iter} (hPQ : ∀ s a r, P s a r → Q s a r) (h : Comes cb range flags P s t i) : Comes cb range flags Q s t i := by
  induction h with
  | here hit hx hp => exact .here hit hx (hPQ _ _ _ hp)
  | next hit hturn h ih => exact .next hit hturn ih

section Turn

variable (cb f range) in
/-- The callback gives nothing for what it is handed, or the turn leaves its area behind. -/
def TurnsOrDies (noMerge : Bool) (s : σ) (t : VirtualMemoryResource) (it it' : Nat) : Prop :=
  (∃ x, handed range t it = some x ∧ cb s x.1 x.2 = none ∧ modifyArea cb range (modifyFlags noMerge) s t it = none) ∨
    ∃ s' t' q q', modifyArea cb range (modifyFlags noMerge) s t it = some (s', t', q) ∧ Turn f range t t' it it' q q'

variable {it it' : Nat} {d : VirtualMemoryAllocation} {noMerge : Bool} {s : σ}

theorem seen_part (hit : t.IsArea it it' d) {b e q q' : Nat} {info : VirtualMemoryAllocation}
    (hinfo : info.attributes = d.attributes.map f) (hp : Placed cut kPageSize t t' b e info q q')
    (hin : ∀ a, it ≤ a → a < it' → (a ∈ range ↔ a ∈ AddressRange.mk b e)) (hb : it ≤ b) (he : e ≤ it') (a : Nat) :
    seen attributes t' a = if (it ≤ a ∧ a < it') ∧ a ∈ range then (seen attributes t a).map (Option.map f)
      else seen attributes t a := by
  rw [hp.seen visible_attributes]
  by_cases ha : it ≤ a ∧ a < it'
  · by_cases hr : a ∈ range
    · rw [if_pos ((hin a ha.1 ha.2).mp hr), if_pos ⟨ha, hr⟩, seen_eq hit ha.1 ha.2, hinfo]
      rfl
    rw [if_neg fun h => hr ((hin a ha.1 ha.2).mpr h), if_neg fun h => hr h.2]
  rw [if_neg fun h => ha ⟨hb.trans h.1, h.2.trans_le he⟩, if_neg fun h => ha h.1]

/-- An area that lies in the range is changed in place. -/
theorem modifyArea_whole (hcb : Applies cb f) (h : Paged t) (hit : t.IsArea it it' d)
    (h1 : range.beginAddress ≤ it) (h2 : it' ≤ range.endAddress) :
    TurnsOrDies range cb f noMerge s t it it' := by
  have hrange : range.intersection ⟨it, it'⟩ = ⟨it, it'⟩ := by
    rw [AddressRange.intersection, max_eq_right h1, min_eq_right h2]
  simp only [TurnsOrDies, modifyArea, handed, hit.range?_eq, hit.get?_eq, hrange, bind_eq_bind, bind_some, if_true]
  cases hcall : cb s d ⟨it, it'⟩ with
  | none => exact .inl ⟨_, rfl, hcall, rfl⟩
  | some x =>
    obtain ⟨s', d'⟩ := x
    obtain ⟨t1, t', q, q', hset, hmerge, hp⟩ := setAt_placed visible_isAllocated h.regular hit
      (show AllocationInfo.isAllocated d' = AllocationInfo.isAllocated d from hcb.isAllocated hcall)
      noMerge
    refine .inr ⟨s', t', q, q', ?_, Paged.of_placed h hp, hp.isArea, fun _ => ?_, ?_, fun a => ?_, ?_⟩
    · rw [bind_some, hset, bind_some]
      unfold mergeUnless at hmerge
      cases noMerge with
      | true =>
        cases hmerge
        rfl
      | false =>
        rw [if_neg Bool.false_ne_true] at hmerge
        simp only [modifyFlags, AllocationFlags.none, Bool.false_eq_true, if_false, hmerge, bind_some]
        rfl
    · rw [max_eq_right h1]
      exact hp.le_begin
    · rw [min_eq_right h2]
      exact hp.le_end
    · refine seen_part hit (hcb.attributes hcall) hp (fun a h1' h2' => ?_) le_rfl le_rfl a
      simp only [AddressRange.mem_def]
      omega
    exact fun _ => hp.above fun k k' d hk hlt => hit.end_le hk hlt

section

variable (hcb : Applies cb f) (h : Paged t) (hpages : Pages range) (hit : t.IsArea it it' d)
  (h1 : it < range.endAddress) (h2 : range.beginAddress < it')

include hcb h hpages hit h1 h2

/-- A part of an area is changed through `map`. Where a free area does not begin on a page boundary,
`map` goes on to the next one, and then also over the end of the range: but all of that is free. -/
theorem modifyArea_part (hpart : ¬(range.beginAddress ≤ it ∧ it' ≤ range.endAddress)) :
    TurnsOrDies range cb f noMerge s t it it' := by
  obtain ⟨b, hb⟩ : ∃ b, max range.beginAddress it = b := ⟨_, rfl⟩
  obtain ⟨e, he⟩ : ∃ e, min range.endAddress it' = e := ⟨_, rfl⟩
  have hrlt := hpages.lt
  have hbe : b < e := by omega
  have hlast := h.below (it' - 1) (by rw [hit.areaOf_eq (by omega) (by omega)]; rfl)
  have hinter : range.intersection ⟨it, it'⟩ = ⟨b, e⟩ := by rw [AddressRange.intersection, hb, he]
  have hne : ¬AddressRange.mk b e = ⟨it, it'⟩ := by
    rw [AddressRange.mk.injEq]
    omega
  have hsize : (AddressRange.mk b e).size = e - b := by rw [AddressRange.size, u64Sub_of_le hbe.le]
  simp only [TurnsOrDies, modifyArea, handed, hit.range?_eq, hit.get?_eq, hinter, bind_eq_bind, bind_some, if_neg hne, hsize]
  cases hcall : cb s (partRecord d it ⟨b, e⟩) ⟨b, e⟩ with
  | none => exact .inl ⟨_, rfl, hcall, rfl⟩
  | some x =>
    obtain ⟨s', d'⟩ := x
    have hinfo : d'.attributes = d.attributes.map f := by rw [hcb.attributes hcall, partRecord_attributes]
    have hstatus : d'.isAllocated = d.isAllocated := by rw [← isSome_attributes, ← isSome_attributes, hinfo, isSome_map]
    right
    by_cases hdvd : kPageSize ∣ b
    · have hcall : FixedCall b e { modifyFlags noMerge with Fixed := true } kPageSize :=
        ⟨hbe, by omega, rfl, rfl, alignUp_eq_self (by decide) (by unfold kPageSize; omega) hdvd⟩
      have hacc : Accepts t b e { modifyFlags noMerge with Fixed := true } :=
        ⟨it, it', d, hit, by omega, by omega, by rw [hit.areaOf_eq (by omega) (by omega)]; rfl, by rintro ⟨⟩⟩
      have hfit : Fits kPageSize t b e d' := by
        cases hd : d.isAllocated with
        | true =>
          refine .inl ⟨hdvd, ?_⟩
          have hit' := (h.regular.aligned hit hd).2
          rw [← he]
          rcases min_choice range.endAddress it' with hmin | hmin
          · rw [hmin]
            exact hpages.dvd_end
          rwa [hmin]
        | false =>
          refine .inr ⟨hstatus.trans hd, fun a hba hae => ?_⟩
          rw [seen_eq hit (by omega) (by omega), isAllocated_eq, hd]
      obtain ⟨t', q, q', hmap, hp⟩ := map_fixed_placed visible_isAllocated cutsRight h.regular hcall hacc hfit
      refine ⟨s', t', q, q', ?_, Paged.of_placed h hp, hp.isArea, fun _ => hb ▸ hp.le_begin,
        he ▸ hp.le_end, ?_, fun hle => hp.above fun k k' d hk hke => ?_⟩
      · simp only [hmap, bind_some]
        rfl
      · refine seen_part hit hinfo hp (fun a h1' h2' => ?_) (by omega) (by omega)
        simp only [AddressRange.mem_def]
        omega
      obtain rfl : e = it' := by omega
      exact hit.end_le hk hke
    -- a free area, cut at the end of the range
    obtain rfl : b = it := by
      rcases max_choice range.beginAddress it with hmax | hmax
      · rw [← hb, hmax] at hdvd
        exact absurd hpages.dvd_begin hdvd
      · omega
    obtain rfl : range.endAddress = e := by omega
    have hd : d.isAllocated = false := by
      cases hd : d.isAllocated with
      | false => rfl
      | true => exact absurd (h.regular.aligned hit hd).1 hdvd
    obtain ⟨c, hc⟩ : ∃ c, alignUp b kPageSize = c := ⟨_, rfl⟩
    obtain ⟨c', hc'⟩ : ∃ c', c + (range.endAddress - b) = c' := ⟨_, rfl⟩
    have hpage : kPageSize = 0x4000 := rfl
    have hle : c ≤ range.endAddress := hc ▸ alignUp_le (by decide) (by omega) hpages.dvd_end hbe.le
    have hbc : b ≤ c := hc ▸ le_alignUp b (by decide) (by omega)
    have hcb' : c ≤ b + (kPageSize - 1) := hc ▸ (Nat.sub_le _ _).trans (Nat.mod_le _ _)
    have hcdvd : kPageSize ∣ c := hc ▸ dvd_alignUp b kPageSize
    have hself : alignUp c kPageSize = c := alignUp_eq_self (by decide) (by omega) hcdvd
    have hfree (a : Nat) (hba : b ≤ a) (ha : a < c') : seen AllocationInfo.isAllocated t a = some false := by
      by_cases hin : a < it'
      · rw [seen_eq hit hba hin, isAllocated_eq, hd]
      have hoff := free_page h hpages.dvd_end hit hbe.le (by omega) hd (show a - range.endAddress < kPageSize by omega)
      rwa [Nat.add_sub_cancel' (by omega)] at hoff
    have hcovered (a : Nat) (hba : b ≤ a) (ha : a < c') : (t.areaOf a).isSome := by
      rw [← isSome_seen AllocationInfo.isAllocated, hfree a hba ha]
      rfl
    have hcall : FixedCall c c' { modifyFlags noMerge with Fixed := true } kPageSize :=
      ⟨by omega, by omega, rfl, rfl, hself⟩
    have hacc : Accepts t c c' { modifyFlags noMerge with Fixed := true } :=
      ⟨b, it', d, hit, hbc, by omega, hcovered _ (by omega) (by omega), by rintro ⟨⟩⟩
    have hfit : Fits kPageSize t c c' d' := .inr ⟨hstatus.trans hd, fun a hca hac => hfree a (by omega) hac⟩
    obtain ⟨t', q, q', hmap, hp⟩ := map_fixed_placed visible_isAllocated cutsRight h.regular hcall hacc hfit
    have hmap' : map t b (range.endAddress - b) d' { modifyFlags noMerge with Fixed := true } kPageSize =
          some (t', ⟨some q, none, ⟨c, c'⟩⟩) := by
      rw [← hmap, ← hc', Nat.add_sub_cancel_left]
      unfold map
      simp only [modifyFlags, AllocationFlags.none, Bool.false_eq_true, if_false, hc, hself]
    have hend := hp.le_end
    refine ⟨s', t', q, q', ?_, Paged.of_placed h hp, hp.isArea, by omega, by omega, fun a => ?_, by omega⟩
    · simp only [hmap', bind_some]
      rfl
    -- nothing is seen of it
    have hsame : seen attributes t' a = seen attributes t a := by
      rw [hp.seen visible_attributes]
      split
      · next ha =>
        rw [seen_of_free (hfree a (hbc.trans ha.1) ha.2), attributes_eq_none (hstatus.trans hd)]
      rfl
    rw [hsame]
    split
    · next ha => rw [seen_eq hit ha.1.1 ha.1.2, attributes_eq_none hd]; rfl
    · rfl

/-- **A turn of `modifyRange`.** -/
theorem modifyArea_spec : TurnsOrDies range cb f noMerge s t it it' := by
  by_cases hwhole : range.beginAddress ≤ it ∧ it' ≤ range.endAddress
  · exact modifyArea_whole hcb h hit hwhole.1 hwhole.2
  · exact modifyArea_part hcb h hpages hit h1 h2 hwhole

end

end Turn

/-! ## The loop -/

/-- Beyond the last area that meets the range nothing is left to do. -/
theorem modifyRange_done {s : σ} {flags : AllocationFlags} {c : Nat} (fuel : Nat) (hwf : t.WF)
    (hc : range.endAddress ≤ c) (hedge : ∀ k k' d, t.IsArea k k' d → k < c → k' ≤ c) :
    modifyRange cb range flags (fuel + 1) s t (t.nextArea c) = some (s, t) := by
  have hfirst := hwf.firstFrom_nextArea c
  cases hnext : t.nextArea c with
  | none => rfl
  | some it =>
    rw [hnext] at hfirst
    obtain ⟨it', d, hit, hlt, -⟩ := hfirst
    have hle : c ≤ it := by
      by_contra hcon
      have := hedge it it' d hit (not_le.mp hcon)
      omega
    exact if_neg (by omega)

/-- **`modifyRange`** from a place where no area is cut: everything of the range from there on is
changed, unless the callback dies. -/
theorem modifyRange_spec (hcb : Applies cb f) (hpages : Pages range) (noMerge : Bool) {fuel c : Nat}
    {s : σ} (h : Paged t) (hedge : ∀ k k' d, t.IsArea k k' d → k < c → k' ≤ c)
    (hbegin : ∀ k k' d, t.IsArea k k' d → c ≤ k → range.beginAddress < k')
    (hfuel : t.areasAbove c < fuel) :
    (Dies cb range (modifyFlags noMerge) s t (t.nextArea c) ∧
      modifyRange cb range (modifyFlags noMerge) fuel s t (t.nextArea c) = none) ∨
    ∃ s' t', modifyRange cb range (modifyFlags noMerge) fuel s t (t.nextArea c) = some (s', t') ∧
      Paged t' ∧ ∀ a, seen attributes t' a = if c ≤ a ∧ a ∈ range then (seen attributes t a).map (Option.map f)
        else seen attributes t a := by
  have hwf := h.regular.wf
  induction fuel generalizing t c s with
  | zero => omega
  | succ fuel ih =>
    have hfirst := hwf.firstFrom_nextArea c
    -- nothing is seen where there is no area
    have hgap {a : Nat} (ha : t.areaOf a = none) : (seen attributes t a).map (Option.map f) = seen attributes t a := by
      rw [seen, MemoryTableWithPayload.valueAt, ha]
      rfl
    cases hnext : t.nextArea c with
    | none =>
      rw [hnext] at hfirst
      refine .inr ⟨s, t, rfl, h, fun a => ?_⟩
      split
      · next ha => exact (hgap (hfirst a ha.1)).symm
      · rfl
    | some it =>
      rw [hnext] at hfirst
      obtain ⟨it', d, hit, hcit, hbefore⟩ := hfirst
      have hlt := hit.lt
      have hcle : c ≤ it := by
        by_contra hcon
        have := hedge it it' d hit (not_le.mp hcon)
        omega
      rw [modifyRange]
      by_cases hstop : it < range.endAddress
      swap
      · rw [if_neg hstop]
        refine .inr ⟨s, t, rfl, h, fun a => ?_⟩
        split
        · next ha =>
          have hend := ha.2.2
          exact (hgap (hbefore a ha.1 (by omega))).symm
        rfl
      rw [if_pos hstop]
      have hrb := hbegin it it' d hit hcle
      obtain ⟨x, hx, hnone, hturn⟩ | ⟨s1, t1, q, q', hturn, h₁⟩ := modifyArea_spec (s := s) hcb h hpages hit hstop hrb
      · rw [hturn]
        exact .inl ⟨.here hstop hx hnone, rfl⟩
      obtain ⟨m, hq⟩ := h₁.isArea
      have hwf1 := h₁.paged.regular.wf
      have hle := h₁.le_end
      have hedge1 : ∀ k k' d, t1.IsArea k k' d → k < q' → k' ≤ q' := fun k k' d hk hlt => hq.end_le hk hlt
      rw [hturn, bind_some]
      dsimp only
      rw [hq.iterNext_eq hwf1]
      -- what is between the area and the end of the block has been joined to it
      have hjoined {a : Nat} (hita : it' ≤ a) (haq : a < q') (ha : a ∈ range) :
          seen attributes t1 a = (seen attributes t a).map (Option.map f) := by
        have hend := ha.2
        have hqb := h₁.le_begin (by omega)
        obtain ⟨b, hb⟩ : ∃ b, max range.beginAddress it = b := ⟨_, rfl⟩
        have hold : seen attributes t1 a = seen attributes t a := by rw [h₁.seen, if_neg (by omega)]
        have hblock : seen attributes t1 a = seen attributes t1 b := by
          rw [seen_eq hq (by omega) haq, seen_eq hq (by omega) (by omega)]
        have hnew : seen attributes t1 b = some (d.attributes.map f) := by
          rw [h₁.seen, if_pos ⟨by omega, by omega, by omega⟩, seen_eq hit (by omega) (by omega)]
          rfl
        rw [← hold, hblock, hnew, map_some, Option.map_map]
        congr 2
        funext x
        exact (hcb.twice x).symm
      have hseen {t' : VirtualMemoryResource} (ht' : ∀ a, seen attributes t' a =
          if q' ≤ a ∧ a ∈ range then (seen attributes t1 a).map (Option.map f)
          else seen attributes t1 a) (a : Nat) : seen attributes t' a =
            if c ≤ a ∧ a ∈ range then (seen attributes t a).map (Option.map f)
            else seen attributes t a := by
        rw [ht']
        by_cases ha : a ∈ range
        swap
        · rw [if_neg fun h => ha h.2, if_neg fun h => ha h.2, h₁.seen, if_neg fun h => ha h.2]
        have hend := ha.2
        by_cases hqa : q' ≤ a
        · rw [if_pos ⟨hqa, ha⟩, if_pos ⟨by omega, ha⟩, h₁.seen, if_neg (by omega)]
        rw [if_neg fun h => hqa h.1]
        by_cases hca : c ≤ a
        swap
        · rw [if_neg fun h => hca h.1, h₁.seen, if_neg (by omega)]
        rw [if_pos ⟨hca, ha⟩]
        by_cases hin : it ≤ a ∧ a < it'
        · rw [h₁.seen, if_pos ⟨hin, ha⟩]
        by_cases hita : it' ≤ a
        · exact hjoined hita (not_le.mp hqa) ha
        · rw [h₁.seen, if_neg fun h => hin h.1, hgap (hbefore a hca (by omega))]
      by_cases hmore : it' ≤ range.endAddress
      · have hdrop := hwf.areasAbove_lt hwf1 hit hcle (by omega) (h₁.above hmore)
        obtain ⟨hdied, hloop⟩ | ⟨s', t', hloop, hpaged, ht'⟩ := ih (s := s1) h₁.paged hedge1
          (fun k k' d hk hqk => by have := hk.lt; have := hpages.lt; omega) (by omega) hwf1
        · exact .inl ⟨.next hstop hturn (by rwa [hq.iterNext_eq hwf1]), hloop⟩
        · exact .inr ⟨s', t', hloop, hpaged, hseen ht'⟩
      obtain ⟨fuel, rfl⟩ : ∃ n, fuel = n + 1 := by
        have hpos := (Nat.zero_le _).trans_lt (hwf.areasAbove_lt hwf hit hcle le_rfl fun _ _ => rfl)
        exact ⟨fuel - 1, by omega⟩
      refine .inr ⟨s1, t1, modifyRange_done fuel hwf1 (by omega) hedge1, h₁.paged, hseen fun a => ?_⟩
      rw [if_neg]
      rintro ⟨hqa, ha⟩
      have := ha.2
      omega

end vmem

end Rpcsx.Orbis
