import Rpcsx.Kernel.MemoryResource.Values
import Rpcsx.Orbis.Dmem.SystemRuns

/-!
# Where `dmem::allocate` finds its memory

The caller gives a range to search. Its begin is passed to the resource as a hint, but its end is only
looked at before the search: the memory that is returned is the first free place behind the begin, which may
lie behind the end.
-/

namespace Rpcsx.Orbis

open Lib Rx Rpcsx.Kernel AllocableResource AddressRange Option SystemUse

/-- The pools that `SystemCall`s lead to: the areas lie in the pool, of which no more is reserved than there is. They
do not after `dmem::clear` of a pool with reserved memory, which is left out: it makes a table for
`dmemTotalSize + dmemReservedSize` bytes. -/
structure DirectMemoryResource.Valid (d : DirectMemoryResource) : Prop where
  wf : d.allocations.WF
  below : Below d.dmemTotalSize d.allocations
  total : d.dmemTotalSize ≤ dmem.systemTag
  reserved : d.dmemReservedSize ≤ d.dmemTotalSize

namespace DirectMemoryPool

variable {d d' : DirectMemoryPool} {u u' : SystemUse} {dmemIndex : Nat}

theorem valid_create {pmemRange : AddressRange} (hsize : pmemRange.size ≤ dmem.systemTag)
    (hcreate : dmem.create pmemRange = some d) : d.Valid := by
  have hsound := sound_create hsize hcreate
  simp only [dmem.create, map_eq_some_iff] at hcreate
  obtain ⟨t, -, rfl⟩ := hcreate
  exact ⟨hsound.wf, hsound.below, hsound.total, Nat.zero_le _⟩

theorem valid_of_onlyMain (h : d.Valid) (honly : SystemUse.OnlyMain d.dmemTotalSize d d') : d'.Valid := by
  obtain ⟨t, rfl, hwf, hbelow⟩ := honly
  exact ⟨hwf, hbelow, h.total, h.reserved⟩

theorem allocateSystem_onlyMain (h : d.Valid) {len al : Nat} {memoryType : MemoryType}
    {result : Except ErrorCode Nat} (hcall : dmem.allocateSystem d len memoryType al = some (d', result)) :
    SystemUse.OnlyMain d.dmemTotalSize d d' := by
  simp only [dmem.allocateSystem, bind_eq_bind, bind_eq_some_iff] at hcall
  generalize (if al = 0 then dmem.kPageSize else al) = al at hcall
  obtain ⟨⟨_, dry⟩, -, hcall⟩ := hcall
  split_ifs at hcall
  · exact onlyMain_of_same h.wf h.below hcall
  obtain ⟨⟨t, res⟩, hmap, hcall⟩ := bind_eq_some_iff.mp hcall
  split_ifs at hcall
  cases hcall
  exact ⟨t, rfl, map_fixed_below rfl h.wf h.below hmap⟩

theorem valid_step {call : SystemCall} (h : u.pool.Valid)
    (hstep : u.step dmemIndex call = some u') : u'.pool.Valid := by
  cases call with
  | reserveSystem size =>
    obtain ⟨⟨pool, result⟩, hcall, rfl⟩ := map_eq_some_iff.mp hstep
    obtain ⟨errc, rfl, rfl⟩ | ⟨b, it, rfl, -, -, htotal, hreserved, hwf, hbelow, -⟩ :=
      reserveSystem_cases h.wf h.below h.total hcall
    · exact h
    · exact ⟨hwf, htotal ▸ hbelow, htotal ▸ h.total, htotal ▸ hreserved⟩
  | allocateSystem len memoryType al =>
    obtain ⟨⟨pool, result⟩, hcall, rfl⟩ := map_eq_some_iff.mp hstep
    have hpool := valid_of_onlyMain h (allocateSystem_onlyMain h hcall)
    cases result with
    | error _ => exact hpool
    | ok _ => exact hpool
  | allocate searchRange len memoryType al pooled =>
    obtain ⟨⟨pool, result⟩, hcall, rfl⟩ := map_eq_some_iff.mp hstep
    exact valid_of_onlyMain h (allocate_onlyMain h.wf h.below hcall)
  | release range pooled =>
    obtain ⟨⟨pool, result⟩, hcall, rfl⟩ := map_eq_some_iff.mp hstep
    exact valid_of_onlyMain h (release_onlyMain h.wf h.below hcall)

/-- **Every call leaves a pool valid**, whatever it is asked for and whether it fails or not. -/
theorem valid_run {pmemRange : AddressRange} {calls : List SystemCall} (hsize : pmemRange.size ≤ dmem.systemTag)
    (hcreate : dmem.create pmemRange = some d) (hrun : Run (step dmemIndex) (fun _ _ => True) ⟨d, [], []⟩ calls u) :
    u.pool.Valid :=
  hrun.invariant (valid_create hsize hcreate) fun _ _ _ h _ hstep => valid_step h hstep

theorem valid_run_refilled : ∃ d u, dmem.create ⟨0, 0x40000⟩ = some d ∧
    Run (step 1) (fun _ _ => True) ⟨d, [], []⟩ refilled u ∧ u.pool.Valid := by
  obtain ⟨u, hu⟩ : ∃ u, fourPages refilled = some u := isSome_iff_exists.mp (by decide +kernel)
  obtain ⟨d, hcreate, hrun⟩ := run_of_fourPages hu
  have hrun := hrun.mono fun _ _ _ => trivial
  exact ⟨d, u, hcreate, hrun, valid_run (by decide) hcreate hrun⟩

end DirectMemoryPool

namespace dmem

/-- The part of the search range that the pool has. -/
def window (d : DirectMemoryPool) (searchRange : AddressRange) : AddressRange :=
  let dmemSize := d.dmemTotalSize - d.dmemReservedSize
  if searchRange.endAddress = 0 ∨ searchRange.endAddress > dmemSize then ⟨searchRange.beginAddress, dmemSize⟩
  else searchRange

/-- A free and aligned place in a range. -/
def Placement (d : DirectMemoryPool) (range : AddressRange) (len alignment o : Nat) : Prop :=
  alignment ∣ o ∧ range.beginAddress ≤ o ∧ o + len ≤ range.endAddress ∧
    ∀ a, o ≤ a → a < o + len → seen DirectMemoryAllocation.allocated d.allocations a = some false

/-- A free area that has an aligned place at or behind `begin`. -/
def Takes (d : DirectMemoryPool) (begin len alignment k k' : Nat) : Prop :=
  ∃ r, d.allocations.IsArea k k' r ∧ r.allocated = false ∧ alignUp (max k begin) alignment + len ≤ k'

/-- If there is a free area for the request, the place in the first one ends in the range. -/
def FirstFits (d : DirectMemoryPool) (range : AddressRange) (len alignment : Nat) : Prop :=
  ∀ k k', Takes d range.beginAddress len alignment k k' →
    (∀ j j', Takes d range.beginAddress len alignment j j' → k ≤ j) →
    alignUp (max k range.beginAddress) alignment + len ≤ range.endAddress

/-- What is wrong with a request itself is noticed. -/
def Asks (range : AddressRange) (len : Nat) : Prop := range.isValid = true ∧ len ≤ range.size ∧ 0 < len

instance (range : AddressRange) (len : Nat) : Decidable (Asks range len) :=
  inferInstanceAs (Decidable (_ ∧ _ ∧ _))

variable {d : DirectMemoryPool} {searchRange : AddressRange} {len al : Nat} {memoryType : MemoryType}
  {pooled : Bool}

theorem window_spec (d : DirectMemoryPool) (searchRange : AddressRange) :
    (window d searchRange).beginAddress = searchRange.beginAddress ∧
    (window d searchRange).endAddress ≤ d.dmemTotalSize - d.dmemReservedSize ∧
    (searchRange.endAddress ≠ 0 → (window d searchRange).endAddress ≤ searchRange.endAddress) := by
  unfold window
  dsimp only
  split
  · exact ⟨rfl, le_rfl, fun h => by dsimp only; omega⟩
  · exact ⟨rfl, by omega, fun _ => le_rfl⟩

theorem le_alignUp_of_pos {len : Nat} (hlen : len < 2 ^ 64) (hpos : 0 < alignUp len kPageSize) :
    len ≤ alignUp len kPageSize := by
  simp only [alignUp, u64, kPageSize] at *
  omega

section

variable (hd : d.Valid)

include hd

/-- The checks of `allocate`. -/
theorem allocate_eq (hlen : len < 2 ^ 64) : allocate d searchRange len memoryType al pooled =
    if Asks (window d searchRange) (alignUp len kPageSize) then
      allocateIn d searchRange.beginAddress (alignUp len kPageSize) (allocationOf memoryType pooled) (alignmentOf al)
    else some (d, .error .INVAL) := by
  obtain ⟨hbegin, hle, hend⟩ := window_spec d searchRange
  unfold allocate
  rw [u64Sub_of_le hd.reserved]
  dsimp only
  rw [show (if searchRange.endAddress = 0 ∨ searchRange.endAddress > d.dmemTotalSize - d.dmemReservedSize then
    fromBeginEnd searchRange.beginAddress (d.dmemTotalSize - d.dmemReservedSize) else searchRange) =
      window d searchRange from rfl,
    show (if al = 0 then kPageSize else al) = alignmentOf al from rfl]
  generalize window d searchRange = w at *
  by_cases hasks : Asks w (alignUp len kPageSize)
  · obtain ⟨hvalid, hsize, hpos⟩ := hasks
    rw [if_neg, if_neg, if_neg hpos.ne', if_neg (not_lt.mpr hle), if_pos ⟨hvalid, hsize, hpos⟩, hbegin]
    · rw [hvalid]
      simpa using hsize
    -- the first check is not stricter than the others
    rintro ⟨hne, h⟩
    have := le_alignUp_of_pos hlen hpos
    have := hend hne
    rw [isValid_iff] at hvalid
    rw [size, u64Sub_of_le hvalid.le] at hsize
    simp only [Bool.not_eq_true', ← Bool.not_eq_true, isValid_iff, size] at h
    rw [u64Sub_of_le (by omega)] at h
    omega
  rw [if_neg hasks]
  split_ifs with h1 h2 h3 h4
  · rfl
  · rfl
  · rfl
  · rfl
  refine absurd ⟨?_, ?_, Nat.pos_of_ne_zero h3⟩ hasks
  · simpa using fun h => h2 (.inl h)
  · exact not_lt.mp fun h => h2 (.inr h)

/-- The search and the commit: the first area that takes the request gets it. -/
theorem allocateIn_spec (allocation : DirectMemoryAllocation) {begin : Nat} (hbegin : begin < d.dmemTotalSize)
    (hlen : 0 < len) (hal : ∃ i < 64, al = 2 ^ i) :
    (allocateIn d begin len allocation al = some (d, .error .AGAIN) ∧ ∀ k k', ¬Takes d begin len al k k') ∨
    ∃ k k' t, Takes d begin len al k k' ∧ (∀ j j', Takes d begin len al j j' → k ≤ j) ∧
      allocateIn d begin len allocation al = some ({ d with allocations := t }, .ok (alignUp (max k begin) al)) := by
  have htotal := hd.total
  rw [systemTag] at htotal
  obtain ⟨hpos, hbound, hdvd⟩ := two_pow_bounds hal
  have hend {k k' : Nat} {r : DirectMemoryAllocation} (hk : d.allocations.IsArea k k' r) :
      k < k' ∧ k' ≤ d.dmemTotalSize := ⟨hk.lt, hd.below.area_end_le hk⟩
  have hround {k : Nat} (hk : k < d.dmemTotalSize) :=
    alignUp_max (k := k) (b := begin) hpos hdvd (by omega) (by omega)
  -- an area that takes the request ends behind the begin
  have hlt {k k' : Nat} (hk : k < d.dmemTotalSize) (h : alignUp (max k begin) al + len ≤ k') :
      alignUp begin al < k' := by
    rw [← hround hk] at h
    have := (le_max_right k _).trans (le_alignUp (max k (alignUp begin al)) hpos
      (by have := alignUp_add_lt hpos hdvd begin; omega))
    omega
  have husable {k k' : Nat} {r : DirectMemoryAllocation} (hk : d.allocations.IsArea k k' r)
      (hb : alignUp begin al < k') : Usable (alignUp begin al) len al dryFlags k k' r ↔
        r.allocated = false ∧ alignUp (max k begin) al + len ≤ k' := by
    have := hend hk
    rw [usable_iff hpos (by omega) rfl (dvd_alignUp _ _) hk.lt hb hlen, hround (by omega)]
    rfl
  obtain ⟨errc, hmap, hnone⟩ | ⟨k, k', r, hk, hbk, huse, hmin, hmap⟩ := map_dry_spec hd.wf len allocation hpos
    (rfl : alignUp begin al = _) fun a ha => by
      have := hd.below a ha
      omega
  · left
    refine ⟨?_, fun k k' h => ?_⟩
    · rw [allocateIn, ← dryFlags, hmap]
      rfl
    obtain ⟨r, hk, hfree, hle⟩ := h
    have hb := hlt (by have := hend hk; omega) hle
    exact hnone k k' r hk hb ((husable hk hb).mpr ⟨hfree, hle⟩)
  right
  obtain ⟨hfree, hle⟩ := (husable hk hbk).mp huse
  have hkk' := hend hk
  have hko := (le_max_left k begin).trans (le_alignUp (max k begin) hpos (by omega))
  rw [hround (by omega)] at hmap
  have hself : alignUp (alignUp (max k begin) al) al = alignUp (max k begin) al :=
    alignUp_eq_self hpos (alignUp_add_lt hpos hdvd _) (dvd_alignUp _ _)
  obtain ⟨errc, -, hhas⟩ | ⟨j, j', e, hj, -, -, -, hcommit⟩ := map_fixed_eq rfl hd.wf len allocation hself
  · rw [u64_of_lt (by omega), u64Sub_of_le (by omega), hk.areaOf_eq hko (by omega),
      hk.areaOf_eq (by omega) (by omega)] at hhas
    exact absurd ⟨rfl, rfl⟩ hhas
  obtain ⟨t, it, hplace, -, -⟩ := place_below (n := 0) hd.wf hj (Nat.lt_add_of_pos_right hlen) allocation
    { AllocationFlags.none with Fixed := true }
  refine ⟨k, k', t, ⟨r, hk, hfree, hle⟩, fun i i' h => ?_, ?_⟩
  · obtain ⟨e', hi, hfree', hle'⟩ := h
    by_contra hik
    have hb := hlt (by have := hend hi; omega) hle'
    exact hmin i i' e' hi hb (not_le.mp hik) ((husable hi hb).mpr ⟨hfree', hle'⟩)
  rw [allocateIn, ← dryFlags, hmap]
  simp only [bind_eq_bind, bind_some, isSome_none, Bool.false_eq_true, if_false]
  rw [hcommit, fromBeginSize, u64_of_lt (by omega), hplace]
  rfl

/-- **The search window**: what `allocate` returns is a free and aligned place in the window, and it refuses a
request that has none, exactly if the first free place behind the begin of the window ends in it. -/
theorem allocate_in_window_iff (hlen : len < 2 ^ 64) (hal : al = 0 ∨ ∃ i < 64, al = 2 ^ i) :
    ((∀ d' o, allocate d searchRange len memoryType al pooled = some (d', .ok o) →
        Placement d (window d searchRange) (alignUp len kPageSize) (alignmentOf al) o) ∧
      ((∀ o, ¬Placement d (window d searchRange) (alignUp len kPageSize) (alignmentOf al) o) →
        ∃ errc, allocate d searchRange len memoryType al pooled = some (d, .error errc))) ↔
    (Asks (window d searchRange) (alignUp len kPageSize) →
      FirstFits d (window d searchRange) (alignUp len kPageSize) (alignmentOf al)) := by
  rw [allocate_eq hd hlen]
  by_cases hasks : Asks (window d searchRange) (alignUp len kPageSize)
  · rw [if_pos hasks]
    obtain ⟨hvalid, -, hpos⟩ := id hasks
    obtain ⟨hb, hle, -⟩ := window_spec d searchRange
    rw [isValid_iff, hb] at hvalid
    obtain ⟨halpos, hbound, -⟩ := two_pow_bounds (exists_alignmentOf hal)
    have htotal := hd.total
    rw [systemTag] at htotal
    simp only [FirstFits, hb]
    obtain ⟨hagain, hnone⟩ | ⟨k, k', t, htakes, hmin, hok⟩ := allocateIn_spec hd (allocationOf memoryType pooled)
      (show searchRange.beginAddress < d.dmemTotalSize by omega) hpos (exists_alignmentOf hal)
    · rw [hagain]
      exact iff_of_true ⟨by rintro _ _ ⟨⟩, fun _ => ⟨_, rfl⟩⟩ fun _ k k' h => absurd h (hnone k k')
    rw [hok]
    constructor
    · rintro ⟨hfound, -⟩ _ j j' hj hjmin
      obtain rfl : j = k := le_antisymm (hjmin k k' htakes) (hmin j j' hj)
      exact (hfound _ _ rfl).2.2.1
    intro hfits
    have hend := hfits hasks k k' htakes hmin
    obtain ⟨r, hk, hfree, hfit⟩ := htakes
    have := hk.lt
    have := hd.below.area_end_le hk
    have hle := le_alignUp (max k searchRange.beginAddress) halpos (by omega)
    have hplace : Placement d (window d searchRange) (alignUp len kPageSize) (alignmentOf al)
        (alignUp (max k searchRange.beginAddress) (alignmentOf al)) := by
      refine ⟨dvd_alignUp _ _, by omega, hend, fun a h1 h2 => ?_⟩
      rw [seen_eq hk (by omega) (by omega), hfree]
    exact ⟨fun d' o h => by cases h; exact hplace, fun h => absurd hplace (h _)⟩
  rw [if_neg hasks]
  exact iff_of_true ⟨by rintro _ _ ⟨⟩, fun _ => ⟨_, rfl⟩⟩ fun h => absurd h hasks

end

/-- The second page is in use, with free memory on both sides of it. -/
def fragmented : List SystemCall :=
  [.allocate ⟨0, 0⟩ 0x20000 .WbOnion 0 false, .release ⟨0, 0x10000⟩ false]

/-- A search that begins in the first page takes the third. -/
theorem allocate_in_window_fragmented : ∃ u, fourPages fragmented = some u ∧
    ∃ d', allocate u.pool ⟨0x8000, 0⟩ 0x8000 .WbOnion 0 false = some (d', .ok 0x20000) ∧
      Placement u.pool (window u.pool ⟨0x8000, 0⟩) (alignUp 0x8000 kPageSize) (alignmentOf 0) 0x20000 := by
  obtain ⟨u, hu, hok, hend⟩ : ∃ u, fourPages fragmented = some u ∧
      (allocate u.pool ⟨0x8000, 0⟩ 0x8000 .WbOnion 0 false).any (fun x => x.2.toOption = some 0x20000) ∧
      (window u.pool ⟨0x8000, 0⟩).endAddress = u.pool.dmemTotalSize := exists_some_and (by decide +kernel)
  obtain ⟨d, hcreate, hrun⟩ := run_of_fourPages hu
  have hd := hrun.invariant (P := fun u => u.pool.Valid) (DirectMemoryPool.valid_create (by decide) hcreate)
    fun _ _ _ h _ hstep => DirectMemoryPool.valid_step h hstep
  obtain ⟨⟨d', _ | o⟩, hallocate, ho⟩ := (any_eq_true _ _).mp hok
  · cases ho
  obtain rfl : o = 0x20000 := some.inj (of_decide_eq_true ho)
  refine ⟨u, hu, d', hallocate, ((allocate_in_window_iff hd (by decide) (.inl rfl)).mpr ?_).1 _ _ hallocate⟩
  intro _ k k' ⟨r, hk, _, hle⟩ _
  rw [hend]
  exact hle.trans (hd.below.area_end_le hk)

/-- A page is taken behind the search range when the range has none left. -/
theorem allocated_behind_window : ((create ⟨0, 0x40000⟩).bind fun d =>
    (allocate d ⟨0, 0x10000⟩ 0x10000 .WbOnion 0 false).bind fun x =>
      (allocate x.1 ⟨0, 0x10000⟩ 0x10000 .WbOnion 0 false).map fun y => (window x.1 ⟨0, 0x10000⟩, x.2, y.2)) =
    some (⟨0, 0x10000⟩, .ok 0, .ok 0x10000) := by decide +kernel

end dmem

end Rpcsx.Orbis
