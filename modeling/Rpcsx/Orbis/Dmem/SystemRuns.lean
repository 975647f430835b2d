import Rpcsx.Kernel.MemoryResource.Gaps
import Rpcsx.Orbis.Dmem.System

/-!
# Which system memory is handed out

Runs of the calls on one pool, with the ranges that the callers have been given. The table of the system
memory holds exactly the reserved ranges; it is never told what `allocate_system` gave away, and the main
table, where that is recorded, has lost those ranges. So a call can only be served where the main table
has got the range back, and it is served with the first gap of the reserved ranges, given away or not.
-/

namespace Rpcsx.Orbis

open Lib Rx Rpcsx.Kernel AllocableResource AddressRange List Option

/-- A pool with the ranges that `reserve_system` and `allocate_system` have returned. -/
structure SystemUse where
  pool : DirectMemoryPool
  reserved : List AddressRange
  returned : List AddressRange

inductive SystemCall where
  | reserveSystem (size : Nat)
  | allocateSystem (len : Nat) (memoryType : MemoryType) (alignment : Nat)
  | allocate (searchRange : AddressRange) (len : Nat) (memoryType : MemoryType) (alignment : Nat)
      (pooled : Bool)
  | release (range : AddressRange) (pooled : Bool)

namespace SystemUse

def reserve (u : SystemUse) (size : Nat) (pool : DirectMemoryPool) : Except ErrorCode Nat → SystemUse
  | .ok address => { u with pool, reserved := ⟨address, address + size⟩ :: u.reserved }
  | .error _ => { u with pool }

def handOut (u : SystemUse) (len : Nat) (pool : DirectMemoryPool) : Except ErrorCode Nat → SystemUse
  | .ok address =>
    let result := address - dmem.systemTag
    { u with pool, returned := ⟨result, result + len⟩ :: u.returned }
  | .error _ => { u with pool }

/-- One call on the pool with this index; `none` when the process dies. -/
def step (dmemIndex : Nat) (u : SystemUse) : SystemCall → Option SystemUse
  | .reserveSystem size =>
    (dmem.reserveSystem u.pool size).map fun (pool, result) => u.reserve size pool result
  | .allocateSystem len memoryType alignment =>
    (dmem.allocateSystem u.pool len memoryType alignment).map fun (pool, result) =>
      u.handOut len pool result
  | .allocate searchRange len memoryType alignment pooled =>
    (dmem.allocate u.pool searchRange len memoryType alignment pooled).map fun (pool, _) =>
      { u with pool }
  | .release range pooled =>
    (dmem.release dmemIndex u.pool range pooled).map fun (pool, _) => { u with pool }

def Reserved (u : SystemUse) (a : Nat) : Prop := ∃ r ∈ u.reserved, a ∈ r

/-- An aligned place for `len` bytes in the reserved ranges. -/
def IsGap (u : SystemUse) (len alignment g : Nat) : Prop :=
  alignment ∣ g ∧ ∀ a, g ≤ a → a < g + len → u.Reserved a

def Unused (u : SystemUse) (len g : Nat) : Prop :=
  ∀ r ∈ u.returned, ∀ a ∈ r, ¬(g ≤ a ∧ a < g + len)

def alignmentOf (alignment : Nat) : Nat := if alignment = 0 then dmem.kPageSize else alignment

/-- A request for whole pages with an alignment that is 0 or a power of two. -/
structure Request (len alignment : Nat) : Prop where
  pos : 0 < len
  lt : len < 0x10000000000000000
  pages : dmem.kPageSize ∣ len
  alignment : alignment = 0 ∨ ∃ i < 64, alignment = 2 ^ i

/-- The first gap, if there is one, is unused, and the main table has its first and its last byte. -/
def Available (u : SystemUse) (len alignment : Nat) : Prop :=
  ∀ g, u.IsGap len (alignmentOf alignment) g → (∀ g', u.IsGap len (alignmentOf alignment) g' → g ≤ g') →
    (u.pool.allocations.areaOf g).isSome = true ∧
    (u.pool.allocations.areaOf (g + len - 1)).isSome = true ∧ u.Unused len g

/-- The obligation of a caller: system memory is only asked for when it is available. -/
def Meets (u : SystemUse) : SystemCall → Prop
  | .allocateSystem len _ alignment => Request len alignment ∧ u.Available len alignment
  | _ => True

def Handed (u : SystemUse) (len alignment : Nat) : Except ErrorCode Nat → Prop
  | .ok address => ∃ g, address = g ||| dmem.systemTag ∧ u.IsGap len (alignmentOf alignment) g ∧
      u.Unused len g
  | .error errc => errc = .AGAIN ∧ ∀ g, u.IsGap len (alignmentOf alignment) g → ¬u.Unused len g

/-! ## Requests -/

theorem exists_alignmentOf {al : Nat} (h : al = 0 ∨ ∃ i < 64, al = 2 ^ i) :
    ∃ i < 64, alignmentOf al = 2 ^ i := by
  unfold alignmentOf
  split
  · exact ⟨16, by decide, rfl⟩
  · next hne => exact h.resolve_left hne

theorem two_pow_bounds {n : Nat} (h : ∃ i < 64, n = 2 ^ i) : 0 < n ∧ n ≤ 0x8000000000000000 ∧ n ∣ 2 ^ 64 := by
  obtain ⟨i, hi, rfl⟩ := h
  exact ⟨Nat.two_pow_pos i, Nat.pow_le_pow_right (n := 2) (by decide) (show i ≤ 63 by omega), Nat.pow_dvd_pow 2 hi.le⟩

namespace Request

variable {len al : Nat}

theorem alignmentOf_bounds (h : Request len al) :
    0 < alignmentOf al ∧ alignmentOf al ≤ 0x8000000000000000 := by
  obtain ⟨hpos, hle, -⟩ := two_pow_bounds (exists_alignmentOf h.alignment)
  exact ⟨hpos, hle⟩

theorem alignUp_len (h : Request len al) : alignUp len dmem.kPageSize = len := by
  obtain ⟨m, hm⟩ := h.pages
  have hlt := h.lt
  apply alignUp_eq_self (by decide) _ h.pages
  rw [dmem.kPageSize] at hm ⊢
  omega

end Request

/-! ## What holds in every run -/

/-- The main table stays below the end of the pool, the other one is made of the reserved ranges, and
what was returned was reserved and was not returned twice. -/
structure Sound (u : SystemUse) : Prop where
  total : u.pool.dmemTotalSize ≤ dmem.systemTag
  wf : u.pool.allocations.WF
  below : Below u.pool.dmemTotalSize u.pool.allocations
  system_wf : u.pool.systemAllocations.WF
  stretches : Stretches default u.pool.systemAllocations
  system_iff : ∀ a, (u.pool.systemAllocations.areaOf a).isSome = true ↔ u.Reserved a
  reserved_le : ∀ r ∈ u.reserved, r.endAddress ≤ u.pool.dmemTotalSize
  returned_reserved : ∀ r ∈ u.returned, ∀ a ∈ r, u.Reserved a
  returned_once : u.returned.Pairwise fun r r' => ∀ a, ¬(a ∈ r ∧ a ∈ r')

variable {u u' : SystemUse} {len al : Nat}

theorem Sound.reserved_lt (h : Sound u) {a : Nat} (ha : u.Reserved a) : a < u.pool.dmemTotalSize := by
  obtain ⟨r, hr, hra⟩ := ha
  exact hra.2.trans_le (h.reserved_le r hr)

theorem Sound.gap_lt (h : Sound u) (hlen : 0 < len) {a g : Nat} (hgap : u.IsGap len a g) :
    g + len ≤ u.pool.dmemTotalSize := by
  have := h.reserved_lt (hgap.2 (g + len - 1) (by omega) (by omega))
  omega

/-- The call changes nothing but the main table, which stays below `n`. -/
def OnlyMain (n : Nat) (d d' : DirectMemoryPool) : Prop :=
  ∃ t : Allocations DirectMemoryAllocation, d' = { d with allocations := t } ∧ t.WF ∧ Below n t

variable {pool : DirectMemoryPool}

theorem Sound.of_onlyMain (h : Sound u) (honly : OnlyMain u.pool.dmemTotalSize u.pool pool) :
    Sound { u with pool } := by
  obtain ⟨t, rfl, hwf, hbelow⟩ := honly
  exact { h with wf := hwf, below := hbelow }

/-! ## `reserve_system` -/

variable {result : Except ErrorCode Nat} {call : SystemCall} {size : Nat}

theorem reserveSystem_cases {d d' : DirectMemoryPool} (hwf : d.allocations.WF)
    (hbelow : Below d.dmemTotalSize d.allocations) (htotal : d.dmemTotalSize ≤ dmem.systemTag)
    (h : dmem.reserveSystem d size = some (d', result)) : (∃ errc, result = .error errc ∧ d' = d) ∨
    ∃ b it, result = .ok b ∧ 0 < size ∧ b + size ≤ d.dmemTotalSize ∧
      d'.dmemTotalSize = d.dmemTotalSize ∧ d'.dmemReservedSize ≤ d.dmemTotalSize ∧ d'.allocations.WF ∧
      Below d.dmemTotalSize d'.allocations ∧
      d.systemAllocations.map ⟨b, b + size⟩ default true false = some (d'.systemAllocations, it) := by
  unfold dmem.reserveSystem at h
  split_ifs at h with hsize hmem
  · cases h
    exact .inl ⟨_, rfl, rfl⟩
  · cases h
    exact .inl ⟨_, rfl, rfl⟩
  have hpos : 0 < size := by
    by_contra hzero
    exact hsize (.inl (by omega))
  simp only [dmem.reserveSystemIn, bind_eq_bind, bind_eq_some_iff] at h
  obtain ⟨⟨t, res⟩, hmap, h⟩ := h
  obtain ⟨rfl, errc, rfl⟩ | ⟨k, k', info, harea, husable, hplace⟩ := map_stack_cases hwf hmap
  · cases h
    exact .inl ⟨_, rfl, rfl⟩
  -- the place is at the end of a free area
  have hk' := hbelow.area_end_le harea
  rw [dmem.systemTag] at htotal
  obtain ⟨hle, hin⟩ := usable_stack (by decide) (by rw [dmem.kPageSize]; omega) harea.lt husable
  have hD := alignDown_le (k' - size) dmem.kPageSize
  rw [u64Sub_of_le hle] at hplace
  generalize alignDown (k' - size) dmem.kPageSize = D at hin hD hplace
  rw [fromBeginSize, u64_of_lt (by omega)] at hplace
  obtain ⟨t1, it, hplace1, hwf1, hbelow1⟩ := place_below (n := d.dmemTotalSize) hwf harea
    (show D < D + size by omega) (dmem.allocationOf .WbOnion false) stackFlags
  obtain ⟨rfl, rfl⟩ := Prod.mk.inj (some.inj (hplace1.symm.trans hplace))
  have hbelow1 := hbelow1 (by omega) hbelow
  obtain ⟨t2, it2, hunmap, hwf2, hareas2⟩ := hwf1.unmap_spec (show D < D + size by omega)
  simp only [hunmap, bind_some, bind_eq_some_iff] at h
  obtain ⟨⟨system, it3⟩, hsystem, h⟩ := h
  cases h
  refine .inr ⟨D, it3, rfl, hpos, by omega, rfl, not_lt.mp hmem, hwf2, fun a ha => ?_, hsystem⟩
  rw [hareas2, MemoryTableWithPayload.unmappedArea] at ha
  split_ifs at ha
  · exact hbelow1 a ha
  · cases ha
  rw [isSome_map] at ha
  exact hbelow1 a ha

theorem Sound.of_reserveSystem (h : Sound u)
    (hcall : dmem.reserveSystem u.pool size = some (pool, result)) : Sound (u.reserve size pool result) := by
  obtain ⟨errc, rfl, rfl⟩ | ⟨b, it, rfl, hpos, hle, htotal, -, hwf, hbelow, hmap⟩ :=
    reserveSystem_cases h.wf h.below h.total hcall
  · exact h
  obtain ⟨t, it', hmap', hwf', hstretches, hiff⟩ :=
    h.stretches.map_spec h.system_wf (show b < b + size by omega)
  obtain ⟨rfl, rfl⟩ := Prod.mk.inj (some.inj (hmap'.symm.trans hmap))
  have hmono {a : Nat} (ha : u.Reserved a) : ∃ r ∈ ⟨b, b + size⟩ :: u.reserved, a ∈ r := by
    obtain ⟨r, hr, har⟩ := ha
    exact ⟨r, mem_cons_of_mem _ hr, har⟩
  rw [reserve]
  refine ⟨htotal ▸ h.total, hwf, htotal ▸ hbelow, hwf', hstretches, fun a => ?_, ?_,
    fun r hr a ha => hmono (h.returned_reserved r hr a ha), h.returned_once⟩
  · rw [hiff, h.system_iff]
    constructor
    · rintro (ha | ha)
      · exact hmono ha
      · exact ⟨_, mem_cons_self, ha⟩
    rintro ⟨r, hr, har⟩
    obtain rfl | hr := mem_cons.mp hr
    · exact .inr har
    · exact .inl ⟨r, hr, har⟩
  intro r hr
  rw [htotal]
  obtain rfl | hr := mem_cons.mp hr
  · exact hle
  · exact h.reserved_le r hr

/-! ## `allocate` and `release` -/

section OnlyMain

variable {d d' : DirectMemoryPool} {n : Nat} (hwf : d.allocations.WF) (hbelow : Below n d.allocations)
  {result : Except ErrorCode Nat} {pooled : Bool}

include hwf hbelow

theorem onlyMain_of_same {R : Type} {r result : R} (h : some (d, r) = some (d', result)) : OnlyMain n d d' := by
  cases h
  exact ⟨_, rfl, hwf, hbelow⟩

theorem allocateIn_onlyMain {begin : Nat} {allocation : DirectMemoryAllocation}
    (h : dmem.allocateIn d begin len allocation al = some (d', result)) : OnlyMain n d d' := by
  simp only [dmem.allocateIn, bind_eq_bind, bind_eq_some_iff] at h
  obtain ⟨⟨_, dry⟩, -, h⟩ := h
  split_ifs at h
  · exact onlyMain_of_same hwf hbelow h
  obtain ⟨⟨t, res⟩, hmap, h⟩ := bind_eq_some_iff.mp h
  split_ifs at h
  cases h
  exact ⟨t, rfl, map_fixed_below rfl hwf hbelow hmap⟩

theorem allocate_onlyMain {searchRange : AddressRange} {type : MemoryType}
    (h : dmem.allocate d searchRange len type al pooled = some (d', result)) : OnlyMain n d d' := by
  simp only [dmem.allocate] at h
  generalize u64Sub d.dmemTotalSize d.dmemReservedSize = dmemSize at h
  generalize (if searchRange.endAddress = 0 ∨ searchRange.endAddress > dmemSize then
    fromBeginEnd searchRange.beginAddress dmemSize else searchRange) = range at h
  generalize (if al = 0 then dmem.kPageSize else al) = al at h
  split_ifs at h
  · exact onlyMain_of_same hwf hbelow h
  · exact onlyMain_of_same hwf hbelow h
  · exact onlyMain_of_same hwf hbelow h
  · exact onlyMain_of_same hwf hbelow h
  · exact allocateIn_onlyMain hwf hbelow h

theorem release_onlyMain {dmemIndex : Nat} {range : AddressRange}
    {result : Except ErrorCode (List Mapping)}
    (h : dmem.release dmemIndex d range pooled = some (d', result)) : OnlyMain n d d' := by
  simp only [dmem.release] at h
  split_ifs at h
  · exact onlyMain_of_same hwf hbelow h
  · exact onlyMain_of_same hwf hbelow h
  split at h
  · exact onlyMain_of_same hwf hbelow h
  simp only [bind_eq_bind, bind_eq_some_iff] at h
  obtain ⟨first, -, h⟩ := h
  split_ifs at h
  · exact onlyMain_of_same hwf hbelow h
  obtain ⟨t, hupdate, h⟩ := bind_eq_some_iff.mp h
  obtain ⟨⟨t', res⟩, hmap, h⟩ := bind_eq_some_iff.mp h
  obtain ⟨hwf1, hbelow1⟩ := hbelow.of_updateIn hwf hupdate
  have hmain := map_fixed_below rfl hwf1 hbelow1 hmap
  split at h
  · cases h
    exact ⟨t', rfl, hmain⟩
  · cases h
    exact ⟨t', rfl, hmain⟩

end OnlyMain

/-! ## `allocate_system` -/

/-- The search finds the first gap. -/
theorem Sound.search_spec (h : Sound u) (hreq : Request len al) (info : DirectMemoryAllocation) :
    (∃ errc, map u.pool.systemAllocations 0 len info dryFlags (alignmentOf al) =
        some (u.pool.systemAllocations, .failed errc) ∧ ∀ g, ¬u.IsGap len (alignmentOf al) g) ∨
    ∃ g, map u.pool.systemAllocations 0 len info dryFlags (alignmentOf al) =
        some (u.pool.systemAllocations, ⟨none, none, ⟨g, g + len⟩⟩) ∧
      u.IsGap len (alignmentOf al) g ∧ ∀ g', u.IsGap len (alignmentOf al) g' → g ≤ g' := by
  obtain ⟨hpos, hbound⟩ := hreq.alignmentOf_bounds
  have hlen := hreq.pos
  have htotal := h.total
  rw [dmem.systemTag] at htotal
  generalize alignmentOf al = al at hpos hbound ⊢
  have hareas {k k' : Nat} {d : DirectMemoryAllocation} (hk : u.pool.systemAllocations.IsArea k k' d) :
      k' ≤ u.pool.dmemTotalSize := by
    have hlt := hk.lt
    have hlast := h.reserved_lt ((h.system_iff (k' - 1)).mp
      (by rw [hk.areaOf_eq (by omega) (by omega)]; rfl))
    omega
  have husable_iff {k k' : Nat} {d : DirectMemoryAllocation} (hk : u.pool.systemAllocations.IsArea k k' d) :
      Usable 0 len al dryFlags k k' d ↔ d.allocated = false ∧ alignUp k al + len ≤ k' := by
    have := hareas hk
    have := hk.lt
    rw [usable_iff hpos (by omega) rfl (Nat.dvd_zero _) hk.lt (by omega) hlen, Nat.max_zero]
    rfl
  -- a gap is inside one area, which is then usable
  have husable {g : Nat} (hg : u.IsGap len al g) : ∃ k k', u.pool.systemAllocations.IsArea k k' default ∧
      alignUp k al ≤ g ∧ Usable 0 len al dryFlags k k' (default : DirectMemoryAllocation) := by
    obtain ⟨k, k', hk, hkg, hgk'⟩ := h.stretches.exists_isArea h.system_wf (show g < g + len by omega)
      fun a h1 h2 => (h.system_iff a).mpr (hg.2 a h1 h2)
    have hle := alignUp_le hpos (by have := hareas hk; omega) hg.1 hkg
    exact ⟨k, k', hk, hle, (husable_iff hk).mpr ⟨rfl, by omega⟩⟩
  obtain ⟨errc, hmap, hnone⟩ | ⟨j, j', d, hj, -, huse, hmin, hmap⟩ := map_dry_spec h.system_wf len info hpos
    (alignUp_eq_self hpos (by omega) (Nat.dvd_zero _)) fun a ha => by
      have := h.reserved_lt ((h.system_iff a).mp ha)
      omega
  · refine .inl ⟨errc, hmap, fun g hg => ?_⟩
    obtain ⟨k, k', hk, -, huse⟩ := husable hg
    exact hnone k k' _ hk (Nat.zero_lt_of_lt hk.lt) huse
  right
  obtain ⟨-, hfit⟩ := (husable_iff hj).mp huse
  have hj' := hareas hj
  have hle := le_alignUp j hpos (by have := hj.lt; omega)
  rw [Nat.max_zero] at hmap
  refine ⟨alignUp j al, hmap, ⟨dvd_alignUp j al, fun a h1 h2 => (h.system_iff a).mp ?_⟩, fun g' hg' => ?_⟩
  · rw [hj.areaOf_eq (by omega) (by omega)]
    rfl
  obtain ⟨k, k', hk, hkg, huse'⟩ := husable hg'
  have hjk : j ≤ k := by
    by_contra hkj
    exact hmin k k' _ hk (Nat.zero_lt_of_lt hk.lt) (not_le.mp hkj) huse'
  obtain rfl | hjk := hjk.eq_or_lt
  · exact hkg
  have hdis := hj.le_begin hk hjk
  have := le_alignUp k hpos (by have := hareas hk; have := hk.lt; omega)
  omega

theorem or_systemTag {g : Nat} (h : g < dmem.systemTag) : g ||| dmem.systemTag = g + dmem.systemTag := by
  rw [Nat.or_comm, Nat.add_comm]
  exact (Nat.two_pow_add_eq_or_of_lt (i := 38) h 1).symm

/-- **The call**: without a gap it says so; otherwise it is the first gap that is returned, if the main
table has it, and the process dies if not. -/
theorem Sound.allocateSystem_spec (h : Sound u) (hreq : Request len al) (type : MemoryType) :
    (dmem.allocateSystem u.pool len type al = some (u.pool, .error .AGAIN) ∧
      ∀ g, ¬u.IsGap len (alignmentOf al) g) ∨ ∃ g, u.IsGap len (alignmentOf al) g ∧
      (∀ g', u.IsGap len (alignmentOf al) g' → g ≤ g') ∧ (((u.pool.allocations.areaOf g).isSome ∧
          (u.pool.allocations.areaOf (g + len - 1)).isSome ∧ ∃ t, t.WF ∧ Below u.pool.dmemTotalSize t ∧
            dmem.allocateSystem u.pool len type al =
              some ({ u.pool with allocations := t }, .ok (g ||| dmem.systemTag))) ∨
        (¬((u.pool.allocations.areaOf g).isSome ∧
            (u.pool.allocations.areaOf (g + len - 1)).isSome) ∧
          dmem.allocateSystem u.pool len type al = none)) := by
  have hcall : dmem.allocateSystem u.pool len type al = do
      let r ← map u.pool.systemAllocations 0 len (dmem.allocationOf type false) dryFlags (alignmentOf al)
      if r.2.errc.isSome then return (u.pool, .error .AGAIN)
      else
        let c ← map u.pool.allocations r.2.range.beginAddress len
          (dmem.allocationOf type false) { AllocationFlags.none with Fixed := true } (alignmentOf al)
        if c.2.errc.isSome then none
        else return ({ u.pool with allocations := c.1 }, .ok (r.2.range.beginAddress ||| dmem.systemTag)) := by
    rw [dmem.allocateSystem, hreq.alignUp_len]
    rfl
  have hlen := hreq.pos
  obtain ⟨errc, hmap, hnone⟩ | ⟨g, hmap, hgap, hfirst⟩ :=
    h.search_spec hreq (dmem.allocationOf type false)
  · left
    refine ⟨?_, hnone⟩
    rw [hcall, hmap]
    rfl
  right
  refine ⟨g, hgap, hfirst, ?_⟩
  rw [hcall, hmap]
  simp only [bind_eq_bind, bind_some, isSome_none, Bool.false_eq_true, if_false]
  -- the commit is a fixed call on the gap
  obtain ⟨hpos, hbound⟩ := hreq.alignmentOf_bounds
  have hle := h.gap_lt hlen hgap
  have htotal := h.total
  rw [dmem.systemTag] at htotal
  have hend : u64 (g + len) = g + len := u64_of_lt (by omega)
  obtain ⟨errc, hcommit, hhas⟩ | ⟨k, k', d, harea, h1, h2, hlast, hcommit⟩ := map_fixed_eq rfl h.wf len
    (dmem.allocationOf type false) (alignUp_eq_self hpos (by omega) hgap.1)
  · right
    rw [hend, u64Sub_of_le (by omega)] at hhas
    refine ⟨hhas, ?_⟩
    rw [hcommit]
    rfl
  left
  rw [hend, u64Sub_of_le (by omega)] at hlast
  obtain ⟨t, it, hplace, hwf, hbelow⟩ := place_below (n := u.pool.dmemTotalSize) h.wf harea
    (show g < g + len by omega) (dmem.allocationOf type false) { AllocationFlags.none with Fixed := true }
  refine ⟨by rw [harea.areaOf_eq h1 h2]; rfl, hlast, t, hwf, hbelow hle h.below, ?_⟩
  rw [hcommit, fromBeginSize, hend, hplace]
  rfl

theorem Sound.of_allocateSystem (h : Sound u) (hreq : Request len al) (havail : u.Available len al)
    {type : MemoryType} (hcall : dmem.allocateSystem u.pool len type al = some (pool, result)) :
    Sound (u.handOut len pool result) := by
  obtain ⟨hagain, -⟩ | ⟨g, hgap, hfirst, ⟨-, -, t, hwf, hbelow, hok⟩ | ⟨-, hdies⟩⟩ :=
    h.allocateSystem_spec hreq type
  · obtain ⟨rfl, rfl⟩ := Prod.mk.inj (some.inj (hagain.symm.trans hcall))
    exact h
  · obtain ⟨rfl, rfl⟩ := Prod.mk.inj (some.inj (hok.symm.trans hcall))
    have hlt := h.gap_lt hreq.pos hgap
    have hpos := hreq.pos
    have htotal := h.total
    have hmain := h.of_onlyMain ⟨t, rfl, hwf, hbelow⟩
    rw [handOut, or_systemTag (by omega), Nat.add_sub_cancel]
    refine ⟨hmain.total, hmain.wf, hmain.below, hmain.system_wf, hmain.stretches, hmain.system_iff,
      hmain.reserved_le, ?_, ?_⟩
    · intro r hr a ha
      obtain rfl | hr := mem_cons.mp hr
      · exact hgap.2 a ha.1 ha.2
      · exact h.returned_reserved r hr a ha
    refine pairwise_cons.mpr ⟨fun r hr a ⟨hg, ha⟩ => ?_, h.returned_once⟩
    exact (havail g hgap hfirst).2.2 r hr a ha hg
  rw [hdies] at hcall
  cases hcall

/-! ## Runs -/

theorem below_empty (n : Nat) : Below n (.empty : Allocations DirectMemoryAllocation) :=
  fun _ ha => absurd ha Bool.false_ne_true

theorem sound_create {pmemRange : AddressRange} (hsize : pmemRange.size ≤ dmem.systemTag)
    (hcreate : dmem.create pmemRange = some pool) : Sound ⟨pool, [], []⟩ := by
  simp only [dmem.create, map_eq_some_iff] at hcreate
  obtain ⟨t, hcreate, rfl⟩ := hcreate
  simp only [create, map_eq_some_iff] at hcreate
  obtain ⟨⟨t', it⟩, hmap, rfl⟩ := hcreate
  have hempty : (MemoryTableWithPayload.empty : Allocations DirectMemoryAllocation).WF := rfl
  have hend : (fromBeginSize 0 pmemRange.size).endAddress = pmemRange.size := by
    rw [dmem.systemTag] at hsize
    rw [fromBeginSize, Nat.zero_add, u64_of_lt (by omega)]
  exact
    { total := hsize
      wf := hempty.of_map hmap
      below := (below_empty _).of_map hempty hend.le hmap
      system_wf := hempty
      stretches := by constructor <;> rintro _ _ _ ⟨⟩
      system_iff := fun a => ⟨fun ha => absurd ha Bool.false_ne_true, by rintro ⟨_, ⟨⟩, _⟩⟩
      reserved_le := by rintro _ ⟨⟩
      returned_reserved := by rintro _ ⟨⟩
      returned_once := .nil }

theorem Sound.step {dmemIndex : Nat} (h : Sound u) (hmeets : u.Meets call)
    (hstep : u.step dmemIndex call = some u') : Sound u' := by
  cases call with
  | reserveSystem size =>
    obtain ⟨⟨pool, result⟩, hcall, rfl⟩ := map_eq_some_iff.mp hstep
    exact h.of_reserveSystem hcall
  | allocateSystem len type al =>
    obtain ⟨⟨pool, result⟩, hcall, rfl⟩ := map_eq_some_iff.mp hstep
    exact h.of_allocateSystem hmeets.1 hmeets.2 hcall
  | allocate searchRange len type al pooled =>
    obtain ⟨⟨pool, result⟩, hcall, rfl⟩ := map_eq_some_iff.mp hstep
    exact h.of_onlyMain (allocate_onlyMain h.wf h.below hcall)
  | release range pooled =>
    obtain ⟨⟨pool, result⟩, hcall, rfl⟩ := map_eq_some_iff.mp hstep
    exact h.of_onlyMain (release_onlyMain h.wf h.below hcall)

theorem Sound.handed_iff (h : Sound u) (hreq : Request len al) (type : MemoryType) :
    (∃ pool result, dmem.allocateSystem u.pool len type al = some (pool, result) ∧
      u.Handed len al result) ↔ u.Available len al := by
  have hpos := hreq.pos
  have htotal := h.total
  constructor
  · rintro ⟨pool, result, hcall, hhanded⟩ g hgap hfirst
    obtain ⟨-, hnone⟩ | ⟨g', hgap', hfirst', ⟨hb, he, t, -, -, hok⟩ | ⟨-, hdies⟩⟩ :=
      h.allocateSystem_spec hreq type
    · exact absurd hgap (hnone g)
    · obtain rfl : g = g' := le_antisymm (hfirst g' hgap') (hfirst' g hgap)
      obtain ⟨-, rfl⟩ := Prod.mk.inj (some.inj (hok.symm.trans hcall))
      obtain ⟨g1, heq, hgap1, hunused⟩ := hhanded
      -- the tag does not hide the address
      have hlt := h.gap_lt hpos hgap
      have hlt1 := h.gap_lt hpos hgap1
      rw [or_systemTag (by omega), or_systemTag (by omega)] at heq
      obtain rfl : g = g1 := Nat.add_right_cancel heq
      exact ⟨hb, he, hunused⟩
    rw [hdies] at hcall
    cases hcall
  intro havail
  obtain ⟨hagain, hnone⟩ | ⟨g, hgap, hfirst, ⟨-, -, t, -, -, hok⟩ | ⟨hhas, -⟩⟩ :=
    h.allocateSystem_spec hreq type
  · exact ⟨_, _, hagain, rfl, fun g hgap => absurd hgap (hnone g)⟩
  · exact ⟨_, _, hok, g, rfl, hgap, (havail g hgap hfirst).2.2⟩
  obtain ⟨hb, he, -⟩ := havail g hgap hfirst
  exact absurd ⟨hb, he⟩ hhas

/-- **Which system memory is handed out.** In every run in which system memory is only asked for when it
is available, a request is served with an aligned place in the reserved ranges that was not returned
before, or refused because there is none, exactly when it is available; and what was returned is in the
reserved ranges and was returned once. -/
theorem system_memory_handed_out (dmemIndex : Nat) {pmemRange : AddressRange} {pool : DirectMemoryPool}
    (hsize : pmemRange.size ≤ dmem.systemTag) (hcreate : dmem.create pmemRange = some pool)
    {calls : List SystemCall} (hrun : Run (step dmemIndex) Meets ⟨pool, [], []⟩ calls u) :
    (∀ len memoryType alignment, Request len alignment →
      ((∃ pool result, dmem.allocateSystem u.pool len memoryType alignment = some (pool, result) ∧
        u.Handed len alignment result) ↔ u.Available len alignment)) ∧ (∀ r ∈ u.returned, ∀ a ∈ r, u.Reserved a) ∧
    u.returned.Pairwise fun r r' => ∀ a, ¬(a ∈ r ∧ a ∈ r') := by
  have h : Sound u := hrun.invariant (sound_create hsize hcreate) fun _ _ _ h hmeets hstep =>
    h.step hmeets hstep
  exact ⟨fun len memoryType alignment hreq => h.handed_iff hreq memoryType, h.returned_reserved,
    h.returned_once⟩

def isRequest : SystemCall → Bool
  | .allocateSystem .. => true
  | _ => false

theorem meets_of_not_isRequest (u : SystemUse) (h : isRequest call = false) : u.Meets call := by
  cases call with
  | allocateSystem => cases h
  | reserveSystem | allocate | release => exact trivial

def fourPages (calls : List SystemCall) : Option SystemUse :=
  (dmem.create ⟨0, 0x40000⟩).bind fun pool =>
    Run.eval (step 1) (fun _ call => isRequest call = false) ⟨pool, [], []⟩ calls

theorem run_of_fourPages {calls : List SystemCall} (h : fourPages calls = some u) :
    ∃ pool, dmem.create ⟨0, 0x40000⟩ = some pool ∧ Run (step 1) Meets ⟨pool, [], []⟩ calls u := by
  obtain ⟨pool, hcreate, heval⟩ := bind_eq_some_iff.mp h
  exact ⟨pool, hcreate, (Run.of_eval heval).mono fun s _ => meets_of_not_isRequest s⟩

/-- A reserved page between two free areas comes back to the main table when they are merged. -/
def refilled : List SystemCall :=
  [.allocate ⟨0x30000, 0⟩ 0x10000 .WbOnion 0 false, .reserveSystem 0x10000,
    .release ⟨0x30000, 0x40000⟩ false]

theorem system_memory_handed_out_refilled : ∃ pool u, dmem.create ⟨0, 0x40000⟩ = some pool ∧
    Run (step 1) Meets ⟨pool, [], []⟩ refilled u ∧ Request 0x10000 0 ∧
    ∃ pool result, dmem.allocateSystem u.pool 0x10000 .WbOnion 0 = some (pool, result) ∧
      u.Handed 0x10000 0 result := by
  obtain ⟨u, hu, hreserved, hreturned, hfirst, hlast⟩ : ∃ u, fourPages refilled = some u ∧
      u.reserved = [⟨0x20000, 0x30000⟩] ∧ u.returned = [] ∧ (u.pool.allocations.areaOf 0x20000).isSome ∧
      (u.pool.allocations.areaOf 0x2ffff).isSome := exists_some_and (by decide +kernel)
  obtain ⟨pool, hcreate, hrun⟩ := run_of_fourPages hu
  have hreq : Request 0x10000 0 := ⟨by decide, by decide, by decide, .inl rfl⟩
  refine ⟨pool, u, hcreate, hrun, hreq,
    ((system_memory_handed_out 1 (by decide) hcreate hrun).1 _ .WbOnion _ hreq).mpr ?_⟩
  intro g hgap _
  have hin (a : Nat) (ha : u.Reserved a) : 0x20000 ≤ a ∧ a < 0x30000 := by
    obtain ⟨r, hr, har⟩ := ha
    rw [hreserved, mem_singleton] at hr
    subst hr
    exact har
  have h1 := hin g (hgap.2 g le_rfl (by omega))
  have h2 := hin (g + 0xffff) (hgap.2 _ (by omega) (by omega))
  obtain rfl : g = 0x20000 := by omega
  refine ⟨hfirst, hlast, fun r hr => ?_⟩
  rw [hreturned] at hr
  cases hr

/-- The first request for system memory, with all of it left, ends the process. -/
theorem system_memory_dies : ∃ pool u, dmem.create ⟨0, 0x40000⟩ = some pool ∧
    Run (step 1) Meets ⟨pool, [], []⟩ [.reserveSystem 0x20000] u ∧ Request 0x10000 0 ∧
    u.IsGap 0x10000 (alignmentOf 0) 0x20000 ∧ u.Unused 0x10000 0x20000 ∧
    dmem.allocateSystem u.pool 0x10000 .WbOnion 0 = none := by
  obtain ⟨u, hu, hreserved, hreturned, hdies⟩ : ∃ u, fourPages [.reserveSystem 0x20000] = some u ∧
      u.reserved = [⟨0x20000, 0x40000⟩] ∧ u.returned = [] ∧
      (dmem.allocateSystem u.pool 0x10000 .WbOnion 0).isNone := exists_some_and (by decide +kernel)
  obtain ⟨pool, hcreate, hrun⟩ := run_of_fourPages hu
  refine ⟨pool, u, hcreate, hrun, ⟨by decide, by decide, by decide, .inl rfl⟩,
    ⟨by decide, fun a h1 h2 => ⟨⟨0x20000, 0x40000⟩, ?_, h1, ?_⟩⟩, fun r hr => ?_, isNone_iff_eq_none.mp hdies⟩
  · rw [hreserved]
    exact mem_singleton_self _
  · show a < 0x40000
    omega
  rw [hreturned] at hr
  cases hr

end SystemUse

end Rpcsx.Orbis
