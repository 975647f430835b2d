import Rpcsx.Lib.Run
import Rpcsx.Orbis.Blockpool.Commit

/-!
# Pooled memory owns each byte once

The two pools together, under any sequence of calls. Beside them the state holds what the world
outside knows: the set of all bytes the pools were given, and the translation that the calls of
`pmem::map` have established. `run_owns_once`: as long as every call is clean, the physical ranges
held by the pools are disjoint, together they are what was given, and every recorded address is the
one that was mapped.
-/

namespace Rpcsx.Orbis

open Lib Rx MemoryTableWithPayload List Option

namespace PooledMemoryResource

variable {p : PooledMemoryResource}

def physRanges (p : PooledMemoryResource) : List AddressRange :=
  p.freeBlocks ++ (p.reservedPages.map (fun a => ⟨a, a + dmem.kPageSize⟩) ++
    p.usedBlocks.areas.map fun x =>
      ⟨x.2.pmemAddress, x.2.pmemAddress + (x.1.endAddress - x.1.beginAddress)⟩)

theorem bytesOf_physRanges (p : PooledMemoryResource) : bytesOf p.physRanges = p.owned := by
  have hreserved : bytesOf (p.reservedPages.map fun a => ⟨a, a + dmem.kPageSize⟩) = p.reserved := by
    simp only [bytesOf, reserved, List.map_map]
    rfl
  have hbacking : bytesOf (p.usedBlocks.areas.map fun x =>
      ⟨x.2.pmemAddress, x.2.pmemAddress + (x.1.endAddress - x.1.beginAddress)⟩) = p.backing := by
    simp only [bytesOf, backing, translated, List.map_map]
    rfl
  rw [physRanges, bytesOf_append, bytesOf_append, hreserved, hbacking, owned, free, add_assoc]

/-- A pool of which everything is in use has no free blocks. -/
theorem Inv.freeBlocks_eq_nil (h : p.Inv) (hused : p.total ≤ p.used) : p.freeBlocks = [] := by
  have htotal := h.total_eq
  have hnone : p.free.card = 0 := by omega
  cases hblocks : p.freeBlocks with
  | nil => rfl
  | cons b l =>
    have hb := h.valid b (hblocks ▸ mem_cons_self)
    rw [free, hblocks, bytesOf_cons, Multiset.card_add, card_bytes] at hnone
    omega

/-- The counter `total` counts the bytes the pool owns. -/
theorem Inv.total_eq_card (h : p.Inv) : p.total = p.owned.card := by
  have hbacking : p.backing.card = p.usedBlocks.addresses.card := by rw [backing, h.wf.translated_eq, Multiset.card_map]
  have hreserved : p.reserved.card = p.reservedPages.length * dmem.kPageSize := by
    unfold reserved
    induction p.reservedPages with
    | nil => simp
    | cons a l ih =>
      simp only [map_cons, sum_cons, Multiset.card_add, card_bytes, ih, length_cons, Nat.add_mul, Nat.one_mul]
      omega
  rw [h.total_eq, h.used_eq, owned, Multiset.card_add, Multiset.card_add, hbacking, hreserved]
  omega

end PooledMemoryResource

open PooledMemoryResource

/-! ## Calls and runs -/

/-- The pools and what is known about them outside. -/
structure PoolWorld where
  pools : Blockpools
  pmem : Nat → Option Nat
  expanded : Finset Nat

def PoolWorld.initial : PoolWorld := ⟨⟨.empty, .empty⟩, fun _ => none, ∅⟩

inductive PoolOp where
  | expand (dmemRange : AddressRange)
  | allocateControlBlock
  | releaseControlBlock
  | commit (vmemRange : AddressRange) (type : MemoryType)
  | decommit (vmemRange : AddressRange)

def PoolOp.step (s : PoolWorld) : PoolOp → Option PoolWorld
  | .expand r => (blockpool.expand s.pools r).map fun (pools, errc) =>
      ⟨pools, s.pmem,
        if errc = none then s.expanded ∪ Finset.Ico r.beginAddress r.endAddress else s.expanded⟩
  | .allocateControlBlock => (blockpool.allocateControlBlock s.pools).map fun (pools, _) =>
      { s with pools }
  | .releaseControlBlock => (blockpool.releaseControlBlock s.pools).map fun (pools, _) =>
      { s with pools }
  | .commit r type => (blockpool.commit s.pools r type).map fun (pools, _, calls) =>
      { s with pools, pmem := afterCalls s.pmem calls }
  | .decommit r => (blockpool.decommit s.pools r).map fun pools => { s with pools }

/-- What the callers guarantee: `expand` gets fresh memory in whole pages, `commit` a range of pages
of which nothing is committed. -/
def PoolOp.Legal (s : PoolWorld) : PoolOp → Prop
  | .expand r => r.beginAddress < r.endAddress ∧ r.endAddress < 0x10000000000000000 ∧
      dmem.kPageSize ∣ r.beginAddress ∧ dmem.kPageSize ∣ r.endAddress ∧ ∀ x ∈ r, x ∉ s.expanded
  | .allocateControlBlock => True
  | .releaseControlBlock => True
  | .commit r _ => r.beginAddress < r.endAddress ∧ r.endAddress < 0x10000000000000000 ∧
      vmem.kPageSize ∣ r.beginAddress ∧ vmem.kPageSize ∣ r.endAddress ∧
      ∀ a ∈ r, s.pools.blockpool.usedBlocks.areaOf a = none ∧
        s.pools.cachedBlockpool.usedBlocks.areaOf a = none
  | .decommit r => r.beginAddress < r.endAddress

/-- `commit` takes its memory from a pool that has enough of it: then the last block it takes must be
used up. (A pool that has not enough is filled up to exactly what is needed.) -/
def CommitFits (pool : PooledMemoryResource) (size : Nat) : Prop :=
  size ≤ u64Sub pool.total pool.used → ExactFit pool.freeBlocks size

/-- The calls that avoid the slips. -/
def PoolOp.Clean (s : PoolWorld) : PoolOp → Prop
  | .expand _ => True
  | .allocateControlBlock =>
      if s.pools.cachedBlockpool.used < s.pools.cachedBlockpool.total then
        dmem.kPageSize ≤ u64Sub s.pools.cachedBlockpool.total s.pools.cachedBlockpool.used →
          s.pools.cachedBlockpool.PageReady
      else dmem.kPageSize ≤ u64Sub s.pools.blockpool.total s.pools.blockpool.used →
        PageAhead s.pools.blockpool.freeBlocks
  | .releaseControlBlock => True
  | .commit r type =>
      if type = .WbOnion then CommitFits s.pools.cachedBlockpool r.size
      else CommitFits s.pools.blockpool r.size
  | .decommit r => s.pools.blockpool.NoTail r.endAddress ∧
      s.pools.cachedBlockpool.NoTail r.endAddress

/-! ## The invariant -/

def Agrees (p : PooledMemoryResource) (pmem : Nat → Option Nat) : Prop :=
  ∀ a x, p.recorded a = some x → pmem a = some x

structure PoolWorld.Owns (s : PoolWorld) : Prop where
  main : s.pools.blockpool.Inv
  cached : s.pools.cachedBlockpool.Inv
  owned_eq : s.pools.blockpool.owned + s.pools.cachedBlockpool.owned = s.expanded.val
  mainAgrees : Agrees s.pools.blockpool s.pmem
  cachedAgrees : Agrees s.pools.cachedBlockpool s.pmem

theorem PoolWorld.owns_initial : PoolWorld.initial.Owns where
  main := inv_empty
  cached := inv_empty
  owned_eq := rfl
  mainAgrees := by intro a x h; cases h
  cachedAgrees := by intro a x h; cases h

variable {s : PoolWorld}

theorem PoolWorld.Owns.total_add (h : s.Owns) :
    s.pools.blockpool.total + s.pools.cachedBlockpool.total = s.expanded.card := by
  rw [h.main.total_eq_card, h.cached.total_eq_card, ← Multiset.card_add, h.owned_eq]
  rfl

theorem PoolWorld.Owns.expanded_lt (h : s.Owns) {x : Nat} (hx : x ∈ s.expanded) : x + 1 < 2 ^ 64 := by
  have hx' : x ∈ s.pools.blockpool.owned + s.pools.cachedBlockpool.owned := by rw [h.owned_eq]; exact hx
  rcases Multiset.mem_add.mp hx' with hx' | hx'
  · exact h.main.owned_lt x hx'
  · exact h.cached.owned_lt x hx'

/-- A set of 64-bit addresses has fewer than `2^64` elements. -/
theorem card_lt_of_bounded {E : Finset Nat} (h : ∀ x ∈ E, x + 1 < 2 ^ 64) : E.card < 2 ^ 64 := by
  have hsub : E ⊆ Finset.range 0xffffffffffffffff := fun x hx => by
    have := h x hx
    rw [Finset.mem_range]
    omega
  have hle := Finset.card_le_card hsub
  rw [Finset.card_range] at hle
  omega

variable {p p' : PooledMemoryResource} {r : AddressRange}

theorem recorded_of_usedBlocks_eq (h : p'.usedBlocks = p.usedBlocks) : p'.recorded = p.recorded := by
  unfold recorded; rw [h]

theorem Agrees.of_usedBlocks_eq {m : Nat → Option Nat} (h : Agrees p m) (hused : p'.usedBlocks = p.usedBlocks) :
    Agrees p' m := fun a x hx => h a x (by rwa [← recorded_of_usedBlocks_eq hused])

/-! ## The calls keep it -/

/-- `commit` between two pools. -/
theorem commitIn_spec {pool other : PooledMemoryResource} (hp : pool.Inv) (ho : other.Inv)
    (hsum : other.total + pool.total < 2 ^ 64)
    (hr : r.beginAddress < r.endAddress) (hlt : r.endAddress < 2 ^ 64)
    (hfree : ∀ a ∈ r, pool.usedBlocks.areaOf a = none) (type : MemoryType) (hfits : CommitFits pool r.size) :
    ∃ pool' other' errc calls, blockpool.commitIn pool other r type = some (pool', other', errc, calls) ∧
      pool'.Inv ∧ other'.Inv ∧ pool'.owned + other'.owned = pool.owned + other.owned ∧
      other'.usedBlocks = other.usedBlocks ∧ (∀ m, (∀ a, ¬ a ∈ r → afterCalls m calls a = m a) ∧
        (Agrees pool m → Agrees pool' (afterCalls m calls))) := by
  obtain ⟨vb, ve⟩ := r
  have hsize : (AddressRange.mk vb ve).size = ve - vb := size_of_valid hr
  -- a pool with the right free blocks
  have hcommit : ∀ q : PooledMemoryResource, q.Inv → q.usedBlocks = pool.usedBlocks →
      ExactFit q.freeBlocks (ve - vb) → ∃ pool' calls, q.commit ⟨vb, ve⟩ type = some (pool', calls) ∧
        pool'.Inv ∧ pool'.owned = q.owned ∧
        (∀ m, (∀ a, ¬ a ∈ AddressRange.mk vb ve → afterCalls m calls a = m a) ∧
          (Agrees pool m → Agrees pool' (afterCalls m calls))) := by
    intro q hq hused hfit
    obtain ⟨pool', calls, hloop, hinv, howned, -, htr⟩ := commitLoop_spec type hq
      (fun a h1 h2 => by rw [hused]; exact hfree a ⟨h1, h2⟩) (le_of_lt hr) hlt hfit
      (Nat.lt_succ_self _)
    refine ⟨pool', calls, ?_, hinv, howned, fun m => ⟨fun a ha => (htr m a).2 ha, ?_⟩⟩
    · simp only [commit, hloop, bind_some, hinv.checked_eq, map_some]
    intro hagree a x hx
    rw [(htr m a).1] at hx
    split at hx
    · exact hx
    · next hout =>
      rw [(htr m a).2 hout]
      exact hagree a x (by rw [← recorded_of_usedBlocks_eq hused]; exact hx)
  unfold blockpool.commitIn blockpool.pull
  rw [hsize, hp.avail_eq, ho.avail_eq]
  by_cases havail : pool.free.card < ve - vb
  · rw [if_pos havail, u64Sub_of_le havail.le]
    by_cases hpull : other.free.card < ve - vb - pool.free.card
    · -- not enough memory at all
      exact ⟨pool, other, some .NOMEM, [], by simp [hpull], hp, ho, rfl, rfl, fun m => ⟨fun _ _ => rfl, fun h => h⟩⟩
    -- the pool is filled up to exactly what is needed
    obtain ⟨other', q, hmove, ho', hq, hsameO, hsameQ, howned, hcard⟩ := moveTo_spec ho hp hsum (not_lt.mp hpull)
    obtain ⟨pool', calls, hc, hinv, hcowned, hm⟩ := hcommit q hq hsameQ.usedBlocks
      ⟨[], q.freeBlocks, rfl, show q.free.card = _ by omega⟩
    refine ⟨pool', other', none, calls, ?_, hinv, ho', ?_, hsameO.usedBlocks, hm⟩
    · simp only [if_neg hpull, hmove, map_some, bind_some, hc]
    · rw [hcowned, add_comm, howned, add_comm]
  obtain ⟨pool', calls, hc, hinv, hcowned, hm⟩ := hcommit pool hp rfl
    (by rw [← hsize]; exact hfits (by rw [hp.avail_eq, hsize]; exact not_lt.mp havail))
  refine ⟨pool', other, none, calls, ?_, hinv, ho, by rw [hcowned], rfl, hm⟩
  simp only [if_neg havail, bind_some, hc, map_some]

/-- Records outside the range are not affected by a commit in the other pool. -/
theorem Agrees.of_outside {m m' : Nat → Option Nat} (h : Agrees p m)
    (hused : p'.usedBlocks = p.usedBlocks) (hfree : ∀ a ∈ r, p.usedBlocks.areaOf a = none)
    (hsame : ∀ a, ¬ a ∈ r → m' a = m a) : Agrees p' m' := by
  intro a x hx
  rw [recorded_of_usedBlocks_eq hused] at hx
  rw [hsame a fun ha => ?_]
  · exact h a x hx
  rw [recorded, MemoryTableWithPayload.translate, hfree a ha] at hx
  cases hx

/-- What a clean `decommit` leaves agrees as before. -/
theorem Agrees.of_decommit {vb ve : Nat} {m : Nat → Option Nat} (h : Agrees p m)
    (hnew : ∀ a, p'.usedBlocks.areaOf a = if vb ≤ a ∧ a < ve then none else p.usedBlocks.areaOf a) : Agrees p' m := by
  intro a x hx
  rw [recorded, MemoryTableWithPayload.translate, hnew] at hx
  split at hx
  · cases hx
  · exact h a x hx

section

variable (h : s.Owns)

include h

theorem PoolWorld.Owns.sum_lt : s.pools.blockpool.total + s.pools.cachedBlockpool.total < 2 ^ 64 := by
  rw [h.total_add]
  exact card_lt_of_bounded fun x hx => h.expanded_lt hx

theorem PoolWorld.Owns.expand (hlegal : (PoolOp.expand r).Legal s) :
    ∃ s', (PoolOp.expand r).step s = some s' ∧ s'.Owns := by
  obtain ⟨hr, hlt, -, -, hfresh⟩ := hlegal
  have hdisj : Disjoint s.expanded (Finset.Ico r.beginAddress r.endAddress) := by
    rw [Finset.disjoint_left]
    intro x hx hxr
    exact hfresh x (Finset.mem_Ico.mp hxr) hx
  have hcard : s.expanded.card + (r.endAddress - r.beginAddress) < 2 ^ 64 := by
    rw [← Nat.card_Ico r.beginAddress r.endAddress, ← Finset.card_union_of_disjoint hdisj]
    refine card_lt_of_bounded fun x hx => ?_
    rcases Finset.mem_union.mp hx with hx | hx
    · exact h.expanded_lt hx
    have := (Finset.mem_Ico.mp hx).2
    omega
  have htotals := h.total_add
  obtain ⟨p', hexpand, hp', hsame, hfree, -⟩ := h.main.expand_spec hr hlt (by omega)
  have hvalid : (!r.isValid) = false := by simpa [AddressRange.isValid] using hr
  refine ⟨⟨{ s.pools with blockpool := p' }, s.pmem, s.expanded ∪ Finset.Ico r.beginAddress r.endAddress⟩, ?_, hp',
    h.cached, ?_, ?_, h.cachedAgrees⟩
  · simp only [PoolOp.step, blockpool.expand, hvalid, Bool.false_eq_true, if_false, hexpand, map_some, if_true]
  · have howned : p'.owned = s.pools.blockpool.owned + bytes r.beginAddress r.endAddress := by
      have heq := hsame.owned_eq
      rw [hfree] at heq
      refine add_right_cancel (b := s.pools.blockpool.free) (heq.trans ?_)
      abel
    rw [howned, ← Finset.disjUnion_eq_union _ _ hdisj, Finset.disjUnion_val, ← h.owned_eq]
    show _ = _ + bytes r.beginAddress r.endAddress
    abel
  exact h.mainAgrees.of_usedBlocks_eq hsame.usedBlocks

/-- A page that is reserved in the cached pool stays owned. -/
theorem PoolWorld.Owns.reserve {cached : PooledMemoryResource} (hp : p.Inv) (hc : cached.Inv)
    (hready : dmem.kPageSize ≤ cached.free.card → cached.PageReady) (howned : p.owned + cached.owned = s.expanded.val)
    (hused : p.usedBlocks = s.pools.blockpool.usedBlocks)
    (husedC : cached.usedBlocks = s.pools.cachedBlockpool.usedBlocks) :
    ∃ pools errc, blockpool.reserveCached ⟨p, cached⟩ = some (pools, errc) ∧ PoolWorld.Owns { s with pools } := by
  obtain ⟨c', r, hres, hc', hcowned, hcused⟩ := hc.reservePage_spec hready
  refine ⟨⟨p, c'⟩, blockpool.errorOf r, ?_, hp, hc', ?_, h.mainAgrees.of_usedBlocks_eq hused,
    h.cachedAgrees.of_usedBlocks_eq (hcused.trans husedC)⟩
  · simp only [blockpool.reserveCached, hres, map_some]
  · rw [hcowned, howned]

theorem PoolWorld.Owns.allocateControlBlock (hclean : PoolOp.allocateControlBlock.Clean s) :
    ∃ s', PoolOp.allocateControlBlock.step s = some s' ∧ s'.Owns := by
  simp only [PoolOp.step, blockpool.allocateControlBlock]
  simp only [PoolOp.Clean, h.cached.avail_eq, h.main.avail_eq] at hclean ⊢
  by_cases hfree : s.pools.cachedBlockpool.used < s.pools.cachedBlockpool.total
  · rw [if_pos hfree] at hclean ⊢
    obtain ⟨pools, errc, hres, howns⟩ := h.reserve h.main h.cached hclean h.owned_eq rfl rfl
    exact ⟨{ s with pools }, by rw [hres]; rfl, howns⟩
  rw [if_neg hfree] at hclean ⊢
  by_cases havail : s.pools.blockpool.free.card < dmem.kPageSize
  · exact ⟨s, by rw [if_pos havail]; rfl, h⟩
  obtain ⟨p', c', hmove, hp', hc', hsame, hsame', howned, -, hready⟩ :=
    moveTo_spec h.main h.cached h.sum_lt (not_lt.mp havail)
  obtain ⟨pools, errc, hres, howns⟩ := h.reserve hp' hc'
    (fun _ => hready rfl (hclean (not_lt.mp havail)) (h.cached.freeBlocks_eq_nil (not_lt.mp hfree)))
    (howned.trans h.owned_eq) hsame.usedBlocks hsame'.usedBlocks
  refine ⟨{ s with pools }, ?_, howns⟩
  simp only [if_neg havail, hmove, bind_some, hres, map_some]

theorem PoolWorld.Owns.releaseControlBlock : ∃ s', PoolOp.releaseControlBlock.step s = some s' ∧ s'.Owns := by
  simp only [PoolOp.step, blockpool.releaseControlBlock]
  by_cases hempty : s.pools.cachedBlockpool.reservedPages = []
  · exact ⟨s, by simp [hempty], h⟩
  obtain ⟨q, page, p', hrelease, hexpand, hp', howned, hused⟩ := h.cached.releasePage_spec hempty
  refine ⟨{ s with pools := { s.pools with cachedBlockpool := p' } }, ?_, h.main, hp', ?_, h.mainAgrees,
    h.cachedAgrees.of_usedBlocks_eq hused⟩
  · simp only [List.isEmpty_iff, hempty, if_false, hrelease, bind_some, hexpand, map_some]
  · rw [howned]
    exact h.owned_eq

theorem PoolWorld.Owns.commit {type : MemoryType} (hlegal : (PoolOp.commit r type).Legal s)
    (hclean : (PoolOp.commit r type).Clean s) : ∃ s', (PoolOp.commit r type).step s = some s' ∧ s'.Owns := by
  obtain ⟨hr, hlt, -, -, hfree⟩ := hlegal
  have hsum := h.sum_lt
  simp only [PoolOp.Clean] at hclean
  by_cases htype : type = .WbOnion
  · rw [if_pos htype] at hclean
    obtain ⟨pool', other', errc, calls, hc, hp', ho', howned, hused, hm⟩ :=
      commitIn_spec h.cached h.main hsum hr hlt (fun a ha => (hfree a ha).2) type hclean
    obtain ⟨hsame, hagree⟩ := hm s.pmem
    refine ⟨⟨⟨other', pool'⟩, afterCalls s.pmem calls, s.expanded⟩, ?_, ho', hp', ?_, ?_, hagree h.cachedAgrees⟩
    · simp only [PoolOp.step, blockpool.commit, if_pos htype, hc, map_some]
    · rw [add_comm, howned, add_comm]
      exact h.owned_eq
    exact h.mainAgrees.of_outside hused (fun a ha => (hfree a ha).1) hsame
  rw [if_neg htype] at hclean
  obtain ⟨pool', other', errc, calls, hc, hp', ho', howned, hused, hm⟩ :=
    commitIn_spec h.main h.cached (by omega) hr hlt (fun a ha => (hfree a ha).1) type hclean
  obtain ⟨hsame, hagree⟩ := hm s.pmem
  refine ⟨⟨⟨pool', other'⟩, afterCalls s.pmem calls, s.expanded⟩, ?_, hp', ho', howned.trans h.owned_eq,
    hagree h.mainAgrees, ?_⟩
  · simp only [PoolOp.step, blockpool.commit, if_neg htype, hc, map_some]
  · exact h.cachedAgrees.of_outside hused (fun a ha => (hfree a ha).2) hsame

theorem PoolWorld.Owns.decommit (hlegal : (PoolOp.decommit r).Legal s) (hclean : (PoolOp.decommit r).Clean s) :
    ∃ s', (PoolOp.decommit r).step s = some s' ∧ s'.Owns := by
  obtain ⟨vb, ve⟩ := r
  obtain ⟨c', hc, hc', hcowned, hcnew⟩ := decommit_spec h.cached hlegal hclean.2
  obtain ⟨p', hp, hp', hpowned, hpnew⟩ := decommit_spec h.main hlegal hclean.1
  refine ⟨{ s with pools := ⟨p', c'⟩ }, ?_, hp', hc', ?_, h.mainAgrees.of_decommit hpnew,
    h.cachedAgrees.of_decommit hcnew⟩
  · simp only [PoolOp.step, blockpool.decommit, hc, bind_some, hp, map_some]
  rw [hpowned, hcowned]
  exact h.owned_eq

/-- **A clean call succeeds and keeps the invariant.** -/
theorem PoolWorld.Owns.step {op : PoolOp} (hlegal : op.Legal s) (hclean : op.Clean s) :
    ∃ s', op.step s = some s' ∧ s'.Owns := by
  cases op with
  | expand r => exact h.expand hlegal
  | allocateControlBlock => exact h.allocateControlBlock hclean
  | releaseControlBlock => exact h.releaseControlBlock
  | commit r type => exact h.commit hlegal hclean
  | decommit r => exact h.decommit hlegal hclean

end

theorem run_owns {ops : List PoolOp}
    (h : Run (fun s op => PoolOp.step s op) (fun s op => op.Legal s ∧ op.Clean s) PoolWorld.initial ops s) :
    s.Owns := by
  refine h.invariant PoolWorld.owns_initial fun s op s' hs hop hstep => ?_
  obtain ⟨s'', hstep', hs''⟩ := hs.step hop.1 hop.2
  rw [hstep] at hstep'
  cases hstep'
  exact hs''

/-- **Pooled memory owns each byte once.** In every state that clean calls lead to, the physical
ranges behind the free blocks, the reserved pages and the committed ranges of the two pools are
pairwise disjoint and cover exactly what the pools were given; every committed address translates, by
its record, to what `pmem::map` was told; and every further clean call succeeds. -/
theorem run_owns_once {ops : List PoolOp} {s : PoolWorld}
    (h : Run (fun s op => PoolOp.step s op) (fun s op => op.Legal s ∧ op.Clean s) PoolWorld.initial ops s) :
    (s.pools.blockpool.physRanges ++ s.pools.cachedBlockpool.physRanges).Pairwise (fun r r' => ∀ x, x ∈ r → ¬ x ∈ r') ∧
    (∀ x, (∃ r ∈ s.pools.blockpool.physRanges ++ s.pools.cachedBlockpool.physRanges, x ∈ r) ↔ x ∈ s.expanded) ∧
    (∀ p ∈ [s.pools.blockpool, s.pools.cachedBlockpool], ∀ y ∈ p.usedBlocks.areas, ∀ a ∈ y.1,
      s.pmem a = some (y.2.pmemAddress + (a - y.1.beginAddress))) ∧
    (∀ op : PoolOp, op.Legal s → op.Clean s → ∃ s', op.step s = some s') := by
  have hs := run_owns h
  have hsum : bytesOf (s.pools.blockpool.physRanges ++ s.pools.cachedBlockpool.physRanges) =
      s.expanded.val := by rw [bytesOf_append, bytesOf_physRanges, bytesOf_physRanges, hs.owned_eq]
  have hrecord : ∀ p : PooledMemoryResource, p.Inv → Agrees p s.pmem → ∀ y ∈ p.usedBlocks.areas,
      ∀ a ∈ y.1, s.pmem a = some (y.2.pmemAddress + (a - y.1.beginAddress)) := by
    intro p hp hagree y hy a ha
    refine hagree a _ ?_
    rw [recorded, MemoryTableWithPayload.translate, (hp.wf.mem_areas.mp hy).areaOf_eq ha.1 ha.2]
    rfl
  refine ⟨?_, fun x => ?_, fun p hp => ?_, fun op hlegal hclean => ?_⟩
  · have hnodup : (bytesOf (s.pools.blockpool.physRanges ++ s.pools.cachedBlockpool.physRanges)).Nodup := by
      rw [hsum]; exact s.expanded.nodup
    refine (pairwise_disjoint_of_nodup hnodup).imp fun hdisj x hx hx' => ?_
    exact hdisj x (mem_bytes.mpr hx) (mem_bytes.mpr hx')
  · rw [← Finset.mem_val, ← hsum, bytesOf, mem_sum_map]
    exact exists_congr fun r => and_congr_right fun _ => mem_bytes.symm
  · rcases mem_cons.mp hp with rfl | hp
    · exact hrecord _ hs.main hs.mainAgrees
    rw [mem_singleton.mp hp]
    exact hrecord _ hs.cached hs.cachedAgrees
  obtain ⟨s', hstep, -⟩ := hs.step hlegal hclean
  exact ⟨s', hstep⟩

section Runs

theorem PoolOp.step_expand {r : AddressRange} {pools : Blockpools}
    (h : blockpool.expand s.pools r = some (pools, none)) : PoolOp.step s (.expand r) =
      some ⟨pools, s.pmem, s.expanded ∪ Finset.Ico r.beginAddress r.endAddress⟩ := by
  simp only [PoolOp.step, h, map_some, if_true]

theorem PoolOp.step_commit {r : AddressRange} {type : MemoryType} {x : Blockpools × Option ErrorCode × List PmemCall}
    (h : blockpool.commit s.pools r type = some x) :
    PoolOp.step s (.commit r type) = some { s with pools := x.1, pmem := afterCalls s.pmem x.2.2 } := by
  simp only [PoolOp.step, h, map_some]

/-- Two blocks of a page each; one becomes a control page, the other one is committed. -/
theorem run_owns_once_two_pages : ∃ s : PoolWorld,
    Run (fun s op => PoolOp.step s op) (fun s op => op.Legal s ∧ op.Clean s) PoolWorld.initial
      [.expand ⟨0, 0x10000⟩, .expand ⟨0x20000, 0x30000⟩, .allocateControlBlock,
        .commit ⟨0x100000, 0x110000⟩ .WcGarlic] s ∧
    s.pools.blockpool.usedBlocks.areas = [(⟨0x100000, 0x110000⟩, ⟨0, .WcGarlic⟩)] ∧
    s.pools.cachedBlockpool.reservedPages = [0x20000] ∧
    (s.pools.blockpool.physRanges ++ s.pools.cachedBlockpool.physRanges).Pairwise
      (fun r r' => ∀ x, x ∈ r → ¬ x ∈ r') := by
  let p₁ : PooledMemoryResource := ⟨0x10000, 0, [⟨0, 0x10000⟩], .empty, []⟩
  let p₂ : PooledMemoryResource := ⟨0x20000, 0, [⟨0, 0x10000⟩, ⟨0x20000, 0x30000⟩], .empty, []⟩
  let c₃ : PooledMemoryResource := ⟨0x10000, 0x10000, [], .empty, [0x20000]⟩
  have h₁ : blockpool.expand ⟨.empty, .empty⟩ ⟨0, 0x10000⟩ = some (⟨p₁, .empty⟩, none) := by decide +kernel
  have h₂ : blockpool.expand ⟨p₁, .empty⟩ ⟨0x20000, 0x30000⟩ = some (⟨p₂, .empty⟩, none) := by decide +kernel
  have h₃ (pmem : Nat → Option Nat) (expanded : Finset Nat) : PoolOp.step ⟨⟨p₂, .empty⟩, pmem, expanded⟩
      .allocateControlBlock = some ⟨⟨p₁, c₃⟩, pmem, expanded⟩ := by
    have h : blockpool.allocateControlBlock ⟨p₂, .empty⟩ = some (⟨p₁, c₃⟩, none) := by decide +kernel
    simp only [PoolOp.step, h, map_some]
  obtain ⟨x, hcommit, hareas, hpages⟩ : ∃ x, blockpool.commit ⟨p₁, c₃⟩ ⟨0x100000, 0x110000⟩ .WcGarlic = some x ∧
      x.1.blockpool.usedBlocks.areas = [(⟨0x100000, 0x110000⟩, ⟨0, .WcGarlic⟩)] ∧
      x.1.cachedBlockpool.reservedPages = [0x20000] := exists_some_and (by decide +kernel)
  refine Run.exists_and (.cons ⟨⟨by decide, by decide, by decide, by decide, fun x _ hx => by cases hx⟩,
    trivial⟩ (PoolOp.step_expand h₁) (.cons ⟨⟨by decide, by decide, by decide, by decide, fun x hx hmem => ?_⟩,
    trivial⟩ (PoolOp.step_expand h₂) (.cons ⟨trivial, ?_⟩ (h₃ _ _) (.cons ⟨⟨by decide, by decide,
    by decide, by decide, fun a _ => ⟨rfl, rfl⟩⟩, ?_⟩ (PoolOp.step_commit hcommit) (.nil _))))) hareas
    fun h => ⟨hpages, (run_owns_once h).1⟩
  · simp only [PoolWorld.initial, Finset.empty_union, Finset.mem_Ico] at hmem
    exact absurd hx.1 (not_le.mpr (lt_of_lt_of_le hmem.2 (by decide)))
  · simp only [PoolOp.Clean]
    rw [if_neg (by decide)]
    exact fun _ => .inl ⟨_, rfl, by decide⟩
  simp only [PoolOp.Clean]
  rw [if_neg (by decide)]
  exact fun _ => ⟨[], [⟨0, 0x10000⟩], rfl, by simp [bytesOf, AddressRange.size, u64Sub]⟩

/-- One block of two pages, of which one is committed: `pmem::map` gets the first page, the record
says the second one, and that one is still free. -/
theorem commit_records_rest : ∃ s : PoolWorld,
    Run (fun s op => PoolOp.step s op) (fun s op => op.Legal s) PoolWorld.initial
      [.expand ⟨0, 0x20000⟩, .commit ⟨0x100000, 0x110000⟩ .WcGarlic] s ∧ s.pmem 0x100000 = some 0 ∧
    s.pools.blockpool.usedBlocks.areas = [(⟨0x100000, 0x110000⟩, ⟨0x10000, .WcGarlic⟩)] ∧
    s.pools.blockpool.freeBlocks = [⟨0x10000, 0x20000⟩] := by
  let p : PooledMemoryResource := ⟨0x20000, 0, [⟨0, 0x20000⟩], .empty, []⟩
  have h₁ : blockpool.expand ⟨.empty, .empty⟩ ⟨0, 0x20000⟩ = some (⟨p, .empty⟩, none) := by decide +kernel
  obtain ⟨x, hcommit, hcalls, hx⟩ : ∃ x, blockpool.commit ⟨p, .empty⟩ ⟨0x100000, 0x110000⟩ .WcGarlic = some x ∧
      x.2.2 = [(0x100000, ⟨0, 0x10000⟩)] ∧
      x.1.blockpool.usedBlocks.areas = [(⟨0x100000, 0x110000⟩, ⟨0x10000, .WcGarlic⟩)] ∧
      x.1.blockpool.freeBlocks = [⟨0x10000, 0x20000⟩] := exists_some_and (by decide +kernel)
  refine ⟨_, .cons ⟨by decide, by decide, by decide, by decide, fun x _ hx => by cases hx⟩ (PoolOp.step_expand h₁)
    (.cons ⟨by decide, by decide, by decide, by decide, fun a _ => ⟨rfl, rfl⟩⟩ (PoolOp.step_commit hcommit) (.nil _)),
    ?_, hx⟩
  show afterCalls (fun _ => none) x.2.2 0x100000 = some 0
  rw [hcalls]
  decide

end Runs

end Rpcsx.Orbis
