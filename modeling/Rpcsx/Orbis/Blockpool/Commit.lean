import Rpcsx.Orbis.Blockpool.Pool

/-!
# `commit` and `decommit` of one pool

`commit` takes whole blocks from the end of the free list, and the last piece from the begin of a
block. When that block is not used up by it, the address that gets recorded is wrong; `ExactFit` says
that it is used up. `decommit` gives the bytes of a virtual range back. An area that reaches past the
end of the range keeps its record for the remaining tail, which is then wrong by the part that was
cut off; `NoTail` excludes it.
-/

namespace Rpcsx.Orbis

open Lib Rx List Option CommitedBlock MemoryTableWithPayload

/-! ## The physical mapping -/

/-- `pmem::map(virtualAddress, range)`, on the translation of virtual addresses. -/
def pmemMap (m : Nat → Option Nat) (c : PmemCall) : Nat → Option Nat := fun a =>
  if c.1 ≤ a ∧ a < c.1 + (c.2.endAddress - c.2.beginAddress) then
    some (c.2.beginAddress + (a - c.1))
  else m a

def afterCalls (m : Nat → Option Nat) (calls : List PmemCall) : Nat → Option Nat :=
  calls.foldl pmemMap m

namespace PooledMemoryResource

variable {p p' : PooledMemoryResource}

def recorded (p : PooledMemoryResource) (a : Nat) : Option Nat :=
  p.usedBlocks.translate CommitedBlock.pmemAddress a

/-! ## `commit` -/

/-- Some of the last blocks have exactly `n` bytes together. -/
def ExactFit (blocks : List AddressRange) (n : Nat) : Prop :=
  ∃ pre suf, blocks = pre ++ suf ∧ (bytesOf suf).card = n

variable {vb ve : Nat} {d : CommitedBlock}

/-- Using up the last block for a free virtual range. -/
theorem Inv.take_block (h : p.Inv) {init : List AddressRange} {b : AddressRange} (hlist : p.freeBlocks = init ++ [b])
    (hlen : ve - vb = b.endAddress - b.beginAddress) (type : MemoryType)
    (hfree : ∀ a, vb ≤ a → a < ve → p.usedBlocks.areaOf a = none) :
    ∃ t, p.usedBlocks.map ⟨vb, ve⟩ ⟨b.beginAddress, type⟩ false false = some (t, vb) ∧ ({ p with
        freeBlocks := init
        usedBlocks := t
        used := u64 (p.used + (ve - vb)) } : PooledMemoryResource).Inv ∧
      ({ p with
        freeBlocks := init
        usedBlocks := t
        used := u64 (p.used + (ve - vb)) } : PooledMemoryResource).owned = p.owned ∧
      (∀ a, t.areaOf a = if vb ≤ a ∧ a < ve then some (vb, ⟨b.beginAddress, type⟩)
        else p.usedBlocks.areaOf a) := by
  have hbmem : b ∈ p.freeBlocks := by simp [hlist]
  have hbvalid := h.valid b hbmem
  obtain ⟨t, hmap, hwf, harea⟩ := h.wf.map_free (by omega) ⟨b.beginAddress, type⟩ hfree
  have htr : ∀ a, t.translate pmemAddress a = if vb ≤ a ∧ a < ve then some (b.beginAddress + (a - vb))
      else p.usedBlocks.translate pmemAddress a := by
    intro a
    simp only [MemoryTableWithPayload.translate, harea]
    split <;> rfl
  obtain ⟨haddr, hbacking⟩ := h.wf.translated_add hwf hfree htr
  have hend : b.beginAddress + (ve - vb) = b.endAddress := by omega
  rw [hend] at hbacking
  have hfreeEq : p.free = bytesOf init + bytes b.beginAddress b.endAddress := by simp [free, hlist]
  have hcard : p.free.card = (bytesOf init).card + (b.endAddress - b.beginAddress) := by
    rw [hfreeEq, Multiset.card_add, card_bytes]
  have htotal := h.total_eq
  have hlt := h.total_lt
  have hused := h.used_eq
  have hu : u64 (p.used + (ve - vb)) = p.used + (ve - vb) := u64_of_lt (by omega)
  rw [hu]
  have howned : ({ p with
      freeBlocks := init
      usedBlocks := t
      used := p.used + (ve - vb) } : PooledMemoryResource).owned = p.owned := by
    rw [owned, owned, hfreeEq]
    show bytesOf init + p.reserved + t.translated pmemAddress = _
    rw [hbacking, backing]
    abel
  refine ⟨t, hmap, ⟨hwf, fun x hx => h.valid x (by simp [hlist, hx]), ?_, ?_, hlt, fun x hx =>
    h.owned_lt x (howned ▸ hx)⟩, howned, harea⟩
  · show p.used + (ve - vb) = t.addresses.card + p.reservedPages.length * dmem.kPageSize
    rw [haddr, Multiset.card_add, card_bytes]
    omega
  show p.total = p.used + (ve - vb) + (bytesOf init).card
  omega

/-- **`commit`** moves the bytes of the blocks it takes behind the virtual range, and records for
every address what it passed to `pmem::map`. -/
theorem commitLoop_spec {fuel : Nat} (type : MemoryType) (h : p.Inv)
    (hfree : ∀ a, vb ≤ a → a < ve → p.usedBlocks.areaOf a = none) (hle : vb ≤ ve) (hve : ve < 2 ^ 64)
    (hfit : ExactFit p.freeBlocks (ve - vb)) (hfuel : p.freeBlocks.length < fuel) :
    ∃ p' calls, commitLoop type fuel p ⟨vb, ve⟩ = some (p', calls) ∧ p'.Inv ∧ p'.owned = p.owned ∧
      (∀ a, (p'.usedBlocks.areaOf a).isSome ↔ (p.usedBlocks.areaOf a).isSome ∨ (vb ≤ a ∧ a < ve)) ∧
      ∀ m a, (p'.recorded a = if vb ≤ a ∧ a < ve then afterCalls m calls a else p.recorded a) ∧
        (¬ (vb ≤ a ∧ a < ve) → afterCalls m calls a = m a) := by
  induction fuel generalizing p vb with
  | zero => exact absurd hfuel (Nat.not_lt_zero _)
  | succ fuel ih =>
    rw [commitLoop]
    rcases Nat.eq_or_lt_of_le hle with heq | hlt
    · -- nothing left
      have hinvalid : (!(AddressRange.mk vb ve).isValid) := by simp [AddressRange.isValid, heq]
      have hout : ∀ a, ¬ (vb ≤ a ∧ a < ve) := fun a ha => by omega
      refine ⟨p, [], if_pos hinvalid, h, rfl, fun a => ?_, fun m a => ⟨?_, fun _ => rfl⟩⟩
      · simp [hout a]
      · rw [if_neg (hout a)]
    have hvalid : (!(AddressRange.mk vb ve).isValid) = false := by simpa [AddressRange.isValid] using hlt
    -- the last block is the last one of the fitting blocks
    obtain ⟨pre, suf, hblocks, hcard⟩ := hfit
    obtain ⟨suf', b, rfl⟩ := exists_getLast_of_card_pos (show 0 < (bytesOf suf).card by omega)
    have hlist : p.freeBlocks = (pre ++ suf') ++ [b] := by simp [hblocks]
    have hbmem : b ∈ p.freeBlocks := by simp [hlist]
    have hbvalid := h.valid b hbmem
    have hblt := h.block_lt hbmem
    rw [bytesOf_append, bytesOf_cons, bytesOf_nil, add_zero, Multiset.card_add, card_bytes] at hcard
    have hsize : (AddressRange.mk vb ve).size = ve - vb := size_of_valid hlt
    rw [hlist, hvalid]
    simp only [Bool.false_eq_true, if_false, getLast?_append, getLast?_singleton,
      some_or, bind_some, dropLast_concat, hsize, size_of_valid hbvalid]
    by_cases hlast : ve - vb ≤ b.endAddress - b.beginAddress
    · -- the block is used up, so the begin that is recorded is still its own
      have hlen : ve - vb = b.endAddress - b.beginAddress := by omega
      obtain ⟨t, hmap, hinv, howned, harea⟩ := h.take_block hlist hlen type hfree
      have hphys : AddressRange.fromBeginSize b.beginAddress (ve - vb) = b := by
        rw [AddressRange.fromBeginSize, u64_of_lt (by omega)]
        obtain ⟨bb, be⟩ := b
        congr 1
        simp only at hlen hbvalid ⊢
        omega
      refine ⟨_, [(vb, b)], ?_, hinv, howned, fun a => ?_, fun m a => ?_⟩
      · rw [if_pos hlast, hphys, takeFront, if_pos rfl, hmap]
        simp only [map_some, dropLast_concat]
      · rw [harea]
        by_cases hin : vb ≤ a ∧ a < ve <;> simp [hin]
      have hend : vb + (b.endAddress - b.beginAddress) = ve := by omega
      simp only [afterCalls, foldl_cons, foldl_nil, pmemMap, hend, MemoryTableWithPayload.translate, harea, recorded]
      by_cases hin : vb ≤ a ∧ a < ve <;> simp [hin]
    -- the block is used up by the first part of the range
    have hlen : vb + (b.endAddress - b.beginAddress) - vb = b.endAddress - b.beginAddress := by omega
    have hmid : AddressRange.fromBeginSize vb (b.endAddress - b.beginAddress) =
        ⟨vb, vb + (b.endAddress - b.beginAddress)⟩ := by rw [AddressRange.fromBeginSize, u64_of_lt (by omega)]
    obtain ⟨t, hmap, hinv, howned, harea⟩ := h.take_block hlist hlen type fun a h1 h2 => hfree a h1 (by omega)
    rw [hlen] at hinv howned
    have hmidSize : (AddressRange.mk vb (vb + (b.endAddress - b.beginAddress))).size =
        b.endAddress - b.beginAddress := by
      rw [size_of_valid (by show vb < vb + _; omega)]
      exact hlen
    obtain ⟨p', calls, hrec, hinv', howned', hsome, htr⟩ := ih hinv
        (fun a (h1 : vb + (b.endAddress - b.beginAddress) ≤ a) h2 => by
          rw [harea, if_neg (by omega)]
          exact hfree a (by omega) h2)
        (by omega) ⟨pre, suf', rfl, by omega⟩
        (by
          rw [hlist, length_append, length_singleton] at hfuel
          show (pre ++ suf').length < fuel
          omega)
    refine ⟨p', (vb, b) :: calls, ?_, hinv', howned'.trans howned, fun a => ?_, fun m a => ?_⟩
    · rw [if_neg hlast, hmid, hmap]
      simp only [bind_some, hmidSize, AddressRange.fromBeginEnd, hrec, map_some]
    · rw [hsome]
      rw [harea]
      by_cases hin : vb ≤ a ∧ a < vb + (b.endAddress - b.beginAddress)
      · simp [hin]
        omega
      rw [if_neg hin]
      refine or_congr_right ⟨fun h1 => ⟨by omega, h1.2⟩, fun h1 => ⟨by omega, h1.2⟩⟩
    obtain ⟨hrecorded, hsame⟩ := htr (pmemMap m (vb, b)) a
    have hfirst : ({ p with
        freeBlocks := pre ++ suf'
        usedBlocks := t
        used := u64 (p.used + (b.endAddress - b.beginAddress)) } : PooledMemoryResource).recorded a =
        if vb ≤ a ∧ a < vb + (b.endAddress - b.beginAddress) then
          some (b.beginAddress + (a - vb)) else p.recorded a := by
      simp only [recorded, MemoryTableWithPayload.translate, harea]
      split <;> rfl
    have hafter : afterCalls m ((vb, b) :: calls) a = afterCalls (pmemMap m (vb, b)) calls a := rfl
    rw [hafter, hrecorded, hfirst]
    by_cases hhigh : vb + (b.endAddress - b.beginAddress) ≤ a ∧ a < ve
    · rw [if_pos hhigh, if_pos ⟨by omega, hhigh.2⟩]
      exact ⟨rfl, fun hout => absurd ⟨by omega, hhigh.2⟩ hout⟩
    rw [if_neg hhigh, hsame hhigh]
    by_cases hlow : vb ≤ a ∧ a < vb + (b.endAddress - b.beginAddress)
    · rw [if_pos hlow, if_pos ⟨hlow.1, by omega⟩, pmemMap, if_pos hlow]
      exact ⟨rfl, fun hout => absurd ⟨hlow.1, by omega⟩ hout⟩
    rw [if_neg hlow, if_neg (by omega), pmemMap, if_neg hlow]
    exact ⟨rfl, fun _ => rfl⟩

/-! ## `decommit` -/

def NoTail (p : PooledMemoryResource) (e : Nat) : Prop :=
  ∀ k k' d, p.usedBlocks.IsArea k k' d → k < e → k' ≤ e

/-- The physical range behind an area ends below `2^64`. -/
theorem Inv.pmem_lt (h : p.Inv) {k k' : Nat}
    (harea : p.usedBlocks.IsArea k k' d) : d.pmemAddress + (k' - k) < 2 ^ 64 := by
  have hlt := harea.lt
  have hmem : d.pmemAddress + (k' - k) - 1 ∈ p.owned := by
    refine Multiset.mem_add.mpr (Or.inr (mem_sum_map.mpr ⟨(⟨k, k'⟩, d), ?_, ?_⟩))
    · exact h.wf.mem_areas.mpr harea
    rw [mem_bytes]
    show d.pmemAddress ≤ _ ∧ _ < d.pmemAddress + (k' - k)
    omega
  have := h.owned_lt _ hmem
  omega

/-- Giving back the bytes of an area from `b` to its end. -/
theorem Inv.give_back (h : p.Inv) {k k' b : Nat} (harea : p.usedBlocks.IsArea k k' d) (hkb : k ≤ b) (hbk : b < k')
    {t : MemoryTableWithPayload CommitedBlock} (hwf : t.WF)
    (hnew : ∀ a, t.areaOf a = if b ≤ a ∧ a < k' then none else p.usedBlocks.areaOf a) :
    ({ p.addFreeBlock ⟨d.pmemAddress + (b - k), d.pmemAddress + (k' - k)⟩ with
      used := u64Sub p.used (k' - b)
      usedBlocks := t } : PooledMemoryResource).Inv ∧
    ({ p.addFreeBlock ⟨d.pmemAddress + (b - k), d.pmemAddress + (k' - k)⟩ with
      used := u64Sub p.used (k' - b)
      usedBlocks := t } : PooledMemoryResource).owned = p.owned := by
  have hold : ∀ a, p.usedBlocks.translate pmemAddress a =
      if b ≤ a ∧ a < k' then some (d.pmemAddress + (b - k) + (a - b))
      else t.translate pmemAddress a := by
    intro a
    simp only [MemoryTableWithPayload.translate, hnew]
    by_cases hin : b ≤ a ∧ a < k'
    · rw [if_pos hin, harea.areaOf_eq (by omega) hin.2]
      simp only [map_some, some.injEq]
      omega
    rw [if_neg hin, if_neg hin]
  obtain ⟨haddr, hbacking⟩ := hwf.translated_add h.wf (fun a h1 h2 => by rw [hnew, if_pos ⟨h1, h2⟩]) hold
  have hend : d.pmemAddress + (b - k) + (k' - b) = d.pmemAddress + (k' - k) := by omega
  rw [hend] at hbacking
  obtain ⟨hbytes, hvalid⟩ := insertBlock_spec (r := ⟨d.pmemAddress + (b - k), d.pmemAddress + (k' - k)⟩)
    (by show d.pmemAddress + (b - k) < d.pmemAddress + (k' - k); omega) h.valid
  have hcard : p.usedBlocks.addresses.card = t.addresses.card + (k' - b) := by rw [haddr, Multiset.card_add, card_bytes]
  have hused := h.used_eq
  have htotal := h.total_eq
  rw [u64Sub_of_le (by omega)]
  have howned : ({ p.addFreeBlock ⟨d.pmemAddress + (b - k), d.pmemAddress + (k' - k)⟩ with
      used := p.used - (k' - b)
      usedBlocks := t } : PooledMemoryResource).owned = p.owned := by
    rw [owned, owned, backing, backing, hbacking]
    show bytesOf (insertBlock p.freeBlocks _) + p.reserved + _ = _
    rw [hbytes, free]
    abel
  refine ⟨⟨hwf, hvalid, ?_, ?_, h.total_lt, fun x hx => h.owned_lt x (howned ▸ hx)⟩, howned⟩
  · show p.used - (k' - b) = t.addresses.card + p.reservedPages.length * dmem.kPageSize
    omega
  show p.total = p.used - (k' - b) + (bytesOf (insertBlock p.freeBlocks _)).card
  rw [hbytes, Multiset.card_add, card_bytes]
  have hfree : p.free.card = (bytesOf p.freeBlocks).card := rfl
  show _ = _ + (_ + (d.pmemAddress + (k' - k) - (d.pmemAddress + (b - k))))
  omega

/-- An area that begins before the range loses what is in the range. -/
theorem decommitHead_spec (h : p.Inv) (hv : vb < ve) (htail : p.NoTail ve) :
    ∃ p', decommitHead p ⟨vb, ve⟩ (p.usedBlocks.nextArea vb) =
        some (p', p'.usedBlocks.nextArea vb) ∧ p'.Inv ∧ p'.owned = p.owned ∧
      (∀ j j' d, p'.usedBlocks.IsArea j j' d → j < vb → j' ≤ vb) ∧
      ∃ c, vb ≤ c ∧ c ≤ ve ∧ ∀ a, p'.usedBlocks.areaOf a = if vb ≤ a ∧ a < c then none else p.usedBlocks.areaOf a := by
  have hfirst := h.wf.firstFrom_nextArea vb
  -- when no area crosses `vb`, nothing is done
  have hskip : (∀ j j' d, p.usedBlocks.IsArea j j' d → j < vb → j' ≤ vb) →
      (∀ j j' d, p.usedBlocks.IsArea j j' d → j < vb → j' ≤ vb) ∧
      ∃ c, vb ≤ c ∧ c ≤ ve ∧ ∀ a, p.usedBlocks.areaOf a =
        if vb ≤ a ∧ a < c then none else p.usedBlocks.areaOf a := fun hedge =>
    ⟨hedge, vb, le_refl vb, hv.le, fun a => by rw [if_neg (by omega)]⟩
  unfold decommitHead
  cases hnext : p.usedBlocks.nextArea vb with
  | none =>
    rw [hnext] at hfirst
    refine ⟨p, by rw [hnext], h, rfl, hskip fun j j' d hj hjv => ?_⟩
    by_contra hcon
    have := hj.areaOf_eq (a := vb) hjv.le (not_le.mp hcon)
    rw [hfirst vb (le_refl vb)] at this
    cases this
  | some k =>
    rw [hnext] at hfirst
    obtain ⟨k', d, harea, hvk', hgap⟩ := hfirst
    by_cases hkv : k < vb
    · -- the area of `vb` ends inside the range
      have hk've : k' ≤ ve := htail k k' d harea (by omega)
      have hinter : (AddressRange.mk k k').intersection ⟨vb, ve⟩ = ⟨vb, k'⟩ := by
        simp only [AddressRange.intersection, AddressRange.mk.injEq]
        omega
      obtain ⟨t, it, hunmap, hwf, hnew⟩ := h.wf.unmap_edge hvk' fun j j' d' hj hlt =>
        harea.end_le hj hlt
      obtain ⟨hinv, howned⟩ := h.give_back harea hkv.le hvk' hwf hnew
      have hhead : t.IsArea k vb d := by
        refine hwf.isArea_of_areaOf hkv (fun a h1 h2 => ?_) ?_
        · rw [hnew, if_neg (by omega), harea.areaOf_eq h1 (by omega)]
        rw [hnew, if_pos ⟨le_refl vb, hvk'⟩]
        exact fun hcon => by cases hcon
      have hpm := h.pmem_lt harea
      have hsize : (AddressRange.mk vb k').size = k' - vb := size_of_valid hvk'
      have hback : AddressRange.fromBeginSize (u64 (d.pmemAddress + u64Sub vb k)) (k' - vb) =
          ⟨d.pmemAddress + (vb - k), d.pmemAddress + (k' - k)⟩ := by
        rw [u64Sub_of_le hkv.le, u64_of_lt (by omega), AddressRange.fromBeginSize, u64_of_lt (by omega)]
        congr 1
        omega
      refine ⟨_, ?_, hinv, howned, fun j j' d' hj hjv => ?_, k', hvk'.le, hk've, hnew⟩
      · simp only [if_pos hkv, harea.range?_eq, harea.get?_eq, bind_some, hinter, hunmap,
          map_some, hsize, hback, hhead.iterNext_eq hwf]
      exact hhead.end_le hj hjv
    refine ⟨p, by simp only [if_neg hkv, hnext], h, rfl, hskip fun j j' d' hj hjv => ?_⟩
    by_contra hcon
    have hin := hj.areaOf_eq (a := vb) hjv.le (not_le.mp hcon)
    rcases Nat.eq_or_lt_of_le (not_lt.mp hkv) with heq | hlt
    · subst heq
      rw [harea.areaOf_begin] at hin
      have := (Prod.mk.inj (some.inj hin)).1
      omega
    rw [hgap vb (le_refl vb) hlt] at hin
    cases hin

/-- The loop takes out one whole area per turn. -/
theorem decommitLoop_spec {fuel c : Nat} (h : p.Inv) (hvc : vb ≤ c) (htail : p.NoTail ve)
    (hedge : ∀ j j' d, p.usedBlocks.IsArea j j' d → j < c → j' ≤ c) (hfuel : p.usedBlocks.areasAbove c < fuel) :
    ∃ p', decommitLoop ⟨vb, ve⟩ fuel p (p.usedBlocks.nextArea c) = some p' ∧ p'.Inv ∧
      p'.owned = p.owned ∧ ∀ a, p'.usedBlocks.areaOf a = if c ≤ a ∧ a < ve then none else p.usedBlocks.areaOf a := by
  induction fuel generalizing p c with
  | zero => exact absurd hfuel (Nat.not_lt_zero _)
  | succ fuel ih =>
    have hfirst := h.wf.firstFrom_nextArea c
    cases hnext : p.usedBlocks.nextArea c with
    | none =>
      rw [hnext] at hfirst
      refine ⟨p, rfl, h, rfl, fun a => ?_⟩
      split
      · next hin => exact hfirst a hin.1
      · rfl
    | some k =>
      rw [hnext] at hfirst
      obtain ⟨k', d, harea, hck', hgap⟩ := hfirst
      have hck : c ≤ k := not_lt.mp fun hlt => absurd (hedge k k' d harea hlt) (not_le.mpr hck')
      rw [decommitLoop]
      by_cases hkve : k < ve
      · have hk've : k' ≤ ve := htail k k' d harea hkve
        have hinter : (AddressRange.mk k k').intersection ⟨vb, ve⟩ = ⟨k, k'⟩ := by
          simp only [AddressRange.intersection, AddressRange.mk.injEq]
          omega
        obtain ⟨t, hunmap, hwf, hnew⟩ := h.wf.unmapAt_spec harea
        obtain ⟨hinv, howned⟩ := h.give_back harea (le_refl k) harea.lt hwf hnew
        have hpm := h.pmem_lt harea
        have hback : AddressRange.fromBeginSize d.pmemAddress (k' - k) =
            ⟨d.pmemAddress + (k - k), d.pmemAddress + (k' - k)⟩ := by
          rw [AddressRange.fromBeginSize, u64_of_lt hpm, Nat.sub_self, Nat.add_zero]
        have hsize : (AddressRange.mk k k').size = k' - k := size_of_valid harea.lt
        have hagree : ∀ a, k' ≤ a → t.areaOf a = p.usedBlocks.areaOf a := fun a ha => by rw [hnew, if_neg (by omega)]
        have hend : ∀ j j' d', p.usedBlocks.IsArea j j' d' → j < k' → j' ≤ k' :=
          fun j j' d' hj hlt => harea.end_le hj hlt
        have hit : p.usedBlocks.nextArea k' = t.nextArea k' := (hwf.nextArea_eq
            ((h.wf.firstFrom_nextArea k').of_agree h.wf hwf hend hagree)).symm
        have hlt := harea.lt
        have hsub : ∀ j j' d', t.IsArea j j' d' → p.usedBlocks.IsArea j j' d' :=
          fun j j' d' hj => harea.of_removed h.wf hwf hnew hj
        obtain ⟨p', hrec, hinv', howned', hareas⟩ := ih (c := k') hinv (by omega)
          (fun j j' d' hj hlt => htail j j' d' (hsub j j' d' hj) hlt)
          (fun j j' d' hj hlt => hend j j' d' (hsub j j' d' hj) hlt)
          (lt_of_lt_of_le (h.wf.areasAbove_lt hwf harea hck le_rfl hagree) (Nat.lt_succ_iff.mp hfuel))
        refine ⟨p', ?_, hinv', howned'.trans howned, fun a => ?_⟩
        · simp only [if_pos hkve, harea.range?_eq, harea.get?_eq, bind_some, hinter,
            if_true, hunmap, hsize, hback, harea.iterNext_eq h.wf, hit]
          exact hrec
        rw [hareas]
        rw [hnew]
        by_cases hin : c ≤ a ∧ a < ve
        · rw [if_pos hin]
          by_cases hak : a < k
          · rw [if_neg (by omega), if_neg (by omega), hgap a hin.1 hak]
          by_cases hak' : a < k'
          · rw [if_neg (by omega), if_pos (by omega)]
          · rw [if_pos (by omega)]
        rw [if_neg hin, if_neg (by omega), if_neg (by omega)]
      refine ⟨p, if_neg hkve, h, rfl, fun a => ?_⟩
      split
      · next hin => exact hgap a hin.1 (by omega)
      · rfl

/-- **`decommit`** gives the bytes behind the range back, and forgets the range. -/
theorem decommit_spec (h : p.Inv) (hv : vb < ve) (htail : p.NoTail ve) :
    ∃ p', p.decommit ⟨vb, ve⟩ = some p' ∧ p'.Inv ∧ p'.owned = p.owned ∧
      ∀ a, p'.usedBlocks.areaOf a = if vb ≤ a ∧ a < ve then none else p.usedBlocks.areaOf a := by
  obtain ⟨q, hhead, hq, hqowned, hedge, c, hc, hcve, hqarea⟩ := decommitHead_spec h hv htail
  -- what is left of an area that was cut does not reach past the end either
  have hqtail : q.NoTail ve := by
    intro j j' d hj hjve
    by_contra hcon
    have hj' : j' - 1 ≥ ve := by omega
    have hlast := hj.areaOf_eq (a := j' - 1) (by omega) (by have := hj.lt; omega)
    rw [hqarea, if_neg (by omega)] at hlast
    obtain ⟨i', hi, h1, h2⟩ := h.wf.areaOf_eq_some.mp hlast
    have := htail j i' d hi hjve
    omega
  obtain ⟨p', hloop, hp', howned, harea⟩ := decommitLoop_spec hq (le_refl vb) hqtail hedge
    (Nat.lt_succ_of_le (q.usedBlocks.areasAbove_le vb))
  refine ⟨p', ?_, hp', howned.trans hqowned, fun a => ?_⟩
  · simp only [decommit, h.wf.lowerBound_eq, hhead, bind_some, hloop, hp'.checked_eq]
  rw [harea, hqarea]
  by_cases hin : vb ≤ a ∧ a < ve
  · rw [if_pos hin, if_pos hin]
  · rw [if_neg hin, if_neg hin, if_neg (by omega)]

end PooledMemoryResource

end Rpcsx.Orbis
