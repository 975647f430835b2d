import Rpcsx.Orbis.Vmem.Attributes
import Rpcsx.Orbis.Vmem.Calls

/-!
# Virtual memory: `protect`, `setName` and `setTypeAndProtect`

In an address space that has been built page by page each of the three calls fails and leaves the table
as it was, or changes the attributes it is for, and those only of the allocated addresses in its range.
`protect` extends the range to whole pages; the other two have to be given whole pages. If they are not,
`modifyRange` hands an address to `map` that `map` rounds up, and the record lands on the areas behind.
-/

namespace Rpcsx.Orbis

open Lib Rx Rpcsx.Kernel AllocableResource VirtualMemoryAllocation MemoryTableWithPayload Option

def attributesAt (t : VirtualMemoryResource) (a : Nat) : Option Attributes :=
  (t.valueAt a).bind attributes

theorem attributesAt_eq (t : VirtualMemoryResource) (a : Nat) : attributesAt t a = (seen attributes t a).bind id := by
  unfold attributesAt seen
  cases t.valueAt a with
  | none => rfl
  | some d => rfl

/-- The attributes of the addresses in a range have been changed by `f`, and nothing else. -/
def ChangesIn (t t' : VirtualMemoryResource) (range : AddressRange) (f : Attributes → Attributes) : Prop :=
  ∀ a, attributesAt t' a = if a ∈ range then (attributesAt t a).map f else attributesAt t a

theorem changesIn_of_seen {t t' : VirtualMemoryResource} {range : AddressRange}
    {f : Attributes → Attributes} (h : ∀ a, seen attributes t' a =
      if a ∈ range then (seen attributes t a).map (Option.map f) else seen attributes t a) :
    ChangesIn t t' range f := by
  intro a
  rw [attributesAt_eq, attributesAt_eq, h]
  split
  · cases seen attributes t a with
    | none => rfl
    | some x => rfl
  rfl

/-! ## What the calls are for -/

namespace Attributes

def notExecutable (x : Attributes) : Bool :=
  x.flags.DirectMemory || x.flags.PooledMemory || (x.flags.FlexibleMemory && x.file.isSome)

/-- `protect` changes the protection, and with it whether the memory is committed. -/
def protect (sdkVersion : Nat) (prot : Protection) (x : Attributes) : Attributes :=
  if x.flagsEx.Reserved then x
  else if x.flagsEx.Void then
    { x with
      prot := if sdkVersion ≤ 0x1500000 then prot else .none
      flags.Commited := false }
  else
    let blockProt := if x.type = .WbGarlic then { prot with CpuWrite := false, GpuWrite := false }
      else prot
    let blockProt := if x.notExecutable then { blockProt with CpuExec := false } else blockProt
    { x with
      prot := blockProt
      flags.Commited := blockProt ≠ .none }

def rename (name : String) (x : Attributes) : Attributes := { x with name := staticString name }

def retype (type : MemoryType) (prot : Protection) (x : Attributes) : Attributes :=
  { x with type := type, prot := prot, flags.Commited := prot ≠ .none }

end Attributes

namespace vmem

theorem applies_protectArea (host : Host) (sdkVersion : Nat) (prot : Protection) :
    Applies (protectArea host sdkVersion prot) (Attributes.protect sdkVersion prot) where
  attributes {s a r s' a'} h := by
    unfold protectArea at h
    cases ha : a.isAllocated with
    | false =>
      rw [if_pos (by rw [ha]; rfl)] at h
      cases h
      rw [attributes_eq_none ha]
      rfl
    | true =>
      have hattr : a.attributes =
          some ⟨a.flags, a.flagsEx, a.prot, a.type, a.file, a.callerAddress, a.name⟩ := if_pos ha
      rw [hattr, map_some, Attributes.protect]
      cases hreserved : a.flagsEx.Reserved with
      | true =>
        rw [if_pos (by rw [hreserved, Bool.or_true])] at h
        cases h
        exact hattr
      | false =>
        rw [if_neg (by simp [ha, hreserved])] at h
        cases hvoid : a.isVoid with
        | true =>
          rw [if_pos hvoid] at h
          cases h
          have hv : a.flagsEx.Void := hvoid
          simp only [hv, Bool.false_eq_true, if_false, if_true]
          exact if_pos ha
        | false =>
          rw [if_neg (by simp [hvoid])] at h
          have hv : a.flagsEx.Void = false := hvoid
          simp only [bind_eq_bind, bind_eq_some_iff] at h
          obtain ⟨⟨s1, deviceOffset⟩, -, h⟩ := h
          obtain ⟨-, hdies⟩ | ⟨-, h⟩ := ite_eq_iff.mp h
          · cases hdies
          · cases h
            simp only [hv, Bool.false_eq_true, if_false]
            exact if_pos ha
  twice x := by
    unfold Attributes.protect
    cases hreserved : x.flagsEx.Reserved with
    | true => simp [hreserved]
    | false =>
      cases hvoid : x.flagsEx.Void with
      | true => simp [hreserved, hvoid]
      | false => simp [hreserved, hvoid, Attributes.notExecutable]

theorem applies_renameArea (name : String) : Applies (renameArea name) (Attributes.rename name) where
  attributes {s a r s' a'} h := by
    cases h
    cases ha : a.isAllocated with
    | false =>
      rw [if_neg Bool.false_ne_true, attributes_eq_none ha]
      rfl
    | true =>
      rw [if_pos rfl, show a.attributes = some _ from if_pos ha]
      exact if_pos ha
  twice _ := rfl

theorem applies_retypeArea (type : MemoryType) (prot : Protection) :
    Applies (retypeArea type prot) (Attributes.retype type prot) where
  attributes {s a r s' a'} h := by
    unfold retypeArea at h
    cases ha : a.isAllocated with
    | false =>
      rw [if_pos (by rw [ha]; rfl)] at h
      cases h
      rw [attributes_eq_none ha]
      rfl
    | true =>
      rw [if_neg (by simp [ha])] at h
      have hresult : a' = { a with type := type, prot := prot, flags.Commited := prot ≠ .none } := by
        dsimp only at h
        split at h
        · obtain ⟨x, -, hx⟩ := map_eq_some_iff.mp h
          exact (Prod.mk.inj hx).2.symm
        exact (Prod.mk.inj (some.inj h)).2.symm
      rw [hresult, show a.attributes = some _ from if_pos ha]
      exact if_pos ha
  twice _ := rfl

variable {t : VirtualMemoryResource} {range : AddressRange} {σ : Type}
  {cb : σ → VirtualMemoryAllocation → AddressRange → Option (σ × VirtualMemoryAllocation)}
  {f : Attributes → Attributes}

/-- `modifyRange` from the first area of the range. -/
theorem modifyRange_changes (hcb : Applies cb f) (hpages : Pages range) (noMerge : Bool) (s : σ)
    (h : Paged t) {it : Nat} (hnext : t.nextArea range.beginAddress = some it) :
    (Dies cb range (modifyFlags noMerge) s t (some it) ∧ modifyRange cb range (modifyFlags noMerge)
      (t.mAreas.entries.length + 1) s t (some it) = none) ∨
    ∃ s' t', modifyRange cb range (modifyFlags noMerge) (t.mAreas.entries.length + 1) s t (some it) =
      some (s', t') ∧ Paged t' ∧ ChangesIn t t' range f := by
  have hwf := h.regular.wf
  have hfirst := hwf.firstFrom_nextArea range.beginAddress
  rw [hnext] at hfirst
  obtain ⟨it', d, hit, hlt, hbefore⟩ := hfirst
  have hstart : t.nextArea it = some it :=
    hwf.nextArea_eq ⟨it', d, hit, hit.lt, fun x h1 h2 => absurd h1 (not_le.mpr h2)⟩
  have hfuel := (t.areasAbove_le it).trans (areas_length_le hwf)
  have hedge (k k' : Nat) (e : VirtualMemoryAllocation) (hk : t.IsArea k k' e) (hki : k < it) : k' ≤ it := by
    exact hk.le_begin hit hki
  have hbegin (k k' : Nat) (e : VirtualMemoryAllocation) (hk : t.IsArea k k' e) (hik : it ≤ k) :
      range.beginAddress < k' := by
    have hkk' := hk.lt
    by_cases hkit : k < it'
    · have heq := hk.areaOf_begin
      rw [hit.areaOf_eq hik hkit] at heq
      cases heq
      obtain ⟨rfl, -⟩ := hit.unique hk
      exact hlt
    · omega
  obtain hdied | ⟨s', t', hloop, hpaged, hseen⟩ :=
    modifyRange_spec (s := s) hcb hpages noMerge h hedge hbegin (Nat.lt_succ_of_le hfuel)
  · rw [hstart] at hdied
    exact .inl hdied
  rw [hstart] at hloop
  refine .inr ⟨s', t', hloop, hpaged, changesIn_of_seen fun a => ?_⟩
  rw [hseen]
  by_cases ha : a ∈ range
  · rw [if_pos ha]
    by_cases hia : it ≤ a
    · rw [if_pos ⟨hia, ha⟩]
    rw [if_neg fun h => hia h.1, seen, valueAt, hbefore a ha.1 (not_le.mp hia)]
    rfl
  rw [if_neg ha, if_neg fun h => ha h.2]

/-- A range that is not empty extends to whole pages, or, at the end of the numbers, to none. -/
theorem pageRange_cases (hvalid : range.isValid) (hbound : range.endAddress < 2 ^ 64) :
    Pages (pageRange range) ∨ (pageRange range).endAddress = 0 := by
  rw [AddressRange.isValid_iff] at hvalid
  have hpage : kPageSize = 0x4000 := rfl
  by_cases hwrap : range.endAddress + (kPageSize - 1) < 2 ^ 64
  · left
    have hle := alignDown_le range.beginAddress kPageSize
    have hup := le_alignUp range.endAddress (show 0 < kPageSize by decide) hwrap
    exact ⟨show alignDown range.beginAddress kPageSize < alignUp range.endAddress kPageSize by omega,
      dvd_alignDown _ _, dvd_alignUp _ _⟩
  right
  have hsmall : u64 (range.endAddress + (kPageSize - 1)) < kPageSize := by
    unfold u64
    omega
  show u64 (range.endAddress + (kPageSize - 1)) - u64 (range.endAddress + (kPageSize - 1)) % kPageSize = 0
  rw [Nat.mod_eq_of_lt hsmall, Nat.sub_self]

/-! ## The three calls -/

/-- How a call can end: it dies, it fails and leaves the table as it was, or it changes what it is
for. -/
def Outcome (dies : Prop) (t : VirtualMemoryResource) (range : AddressRange)
    (f : Attributes → Attributes) : Option (VirtualMemoryResource × Option ErrorCode) → Prop
  | none => dies
  | some (t', some _) => t' = t
  | some (t', none) => ChangesIn t t' range f

/-- Whatever happens, the address space stays one of pages. -/
structure Ends (dies : Prop) (t : VirtualMemoryResource) (range : AddressRange)
    (f : Attributes → Attributes) (result : Option (VirtualMemoryResource × Option ErrorCode)) : Prop where
  outcome : Outcome dies t range f result
  paged : ∀ x ∈ result, Paged x.1

variable (host : Host) (k : Kernel) {p : Process} {dies : Prop}

theorem ends_error (h : Paged t) (errc : ErrorCode) : Ends dies t range f (some (t, some errc)) :=
  ⟨rfl, fun x hx => by obtain rfl := some.inj hx; exact h⟩

theorem ends_changes {t' : VirtualMemoryResource} (h : Paged t')
    (hchanges : ChangesIn t t' range f) : Ends dies t range f (some (t', none)) :=
  ⟨hchanges, fun x hx => by obtain rfl := some.inj hx; exact h⟩

/-- Changing one of the areas in its range `protect` meets a host or a pool that refuses. -/
def ProtectDies (p : Process) (range : AddressRange) (prot : Protection) : Prop :=
  Dies (protectArea host p.sdkVersion prot) range AllocationFlags.none (k.fmem, p.pmemCalls) p.vmem
    (p.vmem.lowerBound range.beginAddress)

/-- At one of the areas in its range `setTypeAndProtect` calls `dmem::setType`, which does not come back. -/
def SetTypeDies (p : Process) (range : AddressRange) (type : MemoryType) (prot : Protection) : Prop :=
  Comes (retypeArea type prot) range (modifyFlags (decide (p.sdkVersion < 0x1700000)))
    (fun d a r => a.isAllocated ∧ a.isDirect ∧ dmem.setType d (.fromBeginSize a.deviceOffset r.size) type = none)
    k.dmem p.vmem (p.vmem.queryArea range.beginAddress)

/-- What a call of `protect` does. -/
theorem protect_ends (h : Paged p.vmem) (hvalid : range.isValid) (hbound : range.endAddress < 2 ^ 64) (prot : Nat) :
    Ends (ProtectDies host k p (pageRange range) (Protection.ofBits prot).withRead) p.vmem (pageRange range) (Attributes.protect p.sdkVersion (Protection.ofBits prot).withRead)
      ((protect host k p range prot).map fun x => (x.2.1.vmem, x.2.2)) := by
  unfold protect
  dsimp only
  split
  · exact ends_error h _
  next it hit =>
  split
  · exact ends_error h _
  split
  · exact ends_error h _
  have hnext := hit
  rw [h.regular.wf.lowerBound_eq] at hnext
  obtain hpages | hzero := pageRange_cases hvalid hbound
  · obtain ⟨hdied, hloop⟩ | ⟨s', t', hloop, hpaged, hchanges⟩ := modifyRange_changes
      (applies_protectArea host p.sdkVersion (Protection.ofBits prot).withRead) hpages false
      (k.fmem, p.pmemCalls) h hnext
    · rw [show AllocationFlags.none = modifyFlags false from rfl, hloop]
      refine ⟨?_, nofun⟩
      show Dies _ _ _ _ _ _
      rwa [hit]
    rw [show AllocationFlags.none = modifyFlags false from rfl, hloop]
    exact ends_changes hpaged hchanges
  -- no address is below zero
  have hstop : modifyRange (protectArea host p.sdkVersion (Protection.ofBits prot).withRead)
      (pageRange range) AllocationFlags.none (p.vmem.mAreas.entries.length + 1)
      (k.fmem, p.pmemCalls) p.vmem (some it) = some ((k.fmem, p.pmemCalls), p.vmem) :=
    if_neg (by rw [hzero]; exact Nat.not_lt_zero it)
  rw [hstop]
  refine ends_changes h fun a => ?_
  have hempty : a ∉ pageRange range := by
    rintro ⟨-, ha⟩
    rw [hzero] at ha
    exact Nat.not_lt_zero a ha
  rw [if_neg hempty]

theorem nextArea_of_queryArea (hwf : t.WF) {a it : Nat} (h : t.queryArea a = some it) : t.nextArea a = some it := by
  rw [hwf.queryArea_eq] at h
  obtain ⟨x, hx, rfl⟩ := map_eq_some_iff.mp h
  unfold nextArea
  rw [hx]

theorem not_dies_renameArea {name : String} {flags : AllocationFlags} {s : Unit} {i : Iter} :
    ¬Dies (renameArea name) range flags s t i := by
  intro h
  unfold Dies at h
  induction h with
  | here _ _ hnone => cases hnone
  | next _ _ _ ih => exact ih

/-- What a call of `setName` does: it never dies. -/
theorem setName_ends (h : Paged p.vmem) (hpages : Pages range) (name : String) :
    Ends False p.vmem range (Attributes.rename name) ((setName p range name).map fun x => (x.1.vmem, x.2)) := by
  unfold setName
  split
  · exact ends_error h _
  next it hit =>
  obtain ⟨hdied, -⟩ | ⟨s', t', hloop, hpaged, hchanges⟩ := modifyRange_changes
    (applies_renameArea name) hpages (decide (p.sdkVersion ≤ 0x1500000)) () h
    (nextArea_of_queryArea h.regular.wf hit)
  · exact absurd hdied not_dies_renameArea
  show Ends False p.vmem range (Attributes.rename name) (Option.map (fun x => (x.1.vmem, x.2))
    ((modifyRange (renameArea name) range (modifyFlags (decide (p.sdkVersion ≤ 0x1500000)))
      (p.vmem.mAreas.entries.length + 1) () p.vmem (some it)).map fun x => ({ p with vmem := x.2 }, none)))
  rw [hloop]
  exact ends_changes hpaged hchanges

theorem retypeArea_eq_none {type : MemoryType} {prot : Protection} {d : DirectMemoryResource}
    {a : VirtualMemoryAllocation} {r : AddressRange} (h : retypeArea type prot d a r = none) :
    a.isAllocated ∧ a.isDirect ∧ dmem.setType d (.fromBeginSize a.deviceOffset r.size) type = none := by
  unfold retypeArea at h
  split at h
  · cases h
  next hallocated =>
  dsimp only at h
  split at h
  · next hdirect => exact ⟨by simpa using hallocated, hdirect, map_eq_none_iff.mp h⟩
  · cases h

/-- What a call of `setTypeAndProtect` does. -/
theorem setTypeAndProtect_ends (h : Paged p.vmem) (hpages : Pages range) (type : MemoryType) (prot : Nat) :
    Ends (SetTypeDies k p range type { (Protection.ofBits prot).withRead with CpuExec := false }) p.vmem range
      (Attributes.retype type { (Protection.ofBits prot).withRead with CpuExec := false })
      ((setTypeAndProtect host k p range type prot).map fun x => (x.2.1.vmem, x.2.2)) := by
  unfold setTypeAndProtect
  split
  · exact ends_error h _
  next prot' hprot =>
  obtain rfl : (Protection.ofBits prot).withRead = prot' := by
    unfold validateProtection at hprot
    split at hprot
    · cases hprot
    · exact some.inj hprot
  split
  · exact ends_error h _
  split
  · exact ends_error h _
  next it hit =>
  split
  · exact ends_error h _
  split
  · exact ends_error h _
  show Ends _ p.vmem range _ (Option.map (fun x => (x.2.1.vmem, x.2.2))
    ((modifyRange (retypeArea type { (Protection.ofBits prot).withRead with CpuExec := false }) range
      (modifyFlags (decide (p.sdkVersion < 0x1700000))) (p.vmem.mAreas.entries.length + 1) k.dmem
      p.vmem (some it)).map fun x => ({ k with dmem := x.1 }, { p with vmem := x.2 }, none)))
  obtain ⟨hdied, hloop⟩ | ⟨s', t', hloop, hpaged, hchanges⟩ := modifyRange_changes
    (applies_retypeArea type { (Protection.ofBits prot).withRead with CpuExec := false }) hpages
    (decide (p.sdkVersion < 0x1700000)) k.dmem h (nextArea_of_queryArea h.regular.wf hit)
  · rw [hloop]
    refine ⟨?_, nofun⟩
    show Comes _ _ _ _ _ _ _
    rw [hit]
    exact hdied.imp fun d a r => retypeArea_eq_none
  rw [hloop]
  exact ends_changes hpaged hchanges

/-! ## Reachable address spaces -/

/-- A call of `map` for whole pages. A search from the end is left out. -/
structure PageCall (size alignment : Nat) (flags : AllocationFlags) : Prop where
  size_lt : size < 0x10000000000000000
  size_dvd : kPageSize ∣ size
  alignment : ∃ j, 14 ≤ j ∧ j < 64 ∧ alignment = 2 ^ j
  stack : flags.Stack = true → flags.Fixed = true

/-- The address spaces of processes. `initialize` covers the user's addresses with free areas; all calls
that map or unmap something come down to calls of `map`; `fork` copies the areas one by one, which
changes some offsets and joins areas that look alike. -/
inductive Reached : VirtualMemoryResource → Prop
  | initial {t : VirtualMemoryResource} (hwf : t.WF)
      (hspan : ∀ a, (t.areaOf a).isSome = true ↔ 0x400000 ≤ a ∧ a < 0x700000000000)
      (hfree : ∀ a d, t.valueAt a = some d → d.isAllocated = false) : Reached t
  | mapped {t t' : VirtualMemoryResource} {hint size alignment : Nat} {info : VirtualMemoryAllocation}
      {flags : AllocationFlags} {res : AllocationResult} (h : Reached t)
      (hcall : PageCall size alignment flags)
      (hmap : map t hint size info flags alignment = some (t', res)) : Reached t'
  | copied {t t' : VirtualMemoryResource} (h : Reached t) (hwf : t'.WF)
      (hseen : ∀ a, seen attributes t' a = seen attributes t a)
      (hbegins : ∀ a d, t'.areaOf a = some (a, d) → ∃ d', t.areaOf a = some (a, d')) : Reached t'
  | reprotected {host : Host} {k k' : Kernel} {p p' : Process} {range : AddressRange} {prot : Nat}
      {errc : Option ErrorCode} (h : Reached p.vmem) (hvalid : range.isValid = true)
      (hbound : range.endAddress < 0x10000000000000000)
      (hcall : protect host k p range prot = some (k', p', errc)) : Reached p'.vmem
  | named {p p' : Process} {range : AddressRange} {name : String} {errc : Option ErrorCode}
      (h : Reached p.vmem) (hpages : Pages range)
      (hcall : setName p range name = some (p', errc)) : Reached p'.vmem
  | typed {host : Host} {k k' : Kernel} {p p' : Process} {range : AddressRange} {type : MemoryType}
      {prot : Nat} {errc : Option ErrorCode} (h : Reached p.vmem) (hpages : Pages range)
      (hcall : setTypeAndProtect host k p range type prot = some (k', p', errc)) : Reached p'.vmem

theorem seen_isAllocated (t : VirtualMemoryResource) (a : Nat) :
    seen AllocationInfo.isAllocated t a = (seen attributes t a).map Option.isSome := by
  unfold seen
  rw [Option.map_map]
  congr 1
  funext d
  exact (isSome_attributes d).symm

theorem Reached.paged (h : Reached t) : Paged t := by
  induction h with
  | @initial t hwf hspan hfree =>
    have hnone {a : Nat} : seen AllocationInfo.isAllocated t a ≠ some true := by
      intro hseen
      obtain ⟨d, hd, hallocated⟩ := map_eq_some_iff.mp hseen
      rw [isAllocated_eq, hfree a d hd] at hallocated
      cases hallocated
    refine ⟨⟨hwf, fun x y z hxy hyz hx hz => ?_, fun a d ha hd => ?_, fun a ha => absurd ha hnone,
      fun a ha ha' => ?_⟩, fun a ha => ((hspan a).mp ha).2⟩
    · rw [hspan] at hx hz ⊢
      omega
    · rw [isAllocated_eq, hfree a d (by rw [valueAt, ha]; rfl)] at hd
      cases hd
    have hend : ¬(0x400000 ≤ a + 1 ∧ a + 1 < 0x700000000000) := by
      rw [← hspan, ha']
      exact Bool.false_ne_true
    obtain ⟨h1, h2⟩ := (hspan a).mp ha
    obtain rfl : a = 0x700000000000 - 1 := by omega
    decide
  | @mapped t t' hint size alignment info flags res h hcall hmap ih =>
    obtain ⟨j, h14, h64, rfl⟩ := hcall.alignment
    have hle : 2 ^ j ≤ 2 ^ 63 := Nat.pow_le_pow_right (by decide) (by omega)
    have hdvd : kPageSize ∣ 2 ^ j := (show kPageSize = 2 ^ 14 from rfl) ▸ Nat.pow_dvd_pow 2 h14
    obtain ⟨hreg, hsome⟩ := map_regular visible_isAllocated cutsRight ih.regular (Nat.two_pow_pos j)
      (fun a ha => by have := ih.below a ha; omega) hcall.size_lt hcall.size_dvd hdvd hcall.stack hmap
    exact ⟨hreg, fun a ha => ih.below a (by rwa [hsome] at ha)⟩
  | @copied t t' h hwf hseen hbegins ih =>
    have hstatus (a : Nat) : seen AllocationInfo.isAllocated t' a = seen AllocationInfo.isAllocated t a := by
      rw [seen_isAllocated, seen_isAllocated, hseen]
    refine ⟨ih.regular.of_begins hwf hstatus fun a d ha hd => ?_, fun a ha => ih.below a ?_⟩
    · obtain ⟨d', ha'⟩ := hbegins a d ha
      have hsame := hstatus a
      rw [seen, seen, valueAt, valueAt, ha, ha'] at hsame
      exact ih.regular.begins a d' ha' ((some.inj hsame).symm.trans hd)
    rwa [isSome_of_seen (hstatus a)] at ha
  | @reprotected host k k' p p' range prot errc h hvalid hbound hcall ih =>
    refine (protect_ends host k ih hvalid hbound prot).paged (p'.vmem, errc) ?_
    rw [hcall]
    rfl
  | @named p p' range name errc h hpages hcall ih =>
    refine (setName_ends ih hpages name).paged (p'.vmem, errc) ?_
    rw [hcall]
    rfl
  | @typed host k k' p p' range type prot errc h hpages hcall ih =>
    refine (setTypeAndProtect_ends host k ih hpages type prot).paged (p'.vmem, errc) ?_
    rw [hcall]
    rfl

/-- **Attribute changes are pointwise.** In every address space that calls for whole pages have led to,
`protect` on any range, and `setName` and `setTypeAndProtect` on whole pages, fail and leave the table as
it was, or change the protection (and whether memory is committed), the name, or the type and the
protection, and that only at the allocated addresses of the range. `protect` dies where the host or the
flexible memory refuses a change that it makes on the way, `setTypeAndProtect` in a call of `dmem::setType`
that it makes for an area of direct memory, and `setName` never. -/
theorem attributes_change_pointwise (h : Reached p.vmem) :
    (∀ range prot, range.isValid = true → range.endAddress < 0x10000000000000000 →
      Outcome (ProtectDies host k p (pageRange range) (Protection.ofBits prot).withRead) p.vmem (pageRange range) (Attributes.protect p.sdkVersion (Protection.ofBits prot).withRead)
        ((protect host k p range prot).map fun x => (x.2.1.vmem, x.2.2))) ∧ (∀ range name, Pages range →
      Outcome False p.vmem range (Attributes.rename name) ((setName p range name).map fun x => (x.1.vmem, x.2))) ∧
    ∀ range type prot, Pages range →
      Outcome (SetTypeDies k p range type { (Protection.ofBits prot).withRead with CpuExec := false }) p.vmem range
        (Attributes.retype type { (Protection.ofBits prot).withRead with CpuExec := false })
        ((setTypeAndProtect host k p range type prot).map fun x => (x.2.1.vmem, x.2.2)) :=
  ⟨fun _ prot hvalid hbound => (protect_ends host k h.paged hvalid hbound prot).outcome,
    fun _ name hpages => (setName_ends h.paged hpages name).outcome,
    fun _ type prot hpages => (setTypeAndProtect_ends host k h.paged hpages type prot).outcome⟩

/-! ## Two areas side by side -/

def dataArea : VirtualMemoryAllocation where
  flags := { FlexibleMemory := true, Commited := true }
  flagsEx := { Allocated := true }
  prot := { CpuRead := true, CpuWrite := true }
  type := .WbOnion
  name := "data"

def directArea : VirtualMemoryAllocation where
  flags := { DirectMemory := true, Commited := true }
  flagsEx := { Allocated := true }
  prot := { CpuRead := true }
  type := .WcGarlic
  file := some ⟨1, {}, true⟩
  name := "direct"

def twoPages : Option VirtualMemoryResource :=
  (create MemoryTableWithPayload.empty ⟨0x400000, 0x700000000000⟩).bind fun t =>
    (map t 0x400000 0x4000 dataArea
      { AllocationFlags.none with Fixed := true } kPageSize).bind fun x =>
    (map x.1 0x404000 0x4000 directArea
      { AllocationFlags.none with Fixed := true } kPageSize).map Prod.fst

theorem pageCall_fixed : PageCall 0x4000 kPageSize { AllocationFlags.none with Fixed := true } :=
  ⟨by decide, by decide, ⟨14, by decide, by decide, rfl⟩, fun _ => rfl⟩

theorem reached_twoPages (h : twoPages = some t) : Reached t := by
  obtain ⟨t0, hcreate, h⟩ := bind_eq_some_iff.mp h
  obtain ⟨x, hmap1, h⟩ := bind_eq_some_iff.mp h
  obtain ⟨y, hmap2, rfl⟩ := map_eq_some_iff.mp h
  have hreached : Reached t0 := by
    obtain ⟨⟨t1, it⟩, hmap, rfl⟩ := map_eq_some_iff.mp hcreate
    obtain ⟨t2, it2, hmap', hwf, hvalue⟩ := (show empty.WF from rfl).valueAt_map
      (r := ⟨0x400000, 0x700000000000⟩) (by decide) (default : VirtualMemoryAllocation) true
    rw [hmap] at hmap'
    cases hmap'
    have hvalue' (a : Nat) : t1.valueAt a = if 0x400000 ≤ a ∧ a < 0x700000000000 then some default
        else none := hvalue a
    refine .initial hwf (fun a => ?_) fun a d hd => ?_
    · rw [← isSome_seen id, seen, isSome_map, hvalue']
      split
      · next ha => simp [ha]
      · next ha => simpa using ha
    rw [hvalue'] at hd
    split at hd
    · cases hd
      rfl
    · cases hd
  exact .mapped (.mapped hreached pageCall_fixed hmap1) pageCall_fixed hmap2

def idleHost : Host := ⟨fun _ => none, fun _ => none⟩

def idleKernel : Kernel := ⟨.empty, ⟨.empty, 0, 0, 0⟩⟩

def processOf (t : VirtualMemoryResource) : Process :=
  ⟨t, ⟨⟨0, 0⟩, ⟨0, 0⟩⟩, 0x5000000, []⟩

/-- The first page gets a name, and the second one stays as it was. -/
theorem attributes_change_pointwise_twoPages : ∃ t t' : VirtualMemoryResource, Reached t ∧
    (setName (processOf t) ⟨0x400000, 0x404000⟩ "heap").map (fun x => (x.1.vmem, x.2)) = some (t', none) ∧
    attributesAt t' 0x403fff = dataArea.attributes.map (Attributes.rename "heap") ∧
    attributesAt t' 0x404000 = directArea.attributes := by
  obtain ⟨t, ht, hfirst, hsecond, hname⟩ : ∃ t, twoPages = some t ∧ attributesAt t 0x403fff = dataArea.attributes ∧
      attributesAt t 0x404000 = directArea.attributes ∧
      (setName (processOf t) ⟨0x400000, 0x404000⟩ "heap").any fun x => x.2 = none :=
    exists_some_and (by decide +kernel)
  obtain ⟨⟨p', errc⟩, hcall, rfl⟩ := exists_some_and hname
  have hreached : Reached (processOf t).vmem := reached_twoPages ht
  have houtcome := (attributes_change_pointwise idleHost idleKernel hreached).2.1 ⟨0x400000, 0x404000⟩
    "heap" ⟨by decide, by decide, by decide⟩
  rw [hcall] at houtcome
  refine ⟨t, p'.vmem, hreached, by rw [hcall]; rfl, ?_, ?_⟩
  · rw [houtcome 0x403fff, if_pos ⟨by decide, by decide⟩]
    exact congrArg _ hfirst
  rw [houtcome 0x404000, if_neg fun h => absurd h.2 (by decide)]
  exact hsecond

/-- `setName` from the second quarter of the first page gives the second page the record of the first:
its protection, its flags, and no file. And `protect` does change a flag. -/
theorem attributes_change_elsewhere : ∃ t t₁ t₂ : VirtualMemoryResource, Reached t ∧
    (setName (processOf t) ⟨0x401000, 0x404000⟩ "heap").map (fun x => (x.1.vmem, x.2)) = some (t₁, none) ∧
    0x404000 ∉ pageRange ⟨0x401000, 0x404000⟩ ∧
    attributesAt t 0x404000 = directArea.attributes ∧
    attributesAt t₁ 0x404000 = dataArea.attributes.map (Attributes.rename "heap") ∧
    (protect idleHost idleKernel (processOf t) ⟨0x404000, 0x408000⟩ 0).map
      (fun x => (x.2.1.vmem, x.2.2)) = some (t₂, none) ∧
    (attributesAt t 0x404000).map (·.flags.Commited) = some true ∧
    (attributesAt t₂ 0x404000).map (·.flags.Commited) = some false := by
  obtain ⟨t, ht, hfirst, hname, hprotect⟩ : ∃ t, twoPages = some t ∧ attributesAt t 0x404000 = directArea.attributes ∧
      ((setName (processOf t) ⟨0x401000, 0x404000⟩ "heap").any fun x =>
        attributesAt x.1.vmem 0x404000 = dataArea.attributes.map (Attributes.rename "heap") ∧ x.2 = none) ∧
      (protect idleHost idleKernel (processOf t) ⟨0x404000, 0x408000⟩ 0).any fun x =>
        (attributesAt x.2.1.vmem 0x404000).map (·.flags.Commited) = some false ∧ x.2.2 = none :=
    exists_some_and (by decide +kernel)
  obtain ⟨⟨p₁, errc₁⟩, hcall₁, hattr₁, rfl⟩ := exists_some_and hname
  obtain ⟨⟨k₂, p₂, errc₂⟩, hcall₂, hattr₂, rfl⟩ := exists_some_and hprotect
  refine ⟨t, p₁.vmem, p₂.vmem, reached_twoPages ht, by rw [hcall₁]; rfl, by decide, hfirst, hattr₁,
    by rw [hcall₂]; rfl, ?_, hattr₂⟩
  rw [hfirst]
  rfl

end vmem

end Rpcsx.Orbis
