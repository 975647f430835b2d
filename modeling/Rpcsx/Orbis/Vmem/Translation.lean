import Rpcsx.Kernel.MemoryResource.Fixed
import Rpcsx.Orbis.Vmem.Basic

/-!
# Translation of file-backed memory

An address in an allocated area with a file stands for a place in that file: the offset of the area
plus the distance to its begin. `map` with `Fixed` must not move the places of addresses outside its
range, although it cuts and joins areas there.
-/

namespace Rpcsx.Orbis

open Rx Rpcsx.Kernel AllocableResource AddressRange MemoryTableWithPayload

namespace VirtualMemoryAllocation

/-- What `truncate` makes of the part `n` bytes above the begin. -/
def cut (a : VirtualMemoryAllocation) (n : Nat) : Option VirtualMemoryAllocation :=
  if a.file.isNone then none else some { a with deviceOffset := u64 (n + a.deviceOffset) }

theorem cutsRight : CutsRight cut where
  truncate_eq := by
    refine Or.inr ?_
    show some truncate = _
    congr 1
    funext a self left right
    unfold truncate cut
    cases right.isValid with
    | false => rfl
    | true => cases a.file.isNone with
      | false => rfl
      | true => rfl

def fileBacked (a : VirtualMemoryAllocation) : Bool := a.isAllocated && a.file.isSome

/-- The place in the file `n` bytes above the begin. -/
def locate (a : VirtualMemoryAllocation) (n : Nat) : Option (File × Nat) :=
  if a.isAllocated then a.file.map fun file => (file, u64 (a.deviceOffset + n)) else none

variable {a a' : VirtualMemoryAllocation} {n m : Nat}

theorem locate_eq_none (h : a.fileBacked = false) : a.locate n = none := by
  unfold locate
  split
  · next ha => cases hf : a.file <;> simp_all [fileBacked]
  · rfl

theorem locate_of_fileBacked (h : a.fileBacked) :
    ∃ file, a.file = some file ∧ ∀ n, a.locate n = some (file, u64 (a.deviceOffset + n)) := by
  simp only [fileBacked, Bool.and_eq_true] at h
  obtain ⟨file, hfile⟩ := Option.isSome_iff_exists.mp h.2
  exact ⟨file, hfile, fun n => by simp [locate, h.1, hfile]⟩

theorem u64_add_left_cancel {x : Nat} (hn : n < 2 ^ 64) (hm : m < 2 ^ 64) (h : u64 (x + n) = u64 (x + m)) : n = m := by
  unfold u64 at h
  omega

theorem locate_inj (h : a.fileBacked) (hn : n < 2 ^ 64) (hm : m < 2 ^ 64) (heq : a.locate n = a.locate m) : n = m := by
  obtain ⟨file, -, hloc⟩ := locate_of_fileBacked h
  rw [hloc, hloc] at heq
  exact u64_add_left_cancel hn hm (Prod.mk.inj (Option.some.inj heq)).2

/-- A rebased record translates to the same places. -/
theorem locate_cut (h : a.cut n = some a') : a'.locate m = a.locate (n + m) := by
  unfold cut at h
  split at h
  · cases h
  · cases h
    simp only [locate, isAllocated]
    have : u64 (u64 (n + a.deviceOffset) + m) = u64 (a.deviceOffset + (n + m)) := by
      simp only [u64, Nat.mod_add_mod]
      congr 1
      omega
    rw [this]
    rfl

/-- Two records of one file translate alike once they agree on one byte. -/
theorem locate_shift (h : a'.locate 0 = a.locate n) : a'.locate m = a.locate (n + m) := by
  cases hb : a'.fileBacked with
  | false =>
    cases hb' : a.fileBacked with
    | false => rw [locate_eq_none hb, locate_eq_none hb']
    | true =>
      obtain ⟨file, -, hloc⟩ := locate_of_fileBacked hb'
      rw [locate_eq_none hb, hloc] at h
      cases h
  | true =>
    obtain ⟨file, -, hloc⟩ := locate_of_fileBacked hb
    cases hb' : a.fileBacked with
    | false =>
      rw [hloc, locate_eq_none hb'] at h
      cases h
    | true =>
      obtain ⟨file', -, hloc'⟩ := locate_of_fileBacked hb'
      rw [hloc, hloc', Option.some.injEq, Prod.mk.injEq, Nat.add_zero] at h
      obtain ⟨rfl, hoff⟩ := h
      rw [hloc, hloc']
      congr 2
      unfold u64 at *
      rw [Nat.add_mod, hoff, ← Nat.add_mod, Nat.add_assoc]

end VirtualMemoryAllocation

open VirtualMemoryAllocation

/-- Related records are both file-backed or neither is. -/
theorem fileBacked_of_joins {l r : VirtualMemoryAllocation} {lr rr : AddressRange}
    (h : joins l r lr rr) : r.fileBacked = l.fileBacked := by
  unfold joins at h
  split at h
  · next hl =>
    obtain ⟨hr, hrel⟩ := Bool.and_eq_true_iff.mp h
    obtain ⟨⟨-, hflags, -, -, hfile, -, -⟩, -⟩ := (isRelated_iff hl).mp hrel
    rw [fileBacked, fileBacked, hfile, isAllocated, isAllocated, hflags]
  · next hl =>
    have hl' : l.isAllocated = false := Bool.eq_false_iff.mpr hl
    have hr' : r.isAllocated = false := by simpa using h
    rw [fileBacked, fileBacked, hl', hr', Bool.false_and, Bool.false_and]

/-! ## Places -/

section Places

variable {t t' : VirtualMemoryResource}

/-- The file and the offset there that the address stands for. -/
def location (t : VirtualMemoryResource) (a : Nat) : Option (File × Nat) :=
  (t.areaOf a).bind fun x => x.2.locate (a - x.1)

/-- Every file-backed address outside the range stands for the same place as before. -/
def Stable (t t' : VirtualMemoryResource) (r : AddressRange) : Prop :=
  ∀ a, a ∉ r → ∀ place, location t a = some place → location t' a = some place

def StableAbove (t t' : VirtualMemoryResource) (e : Nat) : Prop :=
  ∀ a, e ≤ a → ∀ place, location t a = some place → location t' a = some place

def Coarser (t t' : VirtualMemoryResource) : Prop :=
  ∀ a a', (t.areaOf a).isSome = true → t.areaOf a = t.areaOf a' →
    (t'.areaOf a).isSome = true ∧ t'.areaOf a = t'.areaOf a'

variable {a : Nat} {d : VirtualMemoryAllocation} {k k' : Nat}

theorem location_eq (h : t.IsArea k k' d) (h1 : k ≤ a) (h2 : a < k') : location t a = d.locate (a - k) := by
  rw [location, h.areaOf_eq h1 h2]
  rfl

theorem location_begin (h : t.IsArea k k' d) : location t k = d.locate 0 := by
  rw [location_eq h le_rfl h.lt, Nat.sub_self]

variable {e : Nat} {t'' : VirtualMemoryResource}

theorem Stable.above {b : Nat} (h : Stable t t' ⟨b, e⟩) : StableAbove t t' e := by
  intro a ha
  refine h a ?_
  rw [mem_def]
  exact fun hcon => absurd hcon.2 (not_lt.mpr ha)

theorem Coarser.trans (h : Coarser t t') (h' : Coarser t' t'') : Coarser t t'' := by
  intro a a' hsome heq
  obtain ⟨hsome', heq'⟩ := h a a' hsome heq
  exact h' a a' hsome' heq'

variable {r : AddressRange} {place : File × Nat}

/-- Two addresses of one area cannot stand for the same place. -/
theorem not_stable_of_same (hwf' : t'.WF) {a' : Nat} (ha : a ∉ r) (ha' : a' ∉ r) (hlt : a < a')
    (hbound : a' < 2 ^ 64) (hsome : (t'.areaOf a).isSome) (hsame : t'.areaOf a = t'.areaOf a')
    (hloc : location t a = some place) (hloc' : location t a' = some place) : ¬ Stable t t' r := by
  intro hstable
  have h1 := hstable a ha place hloc
  have h2 := hstable a' ha' place hloc'
  obtain ⟨⟨q, d⟩, hq⟩ := Option.isSome_iff_exists.mp hsome
  obtain ⟨q', harea, hqa, haq⟩ := hwf'.areaOf_eq_some.mp hq
  rw [hsame] at hq
  obtain ⟨q'', harea', hqa', haq'⟩ := hwf'.areaOf_eq_some.mp hq
  obtain ⟨rfl, -⟩ := harea.unique harea'
  rw [location_eq harea hqa haq] at h1
  rw [location_eq harea hqa' haq'] at h2
  cases hb : d.fileBacked with
  | false =>
    rw [locate_eq_none hb] at h1
    cases h1
  | true =>
    have := locate_inj hb (by omega) (by omega) (h1.trans h2.symm)
    omega

variable {q : Nat} {p : VirtualMemoryAllocation}

/-- What a block must satisfy to keep the places. -/
theorem stable_of_block {q' : Nat} (h : Block t t' q q' p)
    (hin : ∀ a, q ≤ a → a < q' → a ∉ r → ∀ place, location t a = some place → p.locate (a - q) = some place) :
    Stable t t' r := by
  intro a ha place hloc
  by_cases hblock : q ≤ a ∧ a < q'
  · rw [location_eq h.isArea hblock.1 hblock.2]
    exact hin a hblock.1 hblock.2 ha place hloc
  rw [location, h.outside a (by omega)]
  exact hloc

/-- A block of whole areas only joins. -/
theorem coarser_of_block (hwf : t.WF) {q' : Nat} (h : Block t t' q q' p)
    (hwhole : ∀ k k' d, t.IsArea k k' d → k' ≤ q ∨ q' ≤ k ∨ q ≤ k ∧ k' ≤ q') : Coarser t t' := by
  intro a a' hsome heq
  obtain ⟨⟨k, d⟩, hk⟩ := Option.isSome_iff_exists.mp hsome
  obtain ⟨k', harea, hka, hak⟩ := hwf.areaOf_eq_some.mp hk
  obtain ⟨k'', harea', hka', hak'⟩ := hwf.areaOf_eq_some.mp (heq ▸ hk)
  obtain ⟨rfl, -⟩ := harea.unique harea'
  rcases hwhole k k' d harea with hout | hout | hin
  · rw [h.outside a (by omega), h.outside a' (by omega)]
    exact ⟨hsome, heq⟩
  · rw [h.outside a (by omega), h.outside a' (by omega)]
    exact ⟨hsome, heq⟩
  rw [h.isArea.areaOf_eq (by omega) (by omega), h.isArea.areaOf_eq (a := a') (by omega) (by omega)]
  exact ⟨rfl, rfl⟩

/-! ## Merging -/

def valueBefore (t : VirtualMemoryResource) (q : Nat) : Option VirtualMemoryAllocation :=
  (t.areaBefore q).map Prod.snd

/-- What joining `[q, e)` to the area after it must satisfy to keep the places there: that area
goes on where `[q, e)` ends, and neither of the areas that touch the two has the same record. -/
def NextOk (t : VirtualMemoryResource) (right : Option (AddressRange × VirtualMemoryAllocation))
    (q e : Nat) (p : VirtualMemoryAllocation) : Prop :=
  ∀ n pn, right = some (n, pn) → joins p pn ⟨q, e⟩ n = true →
    pn.locate 0 = p.locate (n.beginAddress - q) ∧ valueBefore t q ≠ some p ∧
      t.valueAt n.endAddress ≠ some p

theorem valueBefore_eq_some : valueBefore t q = some p ↔ ∃ k, t.areaBefore q = some (k, p) := by simp [valueBefore]

theorem valueAt_eq_some : t.valueAt a = some p ↔ ∃ k, t.areaOf a = some (k, p) := by simp [valueAt]

theorem mergedBegin_of_ne (h : valueBefore t q ≠ some p) : t.mergedBegin q p true = q := by
  unfold valueBefore at h
  unfold mergedBegin
  cases hb : t.areaBefore q with
  | none => rfl
  | some x =>
    have hne : x.2 ≠ p := fun heq => h (by rw [hb, Option.map_some, heq])
    simp [hne]

theorem fusedEnd_of_ne (h : t.valueAt e ≠ some p) : t.fusedEnd e p = e := by
  unfold valueAt at h
  unfold fusedEnd
  cases he : t.areaOf e with
  | none => rfl
  | some x =>
    have hne : x.2 ≠ p := fun heq => h (by rw [he, Option.map_some, heq])
    simp [hne]

theorem mergedBegin_of_areaBefore {k : Nat} (h : t.areaBefore q = some (k, p)) : t.mergedBegin q p true = k := by
  simp [mergedBegin, h]

theorem fusedEnd_of_isArea (h : t.IsArea k k' p) : t.fusedEnd k p = k' := by
  simp [fusedEnd, h.areaOf_begin, h.endAddress?_eq]

/-- The areas that `joinAt` makes a block of: the two, and those with the same record that touch
them. -/
theorem location_in_block (hwf : t.WF) {l l' r r' : Nat} {p' m : VirtualMemoryAllocation} (hl : t.IsArea l l' p)
    (hr : t.IsArea r r' p') (hgap : ∀ x, l' ≤ x → x < r → t.areaOf x = none) (h1 : t.mergedBegin l m true ≤ a)
    (h2 : a < t.fusedEnd r' m) (hloc : location t a = some place) :
    (a < l ∧ valueBefore t l = some m ∧ m.locate (a - t.mergedBegin l m true) = some place) ∨
    (l ≤ a ∧ a < l' ∧ p.locate (a - l) = some place) ∨ (r ≤ a ∧ a < r' ∧ p'.locate (a - r) = some place) ∨
    (r' ≤ a ∧ t.valueAt r' = some m ∧ m.locate (a - r') = some place) := by
  by_cases hal : a < l
  · rcases hwf.mergedBegin_cases l m with ⟨heq, -⟩ | ⟨hbefore, -, hin⟩
    · omega
    rw [location, hin a h1 hal] at hloc
    exact Or.inl ⟨hal, by rw [valueBefore, hbefore]; rfl, hloc⟩
  by_cases hal' : a < l'
  · rw [location_eq hl (not_lt.mp hal) hal'] at hloc
    exact Or.inr (Or.inl ⟨not_lt.mp hal, hal', hloc⟩)
  by_cases har : a < r
  · rw [location, hgap a (not_lt.mp hal') har] at hloc
    cases hloc
  by_cases har' : a < r'
  · rw [location_eq hr (not_lt.mp har) har'] at hloc
    exact Or.inr (Or.inr (Or.inl ⟨not_lt.mp har, har', hloc⟩))
  rcases hwf.fusedEnd_cases m fun _ _ hj => edge_of_isArea hwf hr hj with ⟨heq, -⟩ | hend
  · omega
  rw [location_eq hend (not_lt.mp har') h2] at hloc
  refine Or.inr (Or.inr (Or.inr ⟨not_lt.mp har', ?_, hloc⟩))
  rw [valueAt, hend.areaOf_begin]
  rfl

/-- A record that is not related to itself cannot go on both `[k, q)` and `[q, e)`. -/
theorem not_contiguous_twice {k n n' : Nat} {pn : VirtualMemoryAllocation} (hp : p.fileBacked)
    (hself : joins p p ⟨k, q⟩ ⟨q, e⟩ = false) (hj : joins p pn ⟨q, e⟩ ⟨n, n'⟩) (hkq : k < q) (hqe : q < e)
    (hen : e ≤ n) (hn : n < 2 ^ 64) : p.locate (n - k) ≠ pn.locate 0 := by
  intro hplace
  have hallocated : p.isAllocated := (Bool.and_eq_true_iff.mp hp).1
  have hfile : p.file ≠ none := by
    have := (Bool.and_eq_true_iff.mp hp).2
    intro hnone
    rw [hnone] at this
    cases this
  simp only [joins, isAllocated_eq, hallocated, if_true, Bool.true_and] at hself hj
  have hpooled : p.flags ≠ { PooledMemory := true : BlockFlags } := by
    intro hflags
    have : p.isRelated p ⟨k, q⟩ ⟨q, e⟩ :=
      (isRelated_iff hallocated).mpr ⟨⟨rfl, rfl, rfl, rfl, rfl, rfl, rfl⟩, Or.inr (Or.inl hflags)⟩
    rw [show AllocationInfo.isRelated p p ⟨k, q⟩ ⟨q, e⟩ = true from this] at hself
    cases hself
  obtain ⟨hpn, hrel⟩ := Bool.and_eq_true_iff.mp hj
  obtain ⟨-, hoff⟩ := (isRelated_iff hallocated).mp hrel
  have hoff := (hoff.resolve_left hfile).resolve_left hpooled
  obtain ⟨file, hf, hloc⟩ := locate_of_fileBacked hp
  obtain ⟨file', -, hloc'⟩ := locate_of_fileBacked ((fileBacked_of_joins
    (show joins p pn ⟨q, e⟩ ⟨n, n'⟩ = true by simp [joins, hallocated, hpn, hrel])).trans hp)
  rw [hloc, hloc', Option.some.injEq, Prod.mk.injEq, ← hoff, size, u64Sub_of_le hqe.le] at hplace
  have heq : u64 (p.deviceOffset + (n - k)) = u64 (p.deviceOffset + (e - q)) := by
    rw [hplace.2]
    simp [u64]
  have := u64_add_left_cancel (by omega) (by omega) heq
  omega

/-- The second half of `merge` keeps the places exactly when `NextOk` holds. -/
theorem joinNext_spec (hwf : t.WF) (harea : t.IsArea q e p) (hbound : ∀ a, (t.areaOf a).isSome → a < 2 ^ 64) :
    ∃ t' it, joinNext t q = some (t', it) ∧ t'.WF ∧ Coarser t t' ∧
      ((p.fileBacked → NextOk t (t.firstAbove e) q e p) → ∀ r, Stable t t' r) ∧
      ((∀ k, t.areaBefore q = some (k, p) → joins p p ⟨k, q⟩ ⟨q, e⟩ = false) →
        StableAbove t t' e → p.fileBacked → NextOk t (t.firstAbove e) q e p) := by
  have hrefl : Coarser t t := fun a a' h1 h2 => ⟨h1, h2⟩
  have hstable : ∀ r, Stable t t r := fun r a _ place h => h
  cases hnext : t.firstAbove e with
  | none =>
    exact ⟨t, q, joinNext_of_none hwf harea hnext, hwf, hrefl, fun _ => hstable, fun _ _ _ n pn h => by cases h⟩
  | some x =>
    obtain ⟨⟨n, n'⟩, pn⟩ := x
    obtain ⟨hn, hen, hgap⟩ := hwf.firstAbove_eq_some hnext
    dsimp only at hn hen hgap
    have hen' : e ≤ n := by
      by_contra hlt
      have h1 := hn.areaOf_eq (a := e - 1) (by omega) (by omega)
      rw [harea.areaOf_eq (by have := harea.lt; omega) (by omega)] at h1
      cases h1
      have := (harea.unique hn).1
      omega
    rw [joinNext_of_some hwf harea hnext]
    cases hj : joins p pn ⟨q, e⟩ ⟨n, n'⟩ with
    | false =>
      refine ⟨t, q, joinAt_of_not_joins harea hn hj, hwf, hrefl, fun _ => hstable, ?_⟩
      intro _ _ _ m pm hm hjm
      cases hm
      rw [hj] at hjm
      cases hjm
    | true =>
      obtain ⟨t', hjoin, hblock⟩ := joinAt_of_joins hwf harea hn hen' q hj (merge_eq p pn ⟨q, e⟩ ⟨n, n'⟩)
      obtain ⟨j, dj, hbegin⟩ := exists_isArea_mergedBegin hwf harea p
      obtain ⟨i, di, hend⟩ := exists_isArea_fusedEnd hwf hn p
      have hn' := hn.lt
      have hq := harea.lt
      refine ⟨t', _, hjoin, hblock.wf,
        coarser_of_block hwf hblock fun k k' d hk => whole_of_edges hbegin hend hk, ?_, ?_⟩
      · intro hok r
        refine stable_of_block hblock fun a h1 h2 _ place hloc => ?_
        have hcases := location_in_block hwf harea hn hgap h1 h2 hloc
        cases hp : p.fileBacked with
        | false =>
          -- nothing in the block is file-backed
          have hpn := (fileBacked_of_joins hj).trans hp
          simp only [locate_eq_none hp, locate_eq_none hpn, reduceCtorEq, and_false, or_false] at hcases
        | true =>
          obtain ⟨hcont, hb, he⟩ := hok hp ⟨n, n'⟩ pn rfl hj
          rw [mergedBegin_of_ne hb]
          rcases hcases with ⟨-, hb', -⟩ | ⟨-, -, hin⟩ | ⟨hna, -, hin⟩ | ⟨-, he', -⟩
          · exact absurd hb' hb
          · exact hin
          · rw [locate_shift hcont] at hin
            rw [show a - q = n - q + (a - n) by omega]
            exact hin
          exact absurd he' he
      intro hbefore habove hp m pm hm hjm
      cases hm
      have hqQ := hwf.mergedBegin_le q p
      have hnQ := hwf.le_fusedEnd p fun _ _ hk => edge_of_isArea hwf hn hk
      have hn64 := hbound n hn.isSome_begin
      -- the first byte of the next area
      obtain ⟨file, hfile, hloc⟩ := locate_of_fileBacked ((fileBacked_of_joins hj).trans hp)
      have hplace : p.locate (n - t.mergedBegin q p true) = pn.locate 0 := by
        have h := habove n hen' _ ((location_begin hn).trans (hloc 0))
        rw [location_eq hblock.isArea (by omega) (by omega)] at h
        rw [h, hloc]
      have hb : valueBefore t q ≠ some p := by
        intro hb
        obtain ⟨k, hk⟩ := valueBefore_eq_some.mp hb
        have hQ := mergedBegin_of_areaBefore hk
        have hkq : k < q := by
          rcases hwf.mergedBegin_cases q p with ⟨-, hne⟩ | ⟨-, hlt, -⟩
          · exact absurd hk (hne k)
          · rwa [hQ] at hlt
        exact not_contiguous_twice hp (hbefore k hk) hj hkq hq hen' hn64 (hQ ▸ hplace)
      rw [mergedBegin_of_ne hb] at hplace
      refine ⟨hplace.symm, hb, fun he => ?_⟩
      -- the area after that one has the same record, and so it has been moved
      obtain ⟨k, hk⟩ := valueAt_eq_some.mp he
      obtain rfl := edge_of_isArea hwf hn hk
      obtain ⟨k', hk', -, -⟩ := hwf.areaOf_eq_some.mp hk
      have hk64 := hbound k (by rw [hk]; rfl)
      obtain ⟨file, -, hloc⟩ := locate_of_fileBacked hp
      have h := habove k (by omega) _ ((location_begin hk').trans (hloc 0))
      have hlt' := hk'.lt
      rw [mergedBegin_of_ne hb, fusedEnd_of_isArea hk'] at hblock
      rw [location_eq hblock.isArea (by omega) hlt', ← hloc 0] at h
      have := locate_inj hp (by omega) (by omega) h
      omega

/-- What `merge` must satisfy to keep the places outside `[b, e)`, whose record is `info`, given the
areas at its two sides. -/
def MergeOk (t : VirtualMemoryResource) (left right : Option (AddressRange × VirtualMemoryAllocation)) (b e : Nat)
    (info : VirtualMemoryAllocation) : Prop :=
  match left with
  | none => info.fileBacked = true → NextOk t right b e info
  | some (l, pl) =>
    if joins pl info l ⟨b, e⟩ then
      pl.fileBacked = true →
        valueBefore t l.beginAddress ≠ some pl ∧ (∀ n, right = some (n, pl) → n.beginAddress ≠ e) ∧
          NextOk t right l.beginAddress e pl
    else info.fileBacked = true → NextOk t right b e info

theorem Stable.trans (h : Stable t t' r) (h' : Stable t' t'' r) : Stable t t'' r :=
  fun a ha place hloc => h' a ha place (h a ha place hloc)

section

variable {q' : Nat} (hblock : Block t t' q q' p)

include hblock

theorem valueBefore_of_block : valueBefore t' q = valueBefore t q := by
  unfold valueBefore
  cases q with
  | zero => rw [areaBefore_zero, areaBefore_zero]
  | succ a => rw [areaBefore_succ, areaBefore_succ, hblock.outside a (Or.inl (Nat.lt_succ_self a))]

/-- The area behind a block is the one of the old table. -/
theorem nextOk_of_block (hwf : t.WF) (harea : t.IsArea k q' d) :
    NextOk t' (t'.firstAbove q') q q' p ↔ NextOk t (t.firstAbove q') q q' p := by
  have habove : ∀ a, q' ≤ a → t'.areaOf a = t.areaOf a := fun a ha => hblock.outside a (Or.inr ha)
  rw [firstAbove_congr hwf hblock.wf (fun k k' d hk hke => harea.end_le hk hke) habove]
  refine forall_congr' fun n => forall_congr' fun pn => forall_congr' fun hn => ?_
  have hn' : q' ≤ n.endAddress := (hwf.firstAbove_eq_some hn).2.1.le
  rw [valueBefore_of_block hblock, valueAt, habove _ hn', ← valueAt]

/-- Two addresses of a block that stand for the same place. -/
theorem not_stable_of_block (hwf : t''.WF) (hcoarser : Coarser t' t'') {a' : Nat} (hlt : a < a') (hbound : a' < 2 ^ 64)
    (hqa : q ≤ a) (haq : a' < q') (ha : a ∉ r) (ha' : a' ∉ r) (h : location t a = some place)
    (h' : location t a' = some place) : ¬ Stable t t'' r := by
  obtain ⟨hsome, hsame⟩ := hcoarser a a' (by rw [hblock.isArea.areaOf_eq hqa (by omega)]; rfl)
    (by rw [hblock.isArea.areaOf_eq hqa (by omega), hblock.isArea.areaOf_eq (a := a') (by omega) haq])
  exact not_stable_of_same hwf ha ha' hlt hbound hsome hsame h h'

end

section

variable (hwf : t.WF) {b l l' : Nat} {info pl : VirtualMemoryAllocation} (hl : t.IsArea l l' pl)
  (harea : t.IsArea b e info) (hlb : l < b) (hgap : ∀ x, l' ≤ x → x < b → t.areaOf x = none)
  (hbound : ∀ a, (t.areaOf a).isSome → a < 2 ^ 64)

include hwf hl harea hlb hgap hbound

/-- What the join of a file-backed area with the one before it needs; `t'` is the table after it, and `t''` that
after the second half of `merge`. -/
theorem stable_joined_iff (hpl : pl.fileBacked = true)
    (hblock : Block t t' (t.mergedBegin l pl true) (t.fusedEnd e pl) pl) (hwf' : t''.WF) (hcoarser : Coarser t' t'')
    (hkeep : (pl.fileBacked → NextOk t' (t'.firstAbove (t.fusedEnd e pl)) (t.mergedBegin l pl true)
      (t.fusedEnd e pl) pl) → ∀ r, Stable t' t'' r)
    (hneed : (∀ k, t'.areaBefore (t.mergedBegin l pl true) = some (k, pl) →
        joins pl pl ⟨k, t.mergedBegin l pl true⟩ ⟨t.mergedBegin l pl true, t.fusedEnd e pl⟩ = false) →
      StableAbove t' t'' (t.fusedEnd e pl) → pl.fileBacked →
        NextOk t' (t'.firstAbove (t.fusedEnd e pl)) (t.mergedBegin l pl true) (t.fusedEnd e pl) pl) :
    Stable t t'' ⟨b, e⟩ ↔ valueBefore t l ≠ some pl ∧
      (∀ n, t.firstAbove e = some (n, pl) → n.beginAddress ≠ e) ∧ NextOk t (t.firstAbove e) l e pl := by
  obtain ⟨file, -, hloc⟩ := locate_of_fileBacked hpl
  have hplace := fun {k k'} (hk : t.IsArea k k' pl) => (location_begin hk).trans (hloc 0)
  have hout : ∀ a, a < b → a ∉ mk b e := fun a ha h => absurd h.1 (not_le.mpr ha)
  have hb64 := hbound b harea.isSome_begin
  have hbe := harea.lt
  have heQ := hwf.le_fusedEnd pl fun _ _ hk => edge_of_isArea hwf harea hk
  by_cases hb : valueBefore t l = some pl
  · refine iff_of_false ?_ fun h => h.1 hb
    obtain ⟨k, hk⟩ := valueBefore_eq_some.mp hb
    obtain ⟨-, -, hk'⟩ := hl.iterPrev_eq hk
    have hkl := hk'.lt
    exact not_stable_of_block hblock hwf' hcoarser hkl (by omega) (mergedBegin_of_areaBefore hk).le (by omega)
      (hout k (by omega)) (hout l hlb) (hplace hk') (hplace hl)
  rw [mergedBegin_of_ne hb] at hblock hkeep hneed
  by_cases he : t.valueAt e = some pl
  · obtain ⟨k, hk⟩ := valueAt_eq_some.mp he
    obtain rfl := edge_of_isArea hwf harea hk
    obtain ⟨k', hk', -, -⟩ := hwf.areaOf_eq_some.mp hk
    have hkk := hk'.lt
    have hfused := fusedEnd_of_isArea hk'
    refine iff_of_false ?_ fun h => ?_
    · exact not_stable_of_block hblock hwf' hcoarser (by omega) (hbound k (by rw [hk]; rfl)) (le_refl l) (by omega)
        (hout l hlb) (fun h => lt_irrefl _ h.2) (hplace hl) (hplace hk')
    exact h.2.1 ⟨k, k'⟩ (hk'.firstAbove_eq hwf hkk fun x h1 h2 => by omega) rfl
  rw [fusedEnd_of_ne he] at hblock hkeep hneed
  have hnextOk := nextOk_of_block hblock hwf harea
  refine ⟨fun h => ⟨hb, fun n hn hne => ?_, ?_⟩, fun h => ?_⟩
  · obtain ⟨hn', -, -⟩ := hwf.firstAbove_eq_some hn
    rw [hne] at hn'
    exact he (valueAt_eq_some.mpr ⟨e, hn'.areaOf_begin⟩)
  · rw [← hnextOk]
    refine hneed (fun k hk => ?_) (fun a ha place hplace => ?_) hpl
    · exact absurd ((valueBefore_of_block hblock).symm.trans (valueBefore_eq_some.mpr ⟨k, hk⟩)) hb
    rw [location, hblock.outside a (Or.inr ha)] at hplace
    exact h.above a ha place hplace
  refine Stable.trans (stable_of_block hblock fun a h1 h2 ha place hplace => ?_) (hkeep (fun _ => hnextOk.mpr h.2.2) _)
  rcases location_in_block (m := pl) hwf hl harea hgap (by rw [mergedBegin_of_ne hb]; exact h1)
    (by rw [fusedEnd_of_ne he]; exact h2) hplace with
    ⟨hal, -, -⟩ | ⟨-, -, hin⟩ | ⟨hba, hae, -⟩ | ⟨hea, -, -⟩
  · omega
  · exact hin
  · exact absurd ⟨hba, hae⟩ ha
  · omega

/-- The area is joined with the one before it. -/
theorem merge_joined (hl'b : l' ≤ b) (hp : t.prevArea b = some (⟨l, l'⟩, pl)) (hj : joins pl info ⟨l, l'⟩ ⟨b, e⟩ = true) :
    ∃ t' it, merge t b = some (t', it) ∧ t'.WF ∧ Coarser t t' ∧ (Stable t t' ⟨b, e⟩ ↔ (pl.fileBacked = true →
      valueBefore t l ≠ some pl ∧ (∀ n, t.firstAbove e = some (n, pl) → n.beginAddress ≠ e) ∧
        NextOk t (t.firstAbove e) l e pl)) := by
  obtain ⟨t1, hjoin, hblock⟩ := joinAt_of_joins hwf hl harea hl'b b hj (merge_eq pl info ⟨l, l'⟩ ⟨b, e⟩)
  obtain ⟨j, dj, hbegin⟩ := exists_isArea_mergedBegin hwf hl pl
  obtain ⟨i, di, hend⟩ := exists_isArea_fusedEnd hwf harea pl
  have hcoarser1 : Coarser t t1 := coarser_of_block hwf hblock fun k k' d hk => whole_of_edges hbegin hend hk
  obtain ⟨t2, it2, hnext, hwf2, hcoarser2, hkeep, hneed⟩ := joinNext_spec hblock.wf
    hblock.isArea fun a ha => hblock.lt_of_isSome hend hbound ha
  refine ⟨t2, it2, ?_, hwf2, hcoarser1.trans hcoarser2, ?_⟩
  · rw [merge_eq_joinNext ((joinPrev_of_some hwf harea hp).trans hjoin), hnext]
  cases hpl : pl.fileBacked with
  | false =>
    have hinfo := (fileBacked_of_joins hj).trans hpl
    simp only [Bool.false_eq_true, false_implies, iff_true]
    refine Stable.trans (stable_of_block hblock fun a h1 h2 _ place hloc => ?_)
      (hkeep (fun h => by rw [hpl] at h; cases h) _)
    have hcases := location_in_block hwf hl harea hgap h1 h2 hloc
    simp only [locate_eq_none hpl, locate_eq_none hinfo, reduceCtorEq, and_false, or_false] at hcases
  | true =>
    simp only [true_implies]
    exact stable_joined_iff hwf hl harea hlb hgap hbound hpl hblock hwf2 hcoarser2 hkeep hneed

end

theorem merge_spec (hwf : t.WF) {b : Nat} {info : VirtualMemoryAllocation} (harea : t.IsArea b e info)
    (hbound : ∀ a, (t.areaOf a).isSome → a < 2 ^ 64) :
    ∃ t' it, merge t b = some (t', it) ∧ t'.WF ∧ Coarser t t' ∧
      (Stable t t' ⟨b, e⟩ ↔ MergeOk t (t.prevArea b) (t.firstAbove e) b e info) := by
  obtain ⟨t', it, hnext, hwf', hcoarser, hkeep, hneed⟩ := joinNext_spec hwf harea hbound
  -- when nothing is joined on the left, the second half decides
  have halone : (∀ k, t.areaBefore b = some (k, info) → joins info info ⟨k, b⟩ ⟨b, e⟩ = false) →
      joinPrev t b = some (t, b) → ∃ t' it, merge t b = some (t', it) ∧ t'.WF ∧ Coarser t t' ∧
      (Stable t t' ⟨b, e⟩ ↔ (info.fileBacked → NextOk t (t.firstAbove e) b e info)) := by
    intro hbefore hprev
    refine ⟨t', it, ?_, hwf', hcoarser, fun h => hneed hbefore h.above, fun h => hkeep h _⟩
    rw [merge_eq_joinNext hprev, hnext]
  cases hp : t.prevArea b with
  | none =>
    refine halone (fun k hk => ?_) (joinPrev_of_none hwf harea hp)
    cases b with
    | zero => rw [areaBefore_zero] at hk; cases hk
    | succ a =>
      rw [areaBefore_succ, hwf.prevArea_eq_none hp (Nat.lt_succ_self a)] at hk
      cases hk
  | some x =>
    obtain ⟨⟨l, l'⟩, pl⟩ := x
    obtain ⟨hl, hlb, hgap⟩ := hwf.prevArea_eq_some hp
    dsimp only at hl hlb hgap
    have hl'b : l' ≤ b := by
      rcases whole_of_edges harea harea hl with h | h | h
      · exact h
      · have := harea.lt; omega
      · omega
    simp only [MergeOk]
    cases hj : joins pl info ⟨l, l'⟩ ⟨b, e⟩ with
    | false =>
      refine halone (fun k hk => ?_) ((joinPrev_of_some hwf harea hp).trans (joinAt_of_not_joins hl harea hj))
      -- an area with the record `info` that touches `b` is the one that was not joined
      obtain ⟨-, -, hk⟩ := harea.iterPrev_eq hk
      have heq := hk.prevArea_eq hwf hk.lt fun x h1 h2 => absurd h2 (not_lt.mpr h1)
      rw [hp] at heq
      cases heq
      exact hj
    | true => exact merge_joined hwf hl harea hlb hgap hbound hl'b hp hj

end Places

end Rpcsx.Orbis
