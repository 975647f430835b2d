import Rpcsx.Kernel.MemoryResource.Edits
import Rpcsx.Rx.MemoryTable.Neighbours

/-!
# What the parts of `map` and `merge` do to the areas

`assign` cuts out the range, `joinAt` makes a block of two areas and of everything with the same
record that touches them. The notifications of a record type that only rebases right remainders
(`CutsRight`) come down to one call of `allocations.map` on the part of the last area above the
range.
-/

namespace Rpcsx.Kernel

open Rx AllocationInfo MemoryTableWithPayload Option

namespace AllocableResource

variable {A : Type} [AllocationInfo A] [Inhabited A] [DecidableEq A] {t t' : Allocations A}

/-! ## Blocks -/

/-- `t'` is `t` with the areas between `q` and `q'` replaced by one. -/
structure Block (t t' : Allocations A) (q q' : Nat) (p : A) : Prop where
  wf : t'.WF
  isArea : t'.IsArea q q' p
  outside : ∀ a, a < q ∨ q' ≤ a → t'.areaOf a = t.areaOf a

variable {k k' j : Nat} {d : A}

omit [AllocationInfo A] [Inhabited A] [DecidableEq A] in
/-- Where an area ends, only a new one can begin. -/
theorem edge_of_isArea (hwf : t.WF) (h : t.IsArea k k' d) {d' : A} (hj : t.areaOf k' = some (j, d')) : j = k' := by
  obtain ⟨j', hj', hle, hlt⟩ := hwf.areaOf_eq_some.mp hj
  rcases hle.eq_or_lt with h1 | h1
  · exact h1
  · exact absurd (h.end_le hj' h1) (not_le.mpr hlt)

variable {q : Nat} {p p' : A}

omit [AllocationInfo A] [Inhabited A] [DecidableEq A] in
/-- Between the begin of an area and the end of one, areas are whole. -/
theorem whole_of_edges {q' i : Nat} (hq : t.IsArea q j p) (hq' : t.IsArea i q' p') (h : t.IsArea k k' d) :
    k' ≤ q ∨ q' ≤ k ∨ q ≤ k ∧ k' ≤ q' := by
  by_cases hkq : k < q
  · left
    exact h.le_begin hq hkq
  by_cases hkq' : k < q'
  · exact Or.inr (Or.inr ⟨not_lt.mp hkq, hq'.end_le h hkq'⟩)
  · exact Or.inr (Or.inl (not_lt.mp hkq'))

variable {l l' : Nat}

omit [AllocationInfo A] [Inhabited A] in
/-- A block begins where an area did. -/
theorem exists_isArea_mergedBegin (hwf : t.WF) (h : t.IsArea l l' p) (m : A) :
    ∃ j d, t.IsArea (t.mergedBegin l m true) j d := by
  rcases hwf.mergedBegin_cases l m with ⟨heq, -⟩ | ⟨-, hlt, hin⟩
  · rw [heq]; exact ⟨l', p, h⟩
  obtain ⟨j, hj, -, -⟩ := hwf.areaOf_eq_some.mp (hin _ (le_refl _) hlt)
  exact ⟨j, m, hj⟩

variable {r r' : Nat}

omit [AllocationInfo A] [Inhabited A] in
/-- It ends where an area did. -/
theorem exists_isArea_fusedEnd (hwf : t.WF) (h : t.IsArea r r' p) (m : A) : ∃ i d, t.IsArea i (t.fusedEnd r' m) d := by
  rcases hwf.fusedEnd_cases m fun _ _ hj => edge_of_isArea hwf h hj with ⟨heq, -⟩ | hend
  · rw [heq]; exact ⟨r, p, h⟩
  · exact ⟨r', m, hend⟩

variable {b e : Nat}

omit [AllocationInfo A] in
/-- Mapping whole areas makes a block. -/
theorem block_of_map (hwf : t.WF) (hbe : b < e) (he : t.IsArea k e d) (p : A) :
    ∃ t', t.map ⟨b, e⟩ p true false = some (t', t.mergedBegin b p true) ∧
      Block t t' (t.mergedBegin b p true) (t.fusedEnd e p) p := by
  obtain ⟨t', hmap, hwf', harea, hout⟩ := hwf.map_block hbe p fun _ _ hj => edge_of_isArea hwf he hj
  exact ⟨t', hmap, hwf', harea, hout⟩

variable {it : Nat} {it' : Nat}

/-- Two areas, neighbours, that are not related stay as they are. -/
theorem joinAt_of_not_joins (hl : t.IsArea l l' p) (hr : t.IsArea r r' p') (h : joins p p' ⟨l, l'⟩ ⟨r, r'⟩ = false) :
    joinAt t l r it = some (t, it) := by simp [joinAt, hl.get?_eq, hr.get?_eq, hl.range?_eq, hr.range?_eq, h]

/-- Two that are related become a block. -/
theorem joinAt_of_joins (hwf : t.WF) (hl : t.IsArea l l' p) (hr : t.IsArea r r' p') (hle : l' ≤ r) (it : Nat)
    (h : joins p p' ⟨l, l'⟩ ⟨r, r'⟩) {m : A} (hm : AllocationInfo.merge p p' ⟨l, l'⟩ ⟨r, r'⟩ = m) :
    ∃ t', joinAt t l r it = some (t', t.mergedBegin l m true) ∧
      Block t t' (t.mergedBegin l m true) (t.fusedEnd r' m) m := by
  have hlt : l < r' := lt_trans (lt_of_lt_of_le hl.lt hle) hr.lt
  obtain ⟨t', hmap, hblock⟩ := block_of_map hwf hlt hr m
  refine ⟨t', ?_, hblock⟩
  simp only [joinAt, hl.get?_eq, hr.get?_eq, hl.range?_eq, hr.range?_eq, bind_eq_bind, bind_some, h, if_true, hm]
  exact hmap

/-- The first half of `merge`, at the first area. -/
theorem joinPrev_of_none (hwf : t.WF) (h : t.IsArea b e p) (hprev : t.prevArea b = none) :
    joinPrev t b = some (t, b) := by
  rw [joinPrev, h.iterPrev_eq_prevArea hwf, hprev]
  rfl

/-- The first half of `merge`, with the area before. -/
theorem joinPrev_of_some (hwf : t.WF) {p0 : A} {r : AddressRange} (h : t.IsArea b e p)
    (hprev : t.prevArea b = some (r, p0)) : joinPrev t b = joinAt t r.beginAddress b b := by
  rw [joinPrev, h.iterPrev_eq_prevArea hwf, hprev]
  rfl

/-- The second half, at the last area. -/
theorem joinNext_of_none (hwf : t.WF) (h : t.IsArea b e p) (hnext : t.firstAbove e = none) :
    joinNext t b = some (t, b) := by
  rw [joinNext, h.iterNext_eq_firstAbove hwf, hnext]
  rfl

/-- The second half, with the area after. -/
theorem joinNext_of_some (hwf : t.WF) {p0 : A} {r : AddressRange} (h : t.IsArea b e p)
    (hnext : t.firstAbove e = some (r, p0)) : joinNext t b = joinAt t b r.beginAddress b := by
  rw [joinNext, h.iterNext_eq_firstAbove hwf, hnext]
  rfl

theorem merge_eq_joinNext (h : joinPrev t b = some (t', q)) : merge t b = joinNext t' q := by
  rw [merge, h]
  rfl

omit [AllocationInfo A] [Inhabited A] [DecidableEq A] in
/-- A block fills gaps, but only below the end of an area. -/
theorem Block.lt_of_isSome {q' n : Nat} (h : Block t t' q q' p) (hend : t.IsArea j q' d)
    (hbound : ∀ a, (t.areaOf a).isSome → a < n) {a : Nat} (ha : (t'.areaOf a).isSome) : a < n := by
  by_cases hin : q ≤ a ∧ a < q'
  · have hlt := hend.lt
    have := hbound (q' - 1) (by rw [hend.areaOf_eq (by omega) (by omega)]; rfl)
    omega
  rw [h.outside a (by omega)] at ha
  exact hbound a ha

/-! ## The new record -/

omit [AllocationInfo A] in
/-- `assign` makes the range an area with the new record; an area that reaches over one of its ends
is cut there and keeps its record. -/
theorem assign_spec (hwf : t.WF) (hit : t.IsArea it it' d) (hbe : b < e) (info : A) :
    ∃ t', assign t it ⟨b, e⟩ info = some (t', b) ∧ t'.WF ∧ t'.IsArea b e info ∧
      (∀ a, a < b → t'.areaOf a = t.areaOf a) ∧
      ∀ a, e ≤ a → t'.areaOf a = (t.areaOf a).map fun x => (max x.1 e, x.2) := by
  unfold assign
  rw [hit.range?_eq, bind_some]
  split
  · next heq =>
    obtain ⟨rfl, rfl⟩ : it = b ∧ it' = e := by simpa using heq
    obtain ⟨t', hset, hwf', harea⟩ := hwf.setAt_spec hit info
    refine ⟨t', by rw [hset]; rfl, hwf', ?_, fun a ha => ?_, fun a ha => ?_⟩
    · refine hwf'.isArea_of_areaOf hbe (fun a h1 h2 => by rw [harea, if_pos ⟨h1, h2⟩]) ?_
      rw [harea, if_neg (by omega)]
      intro hcon
      have := edge_of_isArea hwf hit hcon
      omega
    · rw [harea, if_neg (by omega)]
    rw [harea, if_neg (by omega)]
    exact (hwf.map_max_areaOf (fun _ _ _ => hit.end_le) ha).symm
  obtain ⟨t', hmap, hwf', harea⟩ := hwf.map_spec hbe info false
  rw [mergedBegin_false] at hmap
  refine ⟨t', hmap, hwf', (hwf.map_isArea hbe hmap).2, fun a ha => ?_, fun a ha => ?_⟩
  · rw [harea, mappedArea, if_pos ha]
  rw [harea, mappedArea, if_neg (by omega), if_neg (by omega)]
  cases t.areaOf a with
  | none => rfl
  | some kd =>
    obtain ⟨k, d⟩ := kd
    by_cases hk : e < k
    · simp [hk, max_eq_left hk.le]
    · simp [hk, max_eq_right (not_lt.mp hk)]

/-! ## Notifications -/

/-- All that the record type does when it is told of a truncation is to give the right remainder a
record of its own, which `cut` computes from the distance to the begin of the area. A type that does
not want to be told never does. -/
structure CutsRight (cut : A → Nat → Option A) : Prop where
  truncate_eq : truncate (A := A) = none ∧ (∀ d n, cut d n = none) ∨
    truncate (A := A) = some fun info self _ right =>
      match if right.isValid then cut info (u64Sub right.beginAddress self.beginAddress)
        else none with
      | some info' => (right, info')
      | none => (default, default)

/-- The record of what is left of an area `n` bytes above its begin, if it is a new one. -/
def remainder (cut : A → Nat → Option A) (d : A) (n : Nat) : Option A :=
  if isAllocated d then cut d n else none

variable {cut : A → Nat → Option A}

theorem notifyTruncation_eq (hcut : CutsRight cut) (hk : t.IsArea k k' d) (left right : AddressRange) :
    notifyTruncation t k left right =
      match if right.isValid then remainder cut d (u64Sub right.beginAddress k) else none with
      | some d' => (t.map right d' true false).map Prod.fst
      | none => some t := by
  simp only [notifyTruncation, hk.get?_eq, hk.range?_eq, bind_eq_bind, bind_some, remainder]
  rcases hcut.truncate_eq with ⟨hnone, hcut⟩ | hsome
  · simp [hnone, hcut]
  simp only [hsome]
  cases hd : isAllocated d with
  | false => simp
  | true =>
    cases hr : right.isValid with
    | false => simp [show (default : AddressRange).isValid = false from rfl]
    | true =>
      cases cut d (u64Sub right.beginAddress k) with
      | none => simp [show (default : AddressRange).isValid = false from rfl]
      | some d' => simp [hr]

theorem notifyTruncation_default (hcut : CutsRight cut) (hk : t.IsArea k k' d) (left : AddressRange) :
    notifyTruncation t k left default = some t := by
  rw [notifyTruncation_eq hcut hk]
  rfl

/-- The areas in the middle are told, and do nothing. -/
theorem notifyMiddle_eq (hcut : CutsRight cut) (hwf : t.WF) (hend : t.IsArea k k' d) (fuel : Nat) {c : Nat} (hc : c ≤ k)
    (hedge : ∀ j j' d, t.IsArea j j' d → j < c → j' ≤ c) (hfuel : t.areasAbove c < fuel) :
    notifyMiddle t fuel (t.nextArea c) k = some t := by
  induction fuel generalizing c with
  | zero => omega
  | succ fuel ih =>
    have hfirst := hwf.firstFrom_nextArea c
    cases hnext : t.nextArea c with
    | none =>
      rw [hnext] at hfirst
      have := hfirst k hc
      rw [hend.areaOf_begin] at this
      cases this
    | some j =>
      rw [hnext] at hfirst
      obtain ⟨j', d', hj, hcj', hgap⟩ := hfirst
      have hcj : c ≤ j := not_lt.mp fun hlt => absurd (hedge j j' d' hj hlt) (not_le.mpr hcj')
      rw [notifyMiddle]
      split
      · rfl
      · next hne =>
        have hjk : j < k := by
          by_contra hle
          have hkj : k < j := lt_of_le_of_ne (not_lt.mp hle) (fun h => hne h.symm)
          have := hgap k hc hkj
          rw [hend.areaOf_begin] at this
          cases this
        have hj'k := hj.le_begin hend hjk
        rw [notifyTruncation_default hcut hj, bind_some, hj.iterNext_eq hwf]
        have hdrop := hwf.areasAbove_lt hwf hj hcj le_rfl fun _ _ => rfl
        exact ih hj'k (fun i i' _ hi hlt => hj.end_le hi hlt) (by omega)

omit [AllocationInfo A] [Inhabited A] [DecidableEq A] in
theorem areas_length_le (hwf : t.WF) : t.areas.length ≤ t.mAreas.entries.length := by
  rw [hwf.areas_eq]
  induction t.mAreas.entries with
  | nil => simp [areaList]
  | cons x l ih =>
    obtain ⟨k, n⟩ := x
    cases l with
    | nil => simp [areaList]
    | cons y l =>
      obtain ⟨k', n'⟩ := y
      rw [areaList]
      split
      · simpa using ih
      · exact le_trans ih (by simp)

/-- All that the notifications change is the part of the last area above the range. -/
theorem notifyAll_eq (hcut : CutsRight cut) (hwf : t.WF) {d0 : A} (hit : t.IsArea it it' d0)
    (hend : t.IsArea k k' d) (hitk : it ≤ k) (hke : k < e) :
    notifyAll t it k ⟨b, e⟩ = match if e < k' then remainder cut d (e - k) else none with
      | some d' => (t.map ⟨e, k'⟩ d' true false).map Prod.fst
      | none => some t := by
  have hlast : ∀ left, notifyTruncation t k left ⟨e, k'⟩ = match if e < k' then remainder cut d (e - k) else none with
      | some d' => (t.map ⟨e, k'⟩ d' true false).map Prod.fst
      | none => some t := by
    intro left
    rw [notifyTruncation_eq hcut hend, u64Sub_of_le hke.le]
    simp only [AddressRange.isValid_iff]
  unfold notifyAll
  rcases hcut.truncate_eq with ⟨hnone, hcut⟩ | hsome
  · simp [hnone, remainder, hcut]
  rw [hsome]
  simp only [isNone_some, Bool.false_eq_true, if_false]
  split
  · next heq =>
    subst heq
    obtain ⟨rfl, rfl⟩ := hit.unique hend
    simp only [hit.range?_eq, bind_eq_bind, bind_some]
    exact hlast _
  · next hne =>
    have hlt : it < k := lt_of_le_of_ne hitk hne
    have hit'k := hit.le_begin hend hlt
    have hmid := notifyMiddle_eq hcut hwf hend (t.mAreas.entries.length + 1) hit'k
      (fun i i' _ hi hlt => hit.end_le hi hlt)
      (lt_of_le_of_lt (le_trans (t.areasAbove_le it') (areas_length_le hwf)) (Nat.lt_succ_self _))
    simp only [notifyTruncation_default hcut hit, bind_eq_bind, bind_some,
      hit.iterNext_eq hwf, hmid, hend.endAddress?_eq]
    exact hlast _

end AllocableResource

end Rpcsx.Kernel
