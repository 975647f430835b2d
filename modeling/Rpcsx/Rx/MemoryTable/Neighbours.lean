import Rpcsx.Rx.MemoryTable.Walk

/-!
# The areas next to an address

`--it` and `++it` step over gaps. The area they reach is the last one that begins below an address,
or the first one that ends above it.
-/

namespace Rpcsx.Rx

open Lib OrdMap List Option

namespace MemoryTableWithPayload

variable {T : Type} {t : MemoryTableWithPayload T}

def prevArea (t : MemoryTableWithPayload T) (b : Nat) : Option (AddressRange × T) :=
  (t.areas.filter fun x => decide (x.1.beginAddress < b)).getLast?

def firstAbove (t : MemoryTableWithPayload T) (a : Nat) : Option (AddressRange × T) :=
  t.areas.find? fun x => decide (a < x.1.endAddress)

variable {b : Nat}

section

variable (hwf : t.WF)

include hwf

theorem WF.areaOf_eq_none_of {x : Nat} (h : ∀ y ∈ t.areas, y.1.beginAddress ≤ x → y.1.endAddress ≤ x) :
    t.areaOf x = none := by
  cases ha : t.areaOf x with
  | none => rfl
  | some kd =>
    obtain ⟨k', harea, hk, hk'⟩ := hwf.areaOf_eq_some.mp ha
    exact absurd (h (⟨kd.1, k'⟩, kd.2) (hwf.mem_areas.mpr harea) hk) hk'.not_ge

theorem WF.prevArea_eq_none (h : t.prevArea b = none) {x : Nat} (hx : x < b) : t.areaOf x = none := by
  rw [prevArea, getLast?_eq_none_iff, filter_eq_nil_iff] at h
  exact hwf.areaOf_eq_none_of fun y hy hle => absurd (decide_eq_true (lt_of_le_of_lt hle hx)) (h y hy)

variable {d : T} {r : AddressRange}

theorem WF.prevArea_eq_some (h : t.prevArea b = some (r, d)) :
    t.IsArea r.beginAddress r.endAddress d ∧ r.beginAddress < b ∧
      ∀ x, r.endAddress ≤ x → x < b → t.areaOf x = none := by
  obtain ⟨L, hL⟩ := getLast?_eq_some_iff.mp h
  have hmem : (r, d) ∈ t.areas.filter fun x => decide (x.1.beginAddress < b) := by simp [hL]
  obtain ⟨hr, hrb⟩ := mem_filter.mp hmem
  have harea := hwf.mem_areas.mp hr
  refine ⟨harea, by simpa using hrb, fun x hx hxb => hwf.areaOf_eq_none_of fun y hy hle => ?_⟩
  -- an area above `r` that begins below `b` would come after it in the list
  have hin : y ∈ L ++ [(r, d)] := hL ▸ mem_filter.mpr ⟨hy, decide_eq_true (lt_of_le_of_lt hle hxb)⟩
  have hpair : (L ++ [(r, d)]).Pairwise (fun x y => x.1.endAddress ≤ y.1.beginAddress) :=
    hL ▸ hwf.areas_pairwise.filter _
  rcases mem_append.mp hin with hin | hin
  · have hbefore := (pairwise_append.mp hpair).2.2 _ hin _ mem_cons_self
    exact (hbefore.trans harea.lt.le).trans hx
  · rwa [mem_singleton.mp hin]

variable {a : Nat}

theorem WF.firstAbove_eq_none (h : t.firstAbove a = none) {x : Nat} (hx : a ≤ x) : t.areaOf x = none := by
  rw [firstAbove, find?_eq_none] at h
  exact hwf.areaOf_eq_none_of fun y hy _ => not_lt.mp fun hlt => h y hy (decide_eq_true (lt_of_le_of_lt hx hlt))

theorem WF.firstAbove_eq_some (h : t.firstAbove a = some (r, d)) :
    t.IsArea r.beginAddress r.endAddress d ∧ a < r.endAddress ∧
      ∀ x, a ≤ x → x < r.beginAddress → t.areaOf x = none := by
  obtain ⟨hra, L, R, hLR, hL⟩ := find?_eq_some_iff_append.mp h
  have harea : t.IsArea r.beginAddress r.endAddress d := hwf.mem_areas.mp (by simp [hLR])
  refine ⟨harea, by simpa using hra, fun x hx hxr => hwf.areaOf_eq_none_of fun y hy hle => ?_⟩
  have hpair := hwf.areas_pairwise
  rw [hLR] at hy hpair
  rcases mem_append.mp hy with hy | hy
  · have hnot := hL y hy
    simp only [Bool.not_eq_eq_eq_not, Bool.not_true, decide_eq_false_iff_not, not_lt] at hnot
    exact hnot.trans hx
  have hlt := harea.lt
  rcases mem_cons.mp hy with rfl | hy
  · exact absurd hle hxr.not_ge
  have hafter : r.endAddress ≤ _ := rel_of_pairwise_cons (pairwise_append.mp hpair).2.1 hy
  omega

variable {k k' : Nat}

/-- There is only one first area above an address. -/
theorem IsArea.firstAbove_eq (harea : t.IsArea k k' d) (ha : a < k')
    (hgap : ∀ x, a ≤ x → x < k → t.areaOf x = none) : t.firstAbove a = some (⟨k, k'⟩, d) := by
  have hfirst : t.FirstFrom a (some k) := ⟨k', d, harea, ha, hgap⟩
  cases h : t.firstAbove a with
  | none =>
    have hnone := hwf.firstAbove_eq_none h (le_max_left a k)
    rw [harea.areaOf_eq (le_max_right a k) (max_lt ha harea.lt)] at hnone
    cases hnone
  | some x =>
    obtain ⟨⟨j, j'⟩, d'⟩ := x
    obtain ⟨hj, hj', hgap'⟩ := hwf.firstAbove_eq_some h
    have heq : some k = some j := hfirst.unique ⟨j', d', hj, hj', hgap'⟩
    cases heq
    obtain ⟨rfl, rfl⟩ := harea.unique hj
    rfl

/-- There is only one last area below an address. -/
theorem IsArea.prevArea_eq (harea : t.IsArea k k' d) (hb : k < b)
    (hgap : ∀ x, k' ≤ x → x < b → t.areaOf x = none) : t.prevArea b = some (⟨k, k'⟩, d) := by
  cases h : t.prevArea b with
  | none =>
    exact absurd (hwf.prevArea_eq_none h hb) harea.areaOf_ne_none
  | some x =>
    obtain ⟨⟨j, j'⟩, d'⟩ := x
    obtain ⟨hj, hjb, hgap'⟩ := hwf.prevArea_eq_some h
    obtain rfl : k = j := by
      by_contra hne
      rcases lt_or_gt_of_ne hne with hlt | hlt
      · have hle := harea.le_begin hj hlt
        exact absurd (hgap j hle hjb) hj.areaOf_ne_none
      have hle := hj.le_begin harea hlt
      exact absurd (hgap' k hle hb) harea.areaOf_ne_none
    obtain ⟨rfl, rfl⟩ := harea.unique hj
    rfl

/-- Tables that agree above a boundary have the same first area there. -/
theorem firstAbove_congr {t' : MemoryTableWithPayload T} (hwf' : t'.WF) {e : Nat}
    (hedge : ∀ k k' d, t.IsArea k k' d → k < e → k' ≤ e)
    (hagree : ∀ a, e ≤ a → t'.areaOf a = t.areaOf a) : t'.firstAbove e = t.firstAbove e := by
  cases h : t.firstAbove e with
  | none =>
    cases h' : t'.firstAbove e with
    | none => rfl
    | some x =>
      obtain ⟨hx, hex, -⟩ := hwf'.firstAbove_eq_some h'
      have hnone := hwf.firstAbove_eq_none h (le_max_left e x.1.beginAddress)
      rw [← hagree _ (le_max_left _ _), hx.areaOf_eq (le_max_right _ _) (max_lt hex hx.lt)] at hnone
      cases hnone
  | some x =>
    obtain ⟨hx, hex, hgap⟩ := hwf.firstAbove_eq_some h
    have hle : e ≤ x.1.beginAddress := not_lt.mp fun hlt => absurd (hedge _ _ _ hx hlt) (not_le.mpr hex)
    have hx' : t'.IsArea x.1.beginAddress x.1.endAddress x.2 :=
      hx.of_areaOf_eq hwf hwf' fun a h1 _ => hagree a (le_trans hle h1)
    exact hx'.firstAbove_eq hwf' hex fun y h1 h2 => (hagree y h1).trans (hgap y h1 h2)

/-- `++it` goes to the first area that ends above the end of this one. -/
theorem IsArea.iterNext_eq_firstAbove (harea : t.IsArea k k' d) :
    t.iterNext k = (t.firstAbove k').map fun x => x.1.beginAddress := by
  rw [harea.iterNext_eq hwf]
  apply hwf.nextArea_eq
  cases h : t.firstAbove k' with
  | none => exact fun x hx => hwf.firstAbove_eq_none h hx
  | some rd =>
    obtain ⟨hr, hlt, hgap⟩ := hwf.firstAbove_eq_some h
    exact ⟨_, _, hr, hlt, hgap⟩

/-- `--it` goes to the last area that begins below this one; at the first area there is none. -/
theorem IsArea.iterPrev_eq_prevArea (harea : t.IsArea k k' d) :
    (if t.begin = some k then none else t.iterPrev (some k)) = (t.prevArea k).map fun x => x.1.beginAddress := by
  cases h : t.prevArea k with
  | none =>
    obtain ⟨L, n, n', R, hent, -⟩ := harea
    have hbegin : t.begin = some k := by
      rcases eq_nil_or_concat L with rfl | ⟨L', ⟨k0, n0⟩, rfl⟩
      · rw [begin, first, hent]; rfl
      -- the first marker would open an area below `k`
      exfalso
      rw [concat_eq_append] at hent
      obtain ⟨x, L1, hx⟩ : ∃ x L1, L' ++ [(k0, n0)] = x :: L1 := by
        cases L' with
        | nil => exact ⟨_, _, rfl⟩
        | cons x L' => exact ⟨_, _, rfl⟩
      rw [hx] at hent
      obtain ⟨j, m⟩ := x
      have hb : Brackets false ((j, m) :: (L1 ++ (k, n) :: (k', n') :: R)) false := by
        have := hwf
        rw [WF, hent] at this
        exact this
      have hm : m.isOpen = true := by simpa using hb.1
      obtain ⟨dm, rfl⟩ : ∃ dm, m = .o dm := by cases m <;> simp_all [Payload.isOpen]
      obtain ⟨j', hj⟩ := hwf.exists_isArea (find?_of_mem (L := []) hent) rfl
      have hjk : j < k := keysLt_of_mem hent (j, .o dm) (by simp)
      exact absurd (hwf.prevArea_eq_none h hjk) hj.areaOf_ne_none
    rw [if_pos hbegin]; rfl
  | some rd =>
    obtain ⟨⟨j, j'⟩, dj⟩ := rd
    obtain ⟨hj, hjk, hgap⟩ := hwf.prevArea_eq_some h
    dsimp only at hj hjk hgap
    have hj'k := hj.le_begin harea hjk
    rcases hj'k.eq_or_lt with rfl | hj'k
    · -- the two areas touch
      obtain ⟨i, rfl⟩ : ∃ i, j' = i + 1 := ⟨j' - 1, by have := hj.lt; omega⟩
      have hbefore : t.areaBefore (i + 1) = some (j, dj) := by
        rw [areaBefore_succ]
        exact hj.areaOf_eq (by omega) (by omega)
      obtain ⟨h1, h2, -⟩ := harea.iterPrev_eq hbefore
      rw [if_neg h2, h1]; rfl
    -- a closing marker and a gap between them
    obtain ⟨L, n, n', R, hent, hn⟩ := hj
    have hent' : t.mAreas.entries = (L ++ [(j, n)]) ++ (j', n') :: R := by simp [hent]
    obtain rfl : n' = .x := by
      have hnone := hgap j' (le_refl j') hj'k
      rw [areaOf_of_mem hent'] at hnone
      cases n' with
      | o d => cases hnone
      | x => rfl
      | xo d => cases hnone
    -- nothing opens in the gap, so the next marker is the one at `k`
    have hk : t.FirstFrom j' (some k) := ⟨k', d, harea, lt_trans hj'k harea.lt, hgap⟩
    have hiter : t.iterNext j = some k := by
      rw [IsArea.iterNext_eq hwf ⟨L, n, .x, R, hent, hn⟩]
      exact hwf.nextArea_eq hk
    rw [iterNext] at hiter
    simp only [next_of_mem hent, head?_cons, map_some, find?_of_mem hent', next_of_mem hent'] at hiter
    cases R with
    | nil => cases hiter
    | cons y R' =>
      obtain ⟨k1, n1⟩ := y
      obtain rfl : k1 = k := by simpa using hiter
      have hentk : t.mAreas.entries = (L ++ [(j, n), (j', .x)]) ++ (k1, n1) :: R' := by simp [hent]
      have hbegin : t.begin ≠ some k1 := by
        intro hbegin
        rw [begin, first, hent] at hbegin
        have hkeys := keysLt_of_mem hentk
        cases L with
        | nil =>
          simp only [nil_append, head?_cons, map_some, some.injEq] at hbegin
          omega
        | cons x L =>
          simp only [cons_append, head?_cons, map_some, some.injEq] at hbegin
          have := hkeys x (by simp)
          omega
      rw [if_neg hbegin, iterPrev]
      simp [prev_of_mem hentk, find?_of_mem hent', prev_of_mem hent']

end

end MemoryTableWithPayload

end Rpcsx.Rx
