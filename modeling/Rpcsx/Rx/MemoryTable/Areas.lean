import Rpcsx.Rx.MemoryTable.Map

/-!
# Areas: iteration, `lowerBound` and `unmap`

An area is an opening marker together with the marker that follows it. The iterators of the table
walk over exactly these pairs, and `unmap(iterator)` takes one of them out.
-/

namespace Rpcsx.Rx

open Lib OrdMap List Option

namespace MemoryTableWithPayload

variable {T : Type} {t : MemoryTableWithPayload T}

/-- `[k, k')` is an area of `t` with payload `d`. -/
def IsArea (t : MemoryTableWithPayload T) (k k' : Nat) (d : T) : Prop :=
  ∃ L n n' R, t.mAreas.entries = L ++ (k, n) :: (k', n') :: R ∧ n.get? = some d

variable {k k' : Nat} {d : T}

section

variable (h : t.IsArea k k' d)

include h

theorem IsArea.lt : k < k' := by
  obtain ⟨L, n, n', R, hent, -⟩ := h
  exact keysGt_of_mem hent _ mem_cons_self

theorem IsArea.endAddress?_eq : t.endAddress? k = some k' := by
  obtain ⟨L, n, n', R, hent, -⟩ := h
  rw [endAddress?, next_of_mem hent]; rfl

theorem IsArea.range?_eq : t.range? k = some ⟨k, k'⟩ := by rw [range?, h.endAddress?_eq]; rfl

theorem IsArea.get?_eq : t.get? k = some d := by
  obtain ⟨L, n, n', R, hent, hn⟩ := h
  rw [get?, find?_of_mem hent]; exact hn

theorem IsArea.areaOf_eq {a : Nat} (hk : k ≤ a) (hk' : a < k') : t.areaOf a = some (k, d) := by
  obtain ⟨L, n, n', R, hent, hn⟩ := h
  have hcut : t.mAreas.entries = (L ++ [(k, n)]) ++ (k', n') :: R := by simp [hent]
  rw [areaOf, readAt_of_cut hcut, inForce_append_cons, inForce_nil, openArea, hn]
  · rfl
  · intro x hx
    rcases mem_append.mp hx with hx | hx
    · exact le_trans (keysLt_of_mem hent x hx).le hk
    · rw [mem_singleton.mp hx]; exact hk
  intro x hx
  rcases mem_cons.mp hx with rfl | hx
  · exact hk'
  · exact lt_trans hk' (keysGt_of_mem hcut x hx)

theorem IsArea.areaOf_begin : t.areaOf k = some (k, d) := h.areaOf_eq le_rfl h.lt

theorem IsArea.areaOf_ne_none : t.areaOf k ≠ none := by
  rw [h.areaOf_begin]
  nofun

theorem IsArea.isSome_begin : (t.areaOf k).isSome := by
  rw [h.areaOf_begin]
  rfl

/-- Areas do not overlap. -/
theorem IsArea.le_begin {q q' : Nat} {p : T} (hq : t.IsArea q q' p) (hkq : k < q) : k' ≤ q := by
  by_contra hlt
  have heq := h.areaOf_eq hkq.le (not_le.mp hlt)
  rw [hq.areaOf_begin] at heq
  cases heq
  exact lt_irrefl _ hkq

end

/-- The areas are what `areaOf` reads. -/
theorem WF.areaOf_eq_some (hwf : t.WF) {a : Nat} :
    t.areaOf a = some (k, d) ↔ ∃ k', t.IsArea k k' d ∧ k ≤ a ∧ a < k' := by
  constructor
  · intro h
    obtain ⟨L, n, k', n', R, hent, hn, -, hk, hk'⟩ := hwf.area_bounds h
    exact ⟨k', ⟨L, n, n', R, hent, hn⟩, hk, hk'⟩
  rintro ⟨k', harea, hk, hk'⟩
  exact harea.areaOf_eq hk hk'

/-- The end of an area is determined by its begin. -/
theorem IsArea.unique {k1 k2 : Nat} {d1 d2 : T} (h1 : t.IsArea k k1 d1) (h2 : t.IsArea k k2 d2) :
    k1 = k2 ∧ d1 = d2 := by
  have he := h1.endAddress?_eq
  have hd := h1.get?_eq
  rw [h2.endAddress?_eq] at he
  rw [h2.get?_eq] at hd
  exact ⟨(some.inj he).symm, (some.inj hd).symm⟩

/-! ## A table is determined by its areas -/

/-- The marker at `k`, from the area in force before `k` and the one that holds it. -/
def markerAt (before here : Option (Nat × T)) (k : Nat) : Option (Payload T) :=
  match here with
  | some (k', d) =>
    if k' = k then some (if before.isSome then .xo d else .o d) else none
  | none => if before.isSome then some .x else none

theorem WF.find?_eq (hwf : t.WF) (k : Nat) : t.mAreas.find? k = markerAt (t.areaBefore k) (t.areaOf k) k := by
  obtain ⟨L, R, hL, hR, h | ⟨n, h⟩⟩ := t.mAreas.exists_cut k
  · -- no marker: the area before `k` goes on
    have hbefore : t.areaBefore k = inForce openArea none L := areaBefore_of_cut h hL fun x hx => (hR x hx).le
    have hhere : t.areaOf k = inForce openArea none L := readAt_of_cut h (fun x hx => (hL x hx).le) hR
    rw [find?_of_cut h hL hR, hbefore, hhere]
    cases hA : inForce openArea none L with
    | none => rfl
    | some kd =>
      obtain ⟨k', d⟩ := kd
      obtain ⟨L', n, rfl, -⟩ := exists_last_of_inForce hA
      have hk' : k' < k := hL (k', n) (by simp)
      simp [markerAt, hk'.ne]
  have hbefore : t.areaBefore k = inForce openArea none L := by
    refine areaBefore_of_cut h hL fun x hx => ?_
    rcases mem_cons.mp hx with rfl | hx
    · exact le_refl k
    · exact (hR x hx).le
  have hb : Brackets false (L ++ (k, n) :: R) false := by rw [← h]; exact hwf
  obtain ⟨s, h1, hn, -⟩ := hb.exists_of_append
  have hs : (inForce openArea none L).isSome = s := h1.isSome_inForce rfl
  rw [find?_of_mem h, hbefore, areaOf_of_mem h]
  cases n <;> simp_all [markerAt, Payload.get?, Payload.isOpen]

variable {t' : MemoryTableWithPayload T}

theorem areaBefore_eq_of_areaOf_eq (h : ∀ a, t.areaOf a = t'.areaOf a) (k : Nat) :
    t.areaBefore k = t'.areaBefore k := by
  cases k with
  | zero => rw [areaBefore_zero, areaBefore_zero]
  | succ a => rw [areaBefore_succ, areaBefore_succ, h]

/-- Two well-formed tables with the same areas are the same. -/
theorem WF.ext_areaOf (hwf : t.WF) (hwf' : t'.WF) (h : ∀ a, t.areaOf a = t'.areaOf a) : t = t' := by
  refine MemoryTableWithPayload.ext (congrArg entries (ext_find? fun k => ?_))
  rw [hwf.find?_eq, hwf'.find?_eq, h, areaBefore_eq_of_areaOf_eq h]

/-! ## Iteration -/

def areaList : List (Nat × Payload T) → List (AddressRange × T)
  | (k, n) :: (k', n') :: l =>
    match n.get? with
    | some d => (⟨k, k'⟩, d) :: areaList ((k', n') :: l)
    | none => areaList ((k', n') :: l)
  | _ => []

variable {r : AddressRange}

theorem mem_areaList {l : List (Nat × Payload T)} : (r, d) ∈ areaList l ↔ ∃ L n n' R,
      l = L ++ (r.beginAddress, n) :: (r.endAddress, n') :: R ∧ n.get? = some d := by
  induction l with
  | nil => simp [areaList]
  | cons x l ih =>
    obtain ⟨k, n⟩ := x
    cases l with
    | nil =>
      simp only [areaList, not_mem_nil, false_iff]
      rintro ⟨L, m, m', R, h, -⟩
      have := congrArg List.length h
      simp at this
      omega
    | cons y l =>
      obtain ⟨k', n'⟩ := y
      have hrest : (∃ L m m' R, (k, n) :: (k', n') :: l =
            L ++ (r.beginAddress, m) :: (r.endAddress, m') :: R ∧ m.get? = some d) ↔
          (n.get? = some d ∧ r = ⟨k, k'⟩) ∨ (r, d) ∈ areaList ((k', n') :: l) := by
        rw [ih]
        constructor
        · rintro ⟨L, m, m', R, h, hm⟩
          cases L with
          | nil =>
            obtain ⟨⟨rfl, rfl⟩, ⟨rfl, rfl⟩, rfl⟩ := h
            exact Or.inl ⟨hm, rfl⟩
          | cons z L =>
            simp only [cons_append, List.cons.injEq] at h
            exact Or.inr ⟨L, m, m', R, h.2, hm⟩
        rintro (⟨hn, rfl⟩ | ⟨L, m, m', R, h, hm⟩)
        · exact ⟨[], n, n', l, rfl, hn⟩
        · exact ⟨(k, n) :: L, m, m', R, by rw [h]; rfl, hm⟩
      rw [hrest]
      cases hn : n.get? with
      | none => simp [areaList, hn]
      | some d' =>
        simp only [areaList, hn, mem_cons, Prod.mk.injEq, some.injEq]
        exact or_congr_left ⟨fun h => ⟨h.2.symm, h.1⟩, fun h => ⟨h.2, h.1.symm⟩⟩

/-- What iteration lists from a position on: the areas of the markers from there. The position is
`end()` or an opening marker, as every position is that an iterator takes. -/
theorem areasFrom_eq {fuel : Nat} {s : Bool} {L R : List (Nat × Payload T)}
    (hent : t.mAreas.entries = L ++ R) (hb : Brackets s R false)
    (hhead : ∀ x, R.head? = some x → x.2.isClose = false) (hf : R.length ≤ fuel) :
    t.areasFrom fuel (R.head?.map Prod.fst) = areaList R := by
  induction fuel generalizing s L R with
  | zero =>
    rw [length_eq_zero_iff.mp (Nat.le_zero.mp hf)]; rfl
  | succ fuel ih =>
    match R, hb, hhead, hf, hent with
    | [], _, _, _, _ => rfl
    | [(k, n)], hb, hhead, _, _ =>
      -- an area is never the last marker
      have hopen : n.isClose = false := hhead (k, n) rfl
      have hlast : (!n.isClose) = false := hb.2
      rw [hopen] at hlast
      cases hlast
    | (k, n) :: (k', n') :: R', hb, hhead, hf, hent =>
      have hopen : n.isClose = false := hhead (k, n) rfl
      obtain ⟨d, hd⟩ : ∃ d, n.get? = some d := by rw [← isSome_iff_exists, get?_isSome, hopen]; rfl
      have harea : t.IsArea k k' d := ⟨L, n, n', R', hent, hd⟩
      have hent' : t.mAreas.entries = (L ++ [(k, n)]) ++ (k', n') :: R' := by simp [hent]
      have hb' : Brackets (!n.isClose) ((k', n') :: R') false := hb.2
      have hlen : R'.length + 1 ≤ fuel := by simpa using hf
      simp only [head?_cons, map_some, areasFrom, harea.range?_eq, harea.get?_eq,
        areaList, hd, iterNext, next_of_mem hent, find?_of_mem hent']
      congr 1
      cases n' with
      | o d' =>
        have hnot : true = !(!n.isClose) := hb'.1
        rw [hopen] at hnot
        cases hnot
      | xo d' => exact ih hent' hb' (by simp [Payload.isClose]) hlen
      | x =>
        have hb'' : Brackets false R' false := hb'.2
        have hent'' : t.mAreas.entries = (L ++ [(k, n), (k', .x)]) ++ R' := by simp [hent]
        have hskip : areaList ((k', Payload.x) :: R') = areaList R' := by
          cases R' <;> rfl
        rw [hskip, next_of_mem hent']
        refine ih hent'' hb'' ?_ (by omega)
        intro x hx
        cases R' with
        | nil => cases hx
        | cons y R'' =>
          cases hx
          have hy : x.2.isOpen := hb''.1
          cases hx2 : x.2 <;> simp_all [Payload.isOpen, Payload.isClose]

section

variable (hwf : t.WF)

include hwf

/-- Iteration lists the areas of the table. -/
theorem WF.areas_eq : t.areas = areaList t.mAreas.entries := by
  refine areasFrom_eq (s := false) (L := []) rfl hwf ?_ (le_refl _)
  intro x hx
  cases hent : t.mAreas.entries with
  | nil => rw [hent] at hx; cases hx
  | cons y R =>
    rw [hent] at hx
    cases hx
    have hb := hwf
    rw [WF, hent] at hb
    have hy : x.2.isOpen := hb.1
    cases hx2 : x.2 <;> simp_all [Payload.isOpen, Payload.isClose]

theorem WF.mem_areas : (r, d) ∈ t.areas ↔ t.IsArea r.beginAddress r.endAddress d := by
  rw [hwf.areas_eq, mem_areaList]; rfl

omit hwf in
/-- The areas of sorted markers are sorted and disjoint. -/
theorem areaList_pairwise {l : List (Nat × Payload T)} (hs : l.Pairwise (fun x y => x.1 < y.1)) :
    (areaList l).Pairwise (fun x y => x.1.endAddress ≤ y.1.beginAddress) := by
  induction l with
  | nil => exact List.Pairwise.nil
  | cons x l ih =>
    obtain ⟨k, n⟩ := x
    cases l with
    | nil => exact List.Pairwise.nil
    | cons y l =>
      obtain ⟨k', n'⟩ := y
      have ih' := ih (pairwise_cons.mp hs).2
      cases hn : n.get? with
      | none => simpa only [areaList, hn] using ih'
      | some d =>
        simp only [areaList, hn]
        refine pairwise_cons.mpr ⟨fun z hz => ?_, ih'⟩
        obtain ⟨L, m, m', R, hcut, -⟩ := mem_areaList.mp hz
        have hmem : (z.1.beginAddress, m) ∈ (k', n') :: l := by rw [hcut]; simp
        have hs' := (pairwise_cons.mp (pairwise_cons.mp hs).2).1
        rcases mem_cons.mp hmem with heq | hmem
        · exact (Prod.mk.inj heq).1.ge
        · exact (hs' _ hmem).le

theorem WF.areas_pairwise : t.areas.Pairwise (fun x y => x.1.endAddress ≤ y.1.beginAddress) := by
  rw [hwf.areas_eq]; exact areaList_pairwise t.mAreas.sorted

theorem WF.areas_valid {x : AddressRange × T} (hx : x ∈ t.areas) : x.1.isValid := by
  have harea := hwf.mem_areas.mp hx
  simpa using harea.lt

/-- An address is in a listed area iff the table holds it, and then with that payload. -/
theorem WF.mem_areas_iff_valueAt (a : Nat) (d : T) : (∃ r, (r, d) ∈ t.areas ∧ a ∈ r) ↔ t.valueAt a = some d := by
  rw [valueAt, map_eq_some_iff]
  constructor
  · rintro ⟨r, hr, ha⟩
    rw [AddressRange.mem_def] at ha
    exact ⟨(r.beginAddress, d), (hwf.mem_areas.mp hr).areaOf_eq ha.1 ha.2, rfl⟩
  rintro ⟨⟨k, d'⟩, hk, rfl⟩
  obtain ⟨k', harea, h1, h2⟩ := hwf.areaOf_eq_some.mp hk
  exact ⟨⟨k, k'⟩, hwf.mem_areas.mpr harea, AddressRange.mem_def.mpr ⟨h1, h2⟩⟩

/-! ## Assigning a payload -/

/-- A marker that is not a closing one opens an area. -/
theorem WF.exists_isArea {n : Payload T} (hfind : t.mAreas.find? k = some n) (hn : n.get? = some d) :
    ∃ k', t.IsArea k k' d := by
  obtain ⟨L, R, hent⟩ := append_of_mem (mem_entries_iff.mpr hfind)
  have hb : Brackets false (L ++ (k, n) :: R) false := by rw [← hent]; exact hwf
  obtain ⟨s, -, -, hR⟩ := hb.exists_of_append
  have hopen : n.isClose = false := by
    have := get?_isSome n
    rw [hn] at this
    simpa using this.symm
  cases R with
  | nil =>
    have hlast : (!n.isClose) = false := hR
    rw [hopen] at hlast
    cases hlast
  | cons x R => exact ⟨x.1, L, n, x.2, R, hent, hn⟩

/-- `it.get() = data` changes the payload of that area and nothing else. -/
theorem WF.setAt_spec (harea : t.IsArea k k' d) (d' : T) : ∃ t', t.setAt k d' = some t' ∧ t'.WF ∧
      ∀ a, t'.areaOf a = if k ≤ a ∧ a < k' then some (k, d') else t.areaOf a := by
  have hlt := harea.lt
  obtain ⟨L, n, m, R, hent, hd⟩ := harea
  obtain ⟨n', hset, hget, hopen, hclose⟩ : ∃ n', n.set d' = some n' ∧ n'.get? = some d' ∧
      n'.isOpen = n.isOpen ∧ n'.isClose = n.isClose := by
    cases n with
    | o d => exact ⟨.o d', rfl, rfl, rfl, rfl⟩
    | x => cases hd
    | xo d => exact ⟨.xo d', rfl, rfl, rfl, rfl⟩
  have hent' : (t.mAreas.insert k n').entries = L ++ (k, n') :: (k', m) :: R := entries_insert_of_mem hent
  have hbr : Brackets false (L ++ (k, n) :: (k', m) :: R) false := by rw [← hent]; exact hwf
  obtain ⟨s, hL, hn, hrest⟩ := hbr.exists_of_append
  have hent1 : t.mAreas.entries = (L ++ [(k, n)]) ++ (k', m) :: R := by simp [hent]
  let c : Splice t.mAreas (t.mAreas.insert k n') k k' :=
    ⟨L, [(k, n), (k', m)], R, [(k, n')], [(k', m)], hent, by simp [hent'], hlt,
      keysLt_of_mem hent, by simp [hlt.le], keysGt_of_mem hent1, by simp, by simp⟩
  refine ⟨⟨t.mAreas.insert k n'⟩, by simp [setAt, find?_of_mem hent, hset], ?_, fun a => ?_⟩
  · show Brackets false (t.mAreas.insert k n').entries false
    rw [hent']
    exact hL.append ⟨hopen.trans hn, by rw [hclose]; exact hrest⟩
  unfold areaOf
  by_cases hk : k ≤ a
  · by_cases hk' : a < k'
    · rw [if_pos ⟨hk, hk'⟩, c.readAt_inside hk hk', inForce_append_cons, inForce_nil, openArea, hget]
      rfl
    rw [if_neg (fun h => hk' h.2)]
    rcases c.readAt_right openArea none (not_lt.mp hk') with ⟨hold, hnew⟩ | ⟨x, -, hold, hnew⟩
    · rw [hold, hnew, inForce_append _ (c.L ++ c.B), inForce_append _ c.L c.mid]; rfl
    · rw [hold, hnew]
  rw [if_neg (fun h => hk h.1), c.readAt_left (not_le.mp hk)]

theorem WF.of_setAt (h : t.setAt k d = some t') : t'.WF := by
  simp only [setAt, bind_eq_some_iff, map_eq_some_iff] at h
  obtain ⟨n, hfind, n', hset, rfl⟩ := h
  obtain ⟨d0, hget⟩ : ∃ d0, n.get? = some d0 := by
    cases n with
    | o d0 => exact ⟨d0, rfl⟩
    | x => cases hset
    | xo d0 => exact ⟨d0, rfl⟩
  obtain ⟨k', harea⟩ := hwf.exists_isArea hfind hget
  obtain ⟨t', hstep, hwf', -⟩ := hwf.setAt_spec harea d
  have heq : t.setAt k d = some ⟨t.mAreas.insert k n'⟩ := by simp [setAt, hfind, hset]
  rw [hstep] at heq
  cases heq
  exact hwf'

/-! ## `unmap` -/

/-- The markers `unmap(iterator)` leaves: the area's own opening is gone, a shared marker keeps
its other half. -/
theorem WF.exists_unmapAt_splice (harea : t.IsArea k k' d) :
    ∃ t', ∃ c : Splice t.mAreas t'.mAreas k k', t.unmapAt k = some (t', t.iterNext k) ∧ t'.WF ∧
      inForce openArea none (c.L ++ c.B) = none ∧
      inForce openArea none (c.L ++ c.mid) = inForce openArea none c.E := by
  have hlt := harea.lt
  obtain ⟨L, n, n', R, hent, hd⟩ := harea
  have hkeysL := keysLt_of_mem hent
  have hent1 : t.mAreas.entries = (L ++ [(k, n)]) ++ (k', n') :: R := by simp [hent]
  have hkeysR := keysGt_of_mem hent1
  have hbr : Brackets false (L ++ (k, n) :: (k', n') :: R) false := by rw [← hent]; exact hwf
  obtain ⟨s, hL, hopen, hclose, hR⟩ := hbr.exists_of_append
  have hn : n.isClose = false := by
    have := get?_isSome n
    rw [hd] at this
    simpa using this.symm
  rw [hn] at hclose
  have hLsome := hL.isSome_inForce (c := none) rfl
  -- the map with the opening marker taken out
  obtain ⟨B, m, hm, hentm, hB, hBkey, hBarea⟩ : ∃ B m,
      (if n.isCloseOpen then t.mAreas.insert k .x else t.mAreas.erase k) = m ∧
      m.entries = (L ++ B) ++ (k', n') :: R ∧ Brackets s B false ∧ (∀ x ∈ B, x.1 = k) ∧
      inForce openArea none (L ++ B) = none := by
    cases n with
    | o d0 =>
      obtain rfl : s = false := by simpa [Payload.isOpen] using hopen
      refine ⟨[], _, rfl, ?_, rfl, by simp, ?_⟩
      · simp [Payload.isCloseOpen, entries_erase_of_mem hent]
      · rw [append_nil]; simpa using hLsome
    | x => cases hd
    | xo d0 =>
      obtain rfl : s := by simpa [Payload.isOpen] using hopen
      refine ⟨[(k, .x)], _, rfl, ?_, ⟨rfl, rfl⟩, by simp, ?_⟩
      · simp [Payload.isCloseOpen, entries_insert_of_mem hent]
      · rw [inForce_append_cons]; rfl
  -- and what becomes of the closing one
  obtain ⟨E, t', hstep, hent', hE, hEkey, hEarea⟩ : ∃ E t',
      t.unmapAt k = some (t', t.iterNext k) ∧ t'.mAreas.entries = (L ++ B) ++ (E ++ R) ∧
      Brackets false E (!n'.isClose) ∧ (∀ x ∈ E, x.1 = k') ∧
      inForce openArea none E = n'.get?.map fun d => (k', d) := by
    have hnext : t.mAreas.next k = some k' := by rw [next_of_mem hent]; rfl
    have hfind : t.mAreas.find? k = some n := find?_of_mem hent
    have hfind' : m.find? k' = some n' := find?_of_mem hentm
    cases n' with
    | o d' => cases hclose
    | x =>
      refine ⟨[], ⟨m.erase k'⟩, ?_, ?_, rfl, by simp, rfl⟩
      · have h1 : m.next k' = t.mAreas.next k' := by rw [next_of_mem hentm, next_of_mem hent1]
        simp only [unmapAt, iterNext, hnext, hfind, hm, hfind', h1, find?_of_mem hent1]
      exact (entries_erase_of_mem hentm).trans rfl
    | xo d' =>
      refine ⟨[(k', .o d')], ⟨m.insert k' (.o d')⟩, ?_, ?_, ⟨rfl, rfl⟩, by simp, rfl⟩
      · simp only [unmapAt, iterNext, hnext, hfind, hm, hfind', find?_of_mem hent1]
      · exact (entries_insert_of_mem hentm).trans rfl
  refine ⟨t', ⟨L, [(k, n), (k', n')], R, B, E, hent, hent', hlt, hkeysL, ?_, hkeysR, hBkey,
    hEkey⟩, hstep, ?_, hBarea, ?_⟩
  · simp [hlt.le]
  · rw [WF, hent']
    exact (hL.append hB).append (hE.append hR)
  rw [hEarea, inForce_append_cons]; rfl

/-- **`unmap(iterator)`** removes exactly the addresses of the area and returns the area after
it. -/
theorem WF.unmapAt_spec (harea : t.IsArea k k' d) : ∃ t', t.unmapAt k = some (t', t.iterNext k) ∧ t'.WF ∧
      ∀ a, t'.areaOf a = if k ≤ a ∧ a < k' then none else t.areaOf a := by
  obtain ⟨t', c, hstep, hwf', hB, hE⟩ := hwf.exists_unmapAt_splice harea
  refine ⟨t', hstep, hwf', fun a => ?_⟩
  by_cases hk : k ≤ a
  · by_cases hk' : a < k'
    · rw [if_pos ⟨hk, hk'⟩, areaOf, c.readAt_inside hk hk', hB]
    rw [if_neg (fun h => hk' h.2)]
    rcases c.readAt_right openArea none (not_lt.mp hk') with
      ⟨hold, hnew⟩ | ⟨x, -, hold, hnew⟩
    · rw [areaOf, areaOf, hold, hnew, inForce_append, hB, hE]
    · rw [areaOf, areaOf, hold, hnew]
  rw [if_neg (fun h => hk h.1), areaOf, areaOf, c.readAt_left (not_le.mp hk)]

/-- The area of `a` after `unmap(⟨b, e⟩)`. -/
def unmappedArea (t : MemoryTableWithPayload T) (b e : Nat) (a : Nat) : Option (Nat × T) :=
  if a < b then t.areaOf a
  else if a < e then none
  else (t.areaOf a).map fun x => (max x.1 e, x.2)

variable {b e : Nat}

/-- Without merging, the range becomes one area of its own. -/
theorem WF.map_isArea [Inhabited T] [DecidableEq T] {it : Nat} {p : T} (hbe : b < e)
    (h : t.map ⟨b, e⟩ p false false = some (t', it)) : it = b ∧ t'.IsArea b e p := by
  obtain ⟨t1, hmap, hwf1, harea⟩ := hwf.map_spec hbe p false
  obtain ⟨rfl, rfl⟩ : t1 = t' ∧ b = it := by
    rw [hmap, mergedBegin_false] at h
    exact Prod.mk.inj (some.inj h)
  refine ⟨rfl, ?_⟩
  have hin : ∀ a, b ≤ a → a < e → t1.areaOf a = some (b, p) := by
    intro a h1 h2
    rw [harea, mappedArea, if_neg (not_lt.mpr h1), if_pos h2, mergedBegin_false]
  obtain ⟨k', hk', -, -⟩ := hwf1.areaOf_eq_some.mp (hin b (le_refl b) hbe)
  have hle : e ≤ k' := by
    -- the last address of the range is still in the area
    obtain ⟨k'', hk'', -, hlt⟩ := hwf1.areaOf_eq_some.mp (hin (e - 1) (by omega) (by omega))
    have := (hk'.unique hk'').1
    omega
  have hge : k' ≤ e := by
    by_contra hcon
    have hin' := hk'.areaOf_eq hbe.le (not_le.mp hcon)
    rw [harea, mappedArea, if_neg (not_lt.mpr hbe.le), if_neg (lt_irrefl e)] at hin'
    cases hA : t.areaOf e with
    | none => rw [hA] at hin'; cases hin'
    | some kd =>
      rw [hA] at hin'
      simp only [Bool.false_eq_true, false_and, if_false] at hin'
      split at hin' <;> (simp only [some.injEq, Prod.mk.injEq] at hin'; omega)
  rw [← le_antisymm hge hle]
  exact hk'

theorem WF.of_map [Inhabited T] [DecidableEq T] {p : T} {merge : Bool} {it : Nat}
    (h : t.map r p merge false = some (t', it)) : t'.WF := by
  have hr : r.beginAddress < r.endAddress := by
    by_contra hr
    have hv : r.isValid = false := by rw [← Bool.not_eq_true, AddressRange.isValid_iff]; exact hr
    simp [map, hv] at h
  obtain ⟨t1, hmap, hwf1, -⟩ := hwf.map_spec hr p merge
  rw [hmap] at h
  cases h
  exact hwf1

/-- **`unmap(range)`** removes exactly the addresses of the range. -/
theorem WF.unmap_spec [Inhabited T] [DecidableEq T] (hbe : b < e) :
    ∃ t' it, t.unmap ⟨b, e⟩ = some (t', it) ∧ t'.WF ∧ ∀ a, t'.areaOf a = t.unmappedArea b e a := by
  obtain ⟨t1, hmap, hwf1, harea1⟩ := hwf.map_spec hbe default false
  rw [mergedBegin_false] at hmap
  obtain ⟨-, hisArea⟩ := hwf.map_isArea hbe hmap
  obtain ⟨t2, hunmap, hwf2, harea2⟩ := hwf1.unmapAt_spec hisArea
  refine ⟨t2, t1.iterNext b, by simp [unmap, hmap, hunmap], hwf2, fun a => ?_⟩
  rw [harea2, unmappedArea]
  by_cases hab : a < b
  · rw [if_neg (fun h => absurd h.1 (not_le.mpr hab)), if_pos hab, harea1, mappedArea, if_pos hab]
  by_cases hae : a < e
  · rw [if_pos ⟨not_lt.mp hab, hae⟩, if_neg hab, if_pos hae]
  rw [if_neg (fun h => hae h.2), if_neg hab, if_neg hae, harea1, mappedArea, if_neg hab, if_neg hae]
  cases t.areaOf a with
  | none => rfl
  | some kd =>
    obtain ⟨k, d⟩ := kd
    simp only [Bool.false_eq_true, false_and, if_false, map_some]
    by_cases hek : e < k
    · rw [if_pos hek, max_eq_left hek.le]
    · rw [if_neg hek, max_eq_right (not_lt.mp hek)]

/-! ## Ranges that cut nothing -/

/-- Mapping a range that holds nothing adds an area and leaves the others alone. -/
theorem WF.map_free [Inhabited T] [DecidableEq T] (hbe : b < e) (p : T)
    (hfree : ∀ a, b ≤ a → a < e → t.areaOf a = none) :
    ∃ t', t.map ⟨b, e⟩ p false false = some (t', b) ∧ t'.WF ∧
      ∀ a, t'.areaOf a = if b ≤ a ∧ a < e then some (b, p) else t.areaOf a := by
  obtain ⟨t', hmap, hwf', harea⟩ := hwf.map_spec hbe p false
  rw [mergedBegin_false] at hmap
  refine ⟨t', hmap, hwf', fun a => ?_⟩
  rw [harea, mappedArea, mergedBegin_false]
  refine AddressRange.ite_range id (fun _ => rfl) fun hae => ?_
  cases hA : t.areaOf a with
  | none => rfl
  | some kd =>
    obtain ⟨k, d⟩ := kd
    obtain ⟨k', hk, h1, h2⟩ := hwf.areaOf_eq_some.mp hA
    have hek : e ≤ k := by
      by_contra hlt
      have hlast := hk.areaOf_eq (a := max k (e - 1)) (le_max_left _ _) (by omega)
      rw [hfree (max k (e - 1)) (by omega) (by omega)] at hlast
      cases hlast
    simp only [id_eq, Bool.false_eq_true, false_and, if_false]
    by_cases heq : e < k
    · rw [if_pos heq]
    · rw [if_neg heq, le_antisymm hek (not_lt.mp heq)]

/-- Where no area reaches over `e`, those above begin above. -/
theorem WF.map_max_areaOf {a : Nat} (hedge : ∀ k k' d, t.IsArea k k' d → k < e → k' ≤ e) (ha : e ≤ a) :
    (t.areaOf a).map (fun x => (max x.1 e, x.2)) = t.areaOf a := by
  cases hA : t.areaOf a with
  | none => rfl
  | some x =>
    obtain ⟨k', hk, h1, h2⟩ := hwf.areaOf_eq_some.mp hA
    have hek : e ≤ x.1 := not_lt.mp fun hlt => by
      have := hedge _ _ _ hk hlt
      omega
    rw [map_some, max_eq_left hek]

/-- Unmapping a range that does not end inside an area leaves what is outside alone. -/
theorem WF.unmap_edge [Inhabited T] [DecidableEq T] (hbe : b < e) (hedge : ∀ k k' d, t.IsArea k k' d → k < e → k' ≤ e) :
    ∃ t' it, t.unmap ⟨b, e⟩ = some (t', it) ∧ t'.WF ∧
      ∀ a, t'.areaOf a = if b ≤ a ∧ a < e then none else t.areaOf a := by
  obtain ⟨t', it, hunmap, hwf', harea⟩ := hwf.unmap_spec hbe
  refine ⟨t', it, hunmap, hwf', fun a => ?_⟩
  rw [harea, unmappedArea]
  exact AddressRange.ite_range id (fun _ => rfl) (hwf.map_max_areaOf hedge)

end

end MemoryTableWithPayload

end Rpcsx.Rx
