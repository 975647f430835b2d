import Mathlib.Data.List.Perm.Subperm
import Rpcsx.Rx.MemoryTable.Areas

/-!
# Walking over the table

The loops of the memory managers start at `lowerBound(address)` and go on with `++it`. Both take the
iterator to the same kind of place: the first area that ends above a given address (`nextArea`).
In a table without gaps the area before and the area after are neighbours.
-/

namespace Rpcsx.Rx

open Lib OrdMap List Option

namespace MemoryTableWithPayload

variable {T : Type} {t : MemoryTableWithPayload T}

/-! ## The first area above an address -/

/-- The area that holds `a`, otherwise the first one after it. -/
def nextArea (t : MemoryTableWithPayload T) (a : Nat) : Iter :=
  match t.areaOf a with
  | some (k, _) => some k
  | none => t.mAreas.next a

/-- `it` is the first area of `t` that ends above `a`. -/
def FirstFrom (t : MemoryTableWithPayload T) (a : Nat) : Iter → Prop
  | none => ∀ x, a ≤ x → t.areaOf x = none
  | some k => ∃ k' d, t.IsArea k k' d ∧ a < k' ∧ ∀ x, a ≤ x → x < k → t.areaOf x = none

variable {a : Nat}

theorem next_of_cut {m : OrdMap Nat (Payload T)} {L R : List (Nat × Payload T)} (h : m.entries = L ++ R)
    (hL : ∀ x ∈ L, x.1 ≤ a) (hR : KeysGt R a) : m.next a = R.head?.map Prod.fst := by
  rw [OrdMap.next, h, find?_append_of_not (fun x hx => by simpa using hL x hx)]
  cases R with
  | nil => rfl
  | cons x R' =>
    have hx : a < x.1 := hR x mem_cons_self
    simp [hx]

/-- Inside a gap, and after the last area, nothing is in force up to the next marker, which opens
an area. -/
theorem WF.firstFrom_next (hwf : t.WF) (ha : t.areaOf a = none) : t.FirstFrom a (t.mAreas.next a) := by
  obtain ⟨L, R, hent, hL, hR, -, hbR⟩ := hwf.cut a
  have hforce : inForce openArea none L = none := by
    rw [areaOf, readAt_of_cut hent hL hR] at ha
    exact ha
  rw [ha] at hbR
  rw [next_of_cut hent hL hR]
  cases R with
  | nil =>
    intro x hx
    rw [areaOf, readAt_of_cut hent (fun y hy => le_trans (hL y hy) hx) (by simp [KeysGt])]
    exact hforce
  | cons y R' =>
    obtain ⟨k, n⟩ := y
    have hopen : n.isOpen := by simpa using hbR.1
    obtain ⟨d, rfl⟩ : ∃ d, n = .o d := by cases n <;> simp_all [Payload.isOpen]
    obtain ⟨k', harea⟩ := hwf.exists_isArea (find?_of_mem hent) rfl
    have hak : a < k := hR (k, .o d) mem_cons_self
    refine ⟨k', d, harea, lt_trans hak harea.lt, fun x hax hxk => ?_⟩
    rw [areaOf, readAt_of_cut hent (fun z hz => le_trans (hL z hz) hax)]
    · exact hforce
    intro z hz
    rcases mem_cons.mp hz with rfl | hz
    · exact hxk
    · exact lt_trans hxk (keysGt_of_mem hent z hz)

theorem WF.firstFrom_nextArea (hwf : t.WF) (a : Nat) : t.FirstFrom a (t.nextArea a) := by
  unfold nextArea
  cases ha : t.areaOf a with
  | none => exact hwf.firstFrom_next ha
  | some kd =>
    obtain ⟨k', harea, hk, hk'⟩ := hwf.areaOf_eq_some.mp ha
    exact ⟨k', kd.2, harea, hk', fun x h1 h2 => absurd (lt_of_lt_of_le h2 hk) (not_lt.mpr h1)⟩

variable {it : Iter}

/-- An area that ends above `a` does not begin before the first one. -/
theorem FirstFrom.exists_le (h : t.FirstFrom a it) (harea : t.IsArea k k' d) (hak' : a < k') : ∃ j ≤ k, it = some j := by
  have hin := harea.areaOf_eq (a := max a k) (le_max_right a k) (max_lt hak' harea.lt)
  cases it with
  | none =>
    rw [h _ (le_max_left a k)] at hin
    cases hin
  | some j =>
    obtain ⟨j', e, hj, -, hgap⟩ := h
    refine ⟨j, ?_, rfl⟩
    by_contra hlt
    have hle := harea.le_begin hj (not_le.mp hlt)
    rw [hgap _ (le_max_left a k) (max_lt (by omega) (not_le.mp hlt))] at hin
    cases hin

/-- There is only one such place. -/
theorem FirstFrom.unique {it' : Iter} (h : t.FirstFrom a it) (h' : t.FirstFrom a it') : it = it' := by
  cases it with
  | none =>
    cases it' with
    | none => rfl
    | some k =>
      obtain ⟨k', d, harea, hlt, -⟩ := h'
      obtain ⟨_, -, hk⟩ := h.exists_le harea hlt
      cases hk
  | some k =>
    obtain ⟨k', d, harea, hlt, -⟩ := id h
    obtain ⟨j, hjk, rfl⟩ := h'.exists_le harea hlt
    obtain ⟨j', e, hj, hlt', -⟩ := h'
    obtain ⟨i, hij, hi⟩ := h.exists_le hj hlt'
    cases hi
    exact congrArg some (le_antisymm hij hjk)

theorem WF.nextArea_eq (hwf : t.WF) (h : t.FirstFrom a it) : t.nextArea a = it := (hwf.firstFrom_nextArea a).unique h

/-! ## `lowerBound` and `++it` -/

theorem WF.lowerBound_eq (hwf : t.WF) (a : Nat) : t.lowerBound a = t.nextArea a := by
  obtain ⟨L, R, hL, hR, h | ⟨n, h⟩⟩ := t.mAreas.exists_cut a
  · -- no marker at `a`: the first one above either ends the area of `a` or opens the next one
    have hgap := hwf.areaOf_of_gap h hL hR
    have hnext := next_of_cut h (fun x hx => (hL x hx).le) hR
    cases R with
    | nil =>
      rw [lowerBound, lowerBound_of_cut h hL (by simp), nextArea, hgap, hnext]
      rfl
    | cons x R' =>
      obtain ⟨k, n⟩ := x
      have hak : a < k := hR (k, n) mem_cons_self
      rw [lowerBound, lowerBound_of_mem h hL hak.le, nextArea, hnext]
      simp only [find?_of_mem h, if_neg hak.ne']
      cases hopen : n.isOpen with
      | true => simp_all
      | false =>
        simp only [hopen, Bool.false_eq_true, if_false] at hgap
        obtain ⟨k', d, hkd, hprev⟩ := hgap
        simp [hprev, hkd]
  -- a marker at `a`
  rw [lowerBound, lowerBound_of_mem h hL le_rfl, nextArea, areaOf_of_mem h]
  simp only [find?_of_mem h, if_true, next_of_mem h]
  cases n <;> simp [Payload.isClose, Payload.get?, ← next_of_mem h]

variable {k k' : Nat} {d : T}

/-- `++it` goes to the first area that ends above the end of this one. -/
theorem IsArea.iterNext_eq (hwf : t.WF) (harea : t.IsArea k k' d) : t.iterNext k = t.nextArea k' := by
  obtain ⟨L, n, n', R, hent, hn⟩ := harea
  have hent' : t.mAreas.entries = (L ++ [(k, n)]) ++ (k', n') :: R := by simp [hent]
  have hb : Brackets false ((L ++ [(k, n)]) ++ (k', n') :: R) false := by rw [← hent']; exact hwf
  obtain ⟨s, h1, hclose, -⟩ := hb.exists_of_append
  obtain rfl : s := by
    have h2 := h1.isSome_inForce (c := none) rfl
    rw [inForce_append_cons, inForce_nil, openArea, hn] at h2
    exact h2.symm
  rw [iterNext, nextArea, next_of_mem hent, areaOf_of_mem hent', next_of_mem hent']
  simp only [head?_cons, map_some, find?_of_mem hent', next_of_mem hent']
  cases n' with
  | o d' => cases hclose
  | x => rfl
  | xo d' => rfl

/-! ## Tables without gaps -/

/-- The mapped addresses are an interval. -/
def Gapless (t : MemoryTableWithPayload T) : Prop :=
  ∀ x y z, x ≤ y → y ≤ z → (t.areaOf x).isSome = true → (t.areaOf z).isSome = true →
    (t.areaOf y).isSome = true

/-- The area before an area, when it touches it, is the one that `--it` goes to. -/
theorem IsArea.iterPrev_eq {k0 : Nat} {d0 : T} (harea : t.IsArea k k' d) (hbefore : t.areaBefore k = some (k0, d0)) :
    t.iterPrev (some k) = some k0 ∧ t.begin ≠ some k ∧ t.IsArea k0 k d0 := by
  obtain ⟨L, n, n', R, hent, -⟩ := harea
  have hR : ∀ x ∈ (k, n) :: (k', n') :: R, k ≤ x.1 := by
    intro x hx
    rcases mem_cons.mp hx with rfl | hx
    · exact le_refl _
    · exact (keysGt_of_mem hent x hx).le
  rw [areaBefore_of_cut hent (keysLt_of_mem hent) hR] at hbefore
  obtain ⟨L', n0, rfl, hn0⟩ := exists_last_of_inForce hbefore
  have hent' : t.mAreas.entries = L' ++ (k0, n0) :: (k, n) :: (k', n') :: R := by simp [hent]
  refine ⟨?_, ?_, L', n0, n, _, hent', hn0⟩
  · rw [iterPrev]
    simp only [prev_of_mem hent, getLast?_append, getLast?_singleton, some_or, map_some, find?_of_mem hent']
    cases n0 with
    | o d => rfl
    | x => cases hn0
    | xo d => rfl
  intro hbegin
  rw [begin, first, hent] at hbegin
  have hmem : ∃ y, (k, y) ∈ L' ++ [(k0, n0)] := by
    cases L' with
    | nil =>
      simp only [nil_append, cons_append, head?_cons, map_some, some.injEq] at hbegin
      exact ⟨n0, by simp [hbegin]⟩
    | cons x L' =>
      simp only [cons_append, head?_cons, map_some, some.injEq] at hbegin
      exact ⟨x.2, by simp [← hbegin]⟩
  obtain ⟨y, hy⟩ := hmem
  exact lt_irrefl k (keysLt_of_mem hent _ hy)

/-! ## Mapping whole areas

When the range that is mapped ends where an area ends, nothing is cut: the range becomes a block,
joined with the areas at its two sides that have the same payload, and the rest stays. -/

theorem WF.isArea_of_areaOf (hwf : t.WF) {q q' : Nat} {p : T} (hlt : q < q')
    (hin : ∀ a, q ≤ a → a < q' → t.areaOf a = some (q, p)) (hend : t.areaOf q' ≠ some (q, p)) : t.IsArea q q' p := by
  obtain ⟨k, hk, -, -⟩ := hwf.areaOf_eq_some.mp (hin q (le_refl q) hlt)
  have hge : q' ≤ k := by
    by_contra hkq
    obtain ⟨k1, hk1, -, hlt1⟩ := hwf.areaOf_eq_some.mp (hin k hk.lt.le (not_le.mp hkq))
    exact (hk.unique hk1).1.not_lt hlt1
  have hle : k ≤ q' := not_lt.mp fun hkq => hend (hk.areaOf_eq hlt.le hkq)
  rw [le_antisymm hge hle]
  exact hk

variable {t' : MemoryTableWithPayload T} {j j' : Nat}

theorem IsArea.of_areaOf_eq (hwf : t.WF) (hwf' : t'.WF) (h : t.IsArea k k' d)
    (heq : ∀ a, k ≤ a → a ≤ k' → t'.areaOf a = t.areaOf a) : t'.IsArea k k' d := by
  refine hwf'.isArea_of_areaOf h.lt (fun a h1 h2 => ?_) ?_
  · rw [heq a h1 h2.le, h.areaOf_eq h1 h2]
  rw [heq k' h.lt.le (le_refl k')]
  intro hk'
  obtain ⟨k1, hk1, -, hlt⟩ := hwf.areaOf_eq_some.mp hk'
  exact (h.unique hk1).1.not_lt hlt

/-- Areas do not overlap. -/
theorem IsArea.end_le {d' : T} (h : t.IsArea k k' d) (hj : t.IsArea j j' d') (hlt : j < k') : j' ≤ k' := by
  by_contra hcon
  have h1 := h.areaOf_eq (a := max k j) (le_max_left k j) (max_lt h.lt hlt)
  have h2 := hj.areaOf_eq (a := max k j) (le_max_right k j) (max_lt (lt_trans h.lt (not_le.mp hcon)) hj.lt)
  rw [h1] at h2
  cases h2
  exact hcon (h.unique hj).1.ge

/-! ## Loops that take areas out -/

/-- The next area above a boundary is the same in a table that agrees above it. -/
theorem FirstFrom.of_agree (hwf : t.WF) (hwf' : t'.WF) {c : Nat} (h : t.FirstFrom c it)
    (hedge : ∀ j j' d, t.IsArea j j' d → j < c → j' ≤ c) (hagree : ∀ a, c ≤ a → t'.areaOf a = t.areaOf a) :
    t'.FirstFrom c it := by
  cases it with
  | none => exact fun x hx => (hagree x hx).trans (h x hx)
  | some j =>
    obtain ⟨j', d, harea, hcj', hgap⟩ := h
    have hcj : c ≤ j := not_lt.mp fun hlt => absurd (hedge j j' d harea hlt) (not_le.mpr hcj')
    exact ⟨j', d, harea.of_areaOf_eq hwf hwf' fun a h1 _ => hagree a (le_trans hcj h1), hcj',
      fun x h1 h2 => (hagree x h1).trans (hgap x h1 h2)⟩

/-- When a whole area is taken out, the areas that are left were there before. -/
theorem IsArea.of_removed (hwf : t.WF) (hwf' : t'.WF) (harea : t.IsArea k k' d)
    (hnew : ∀ a, t'.areaOf a = if k ≤ a ∧ a < k' then none else t.areaOf a) {d' : T}
    (hj : t'.IsArea j j' d') : t.IsArea j j' d' := by
  have hout : ∀ a, j ≤ a → a < j' → ¬ (k ≤ a ∧ a < k') ∧ t.areaOf a = some (j, d') := by
    intro a h1 h2
    have hin := hj.areaOf_eq h1 h2
    rw [hnew] at hin
    split at hin
    · cases hin
    · next hnot => exact ⟨hnot, hin⟩
  refine hwf.isArea_of_areaOf hj.lt (fun a h1 h2 => (hout a h1 h2).2) fun hend => ?_
  have hend' := hnew j'
  split at hend'
  · next hin =>
    rw [harea.areaOf_eq hin.1 hin.2] at hend
    cases hend
    exact (hout k (le_refl k) hj.lt).1 ⟨le_refl k, harea.lt⟩
  rw [hend] at hend'
  obtain ⟨j1, hj1, -, hlt⟩ := hwf'.areaOf_eq_some.mp hend'
  exact (hj.unique hj1).1.not_lt hlt

theorem WF.areas_nodup (hwf : t.WF) : t.areas.Nodup := by
  refine List.Pairwise.imp_of_mem ?_ hwf.areas_pairwise
  rintro x y hx - hxy rfl
  have hvalid := AddressRange.isValid_iff.mp (hwf.areas_valid hx)
  omega

def areasAbove (t : MemoryTableWithPayload T) (c : Nat) : Nat :=
  (t.areas.filter fun x => decide (c ≤ x.1.beginAddress)).length

theorem areasAbove_le (t : MemoryTableWithPayload T) (c : Nat) : t.areasAbove c ≤ t.areas.length := length_filter_le _ _

/-- Each turn that passes an area leaves fewer of them. -/
theorem WF.areasAbove_lt (hwf : t.WF) (hwf' : t'.WF) {c q : Nat} (harea : t.IsArea k k' d) (hck : c ≤ k) (hq : k' ≤ q)
    (hagree : ∀ a, q ≤ a → t'.areaOf a = t.areaOf a) : t'.areasAbove q < t.areasAbove c := by
  have hlt := harea.lt
  have hsub : ((⟨k, k'⟩, d) :: t'.areas.filter fun x => decide (q ≤ x.1.beginAddress)) ⊆
      t.areas.filter fun x => decide (c ≤ x.1.beginAddress) := by
    intro x hx
    rcases mem_cons.mp hx with rfl | hx
    · exact mem_filter.mpr ⟨hwf.mem_areas.mpr harea, by simpa using hck⟩
    obtain ⟨hmem, hk'⟩ := mem_filter.mp hx
    have hk' : q ≤ x.1.beginAddress := by simpa using hk'
    refine mem_filter.mpr ⟨hwf.mem_areas.mpr ?_, by
      have : c ≤ x.1.beginAddress := by omega
      simpa using this⟩
    exact (hwf'.mem_areas.mp hmem).of_areaOf_eq hwf' hwf fun a h1 _ =>
      (hagree a (le_trans hk' h1)).symm
  have hnodup : ((⟨k, k'⟩, d) :: t'.areas.filter fun x => decide (q ≤ x.1.beginAddress)).Nodup := by
    refine nodup_cons.mpr ⟨fun hmem => ?_, hwf'.areas_nodup.filter _⟩
    have hk : q ≤ k := by simpa using (mem_filter.mp hmem).2
    omega
  exact (List.Nodup.subperm hnodup hsub).length_le

section Block

variable [DecidableEq T]

/-- Where the block ends: after the next area if that has the same payload. -/
def fusedEnd (t : MemoryTableWithPayload T) (e : Nat) (p : T) : Nat :=
  match t.areaOf e with
  | some (_, d) => if d = p then (t.endAddress? e).getD e else e
  | none => e

/-- The two ways in which a block can begin. -/
theorem WF.mergedBegin_cases (hwf : t.WF) (b : Nat) (p : T) :
    (t.mergedBegin b p true = b ∧ ∀ k, t.areaBefore b ≠ some (k, p)) ∨
    (t.areaBefore b = some (t.mergedBegin b p true, p) ∧ t.mergedBegin b p true < b ∧
      ∀ a, t.mergedBegin b p true ≤ a → a < b → t.areaOf a = some (t.mergedBegin b p true, p)) := by
  unfold mergedBegin
  cases hb : t.areaBefore b with
  | none => exact Or.inl ⟨rfl, fun k h => by cases h⟩
  | some kd =>
    obtain ⟨k, d⟩ := kd
    by_cases hd : d = p
    · subst hd
      right
      simp only [and_self, if_true, true_and]
      obtain ⟨a, rfl, ha⟩ := exists_of_areaBefore hb
      obtain ⟨k', harea, h1, h2⟩ := hwf.areaOf_eq_some.mp ha
      exact ⟨by omega, fun x hx hxa => harea.areaOf_eq hx (by omega)⟩
    left
    simp only [hd, and_false, if_false, true_and]
    intro k1 h
    cases h
    exact hd rfl

variable {e : Nat}

/-- The two ways in which it can end. -/
theorem WF.fusedEnd_cases (hwf : t.WF) (p : T) (hedge : ∀ k d, t.areaOf e = some (k, d) → k = e) :
    (t.fusedEnd e p = e ∧ t.areaOf e ≠ some (e, p)) ∨ t.IsArea e (t.fusedEnd e p) p := by
  unfold fusedEnd
  cases he : t.areaOf e with
  | none => exact Or.inl ⟨rfl, fun h => by cases h⟩
  | some kd =>
    obtain ⟨k, d⟩ := kd
    obtain rfl := hedge k d he
    obtain ⟨k', harea, -, -⟩ := hwf.areaOf_eq_some.mp he
    by_cases hd : d = p
    · subst hd
      right
      simpa only [if_true, harea.endAddress?_eq, getD_some] using harea
    left
    simp only [hd, if_false, true_and]
    intro h
    cases h
    exact hd rfl

theorem WF.mergedBegin_le (hwf : t.WF) (b : Nat) (p : T) : t.mergedBegin b p true ≤ b := by
  rcases hwf.mergedBegin_cases b p with ⟨h, -⟩ | ⟨-, h, -⟩
  · exact h.le
  · exact h.le

theorem WF.le_fusedEnd (hwf : t.WF) (p : T) (hedge : ∀ k d, t.areaOf e = some (k, d) → k = e) : e ≤ t.fusedEnd e p := by
  rcases hwf.fusedEnd_cases p hedge with ⟨h, -⟩ | h
  · exact h.ge
  · exact h.lt.le

/-- **`map` of whole areas**: the block, and the rest as it was. -/
theorem WF.map_block [Inhabited T] (hwf : t.WF) {b : Nat} (hbe : b < e) (p : T)
    (hedge : ∀ k d, t.areaOf e = some (k, d) → k = e) :
    ∃ t', t.map ⟨b, e⟩ p true false = some (t', t.mergedBegin b p true) ∧ t'.WF ∧
      t'.IsArea (t.mergedBegin b p true) (t.fusedEnd e p) p ∧
      ∀ a, a < t.mergedBegin b p true ∨ t.fusedEnd e p ≤ a → t'.areaOf a = t.areaOf a := by
  obtain ⟨t', hmap, hwf', harea⟩ := hwf.map_spec hbe p true
  have hq := hwf.mergedBegin_le b p
  have he := hwf.le_fusedEnd p hedge
  -- at and after the end of the block nothing changes
  have hright : ∀ a, t.fusedEnd e p ≤ a → t'.areaOf a = t.areaOf a := by
    intro a ha
    rw [harea, mappedArea, if_neg (by omega), if_neg (by omega)]
    cases hA : t.areaOf a with
    | none => rfl
    | some kd =>
      obtain ⟨k, d⟩ := kd
      dsimp only
      by_cases hek : e < k
      · rw [if_pos hek]
      -- the area of `a` reaches down to `e`, so it begins there
      obtain ⟨k', hk, hka, hak'⟩ := hwf.areaOf_eq_some.mp hA
      obtain rfl : k = e := hedge k d (hk.areaOf_eq (not_lt.mp hek) (by omega))
      rw [if_neg hek]
      rcases hwf.fusedEnd_cases p hedge with ⟨-, hne⟩ | hblock
      · rw [hk.areaOf_eq (le_refl k) (by omega)] at hne
        have hdp : d ≠ p := fun h => hne (by rw [h])
        rw [if_neg (fun h => hdp h.2)]
      have := (hk.unique hblock).1
      omega
  refine ⟨t', hmap, hwf', hwf'.isArea_of_areaOf (by omega) (fun a h1 h2 => ?_) ?_, fun a ha => ?_⟩
  · rw [harea, mappedArea]
    by_cases hab : a < b
    · rw [if_pos hab]
      rcases hwf.mergedBegin_cases b p with ⟨h, -⟩ | ⟨-, -, h⟩
      · omega
      · exact h a h1 hab
    rw [if_neg hab]
    by_cases hae : a < e
    · rw [if_pos hae]
    rw [if_neg hae]
    rcases hwf.fusedEnd_cases p hedge with ⟨h, -⟩ | hblock
    · omega
    rw [hblock.areaOf_eq (not_lt.mp hae) h2]
    simp
  · rw [hright _ (le_refl _)]
    intro h
    obtain ⟨k', hk, -, hlt⟩ := hwf.areaOf_eq_some.mp h
    -- an area of the old table that begins with the block and reaches past it would have to hold `b`
    rcases hwf.fusedEnd_cases p hedge with ⟨hend, hne⟩ | hblock
    · have hk' := hk.areaOf_eq (a := e) (by omega) (by omega)
      have hbe' := hedge _ _ hk'
      omega
    have h1 := hk.areaOf_eq (a := e) (by omega) (by omega)
    have hbe' := hedge _ _ h1
    omega
  rcases ha with ha | ha
  · rw [harea, mappedArea, if_pos (by omega)]
  · exact hright a ha

end Block

end MemoryTableWithPayload

end Rpcsx.Rx
