import Rpcsx.Lib.Breakpoints
import Rpcsx.Rx.AreaTable.Basic

/-!
# The markers of `rx::MemoryAreaTable`

The invariant of the table is that its markers alternate `O, X, O, X, …`; it denotes the set of
addresses at which the last marker is an `O`. Both operations have a closed form: a range is
replaced by at most one marker at each end, decided by whether an area is open before its begin
(`s1`) and after its end (`s3`).
-/

namespace Rpcsx.Rx

open Lib OrdMap List

namespace MemoryAreaTable

/-! ## Alternation -/

/-- `Alternates s l s'`: the markers `l` alternate, from a position that is inside an area iff `s`
to one that is inside an area iff `s'`. -/
def Alternates : Bool → List (Nat × Kind) → Bool → Prop
  | s, [], s' => s = s'
  | s, (_, n) :: l, s' => n.opens = !s ∧ Alternates (!s) l s'

instance : ∀ s l s', Decidable (Alternates s l s')
  | s, [], s' => inferInstanceAs (Decidable (s = s'))
  | s, (_, n) :: l, s' =>
    have : Decidable (Alternates (!s) l s') := instDecidableAlternates (!s) l s'
    inferInstanceAs (Decidable (n.opens = (!s) ∧ Alternates (!s) l s'))

variable {s s' : Bool} {l : List (Nat × Kind)} {l' : List (Nat × Kind)} {s'' : Bool}

theorem Alternates.append (h : Alternates s l s') (h' : Alternates s' l' s'') : Alternates s (l ++ l') s'' := by
  induction l generalizing s with
  | nil => cases h; exact h'
  | cons x l ih => exact ⟨h.1, ih h.2⟩

theorem Alternates.exists_of_append (h : Alternates s (l ++ l') s'') :
    ∃ s', Alternates s l s' ∧ Alternates s' l' s'' := by
  induction l generalizing s with
  | nil => exact ⟨s, rfl, h⟩
  | cons x l ih =>
    obtain ⟨s', h1, h2⟩ := ih h.2
    exact ⟨s', ⟨h.1, h1⟩, h2⟩

def opensAt (x : Nat × Kind) : Bool := x.2.opens

theorem Alternates.inForce_eq (h : Alternates s l s') : inForce opensAt s l = s' := by
  induction l generalizing s with
  | nil => exact h
  | cons x l ih =>
    have hx : opensAt x = !s := h.1
    rw [inForce, hx]
    exact ih h.2

/-- The state of an alternating list is the kind of its last marker. -/
theorem Alternates.last {x : Nat × Kind} (h : Alternates s (l ++ [x]) s') : x.2.opens = s' := by
  have hread := h.inForce_eq
  rw [inForce_append_cons] at hread
  exact hread

theorem opens_eq_true {n : Kind} : n.opens = true ↔ n = .o := by cases n <;> decide

theorem opens_eq_false {n : Kind} : n.opens = false ↔ n = .x := by cases n <;> decide

/-- An area is open at the end of an alternating list that starts outside: the last marker is an
`O`. -/
theorem Alternates.exists_open (h : Alternates false l true) : ∃ l' k, l = l' ++ [(k, .o)] := by
  rcases eq_nil_or_concat l with rfl | ⟨l', ⟨k, n⟩, rfl⟩
  · cases h
  rw [concat_eq_append] at h
  obtain rfl : n = .o := opens_eq_true.mp h.last
  exact ⟨l', k, by simp⟩

section Operations

variable {H : Type} [InvalidationHandle H]

@[simp] theorem mAreas_invalidate (t : MemoryAreaTable H) (a : Nat) : (t.invalidate a).mAreas = t.mAreas := rfl

omit [InvalidationHandle H] in
@[simp] theorem mAreas_erase (t : MemoryAreaTable H) (k : Nat) : (t.erase k).mAreas = t.mAreas.erase k := rfl

def WF (t : MemoryAreaTable H) : Prop := Alternates false t.mAreas.entries false

def covers (t : MemoryAreaTable H) (a : Nat) : Bool := t.mAreas.readAt opensAt false a

/-! ## The loops -/

variable {t : MemoryAreaTable H} {P M R : List (Nat × Kind)} {y : Nat × Kind} {n : Kind}

/-- The loop of `map` removes the markers between `beginIt` and `endIt`. -/
theorem eatMiddle_eq {k : Nat} (hent : t.mAreas.entries = (P ++ [y]) ++ (M ++ (k, n) :: R)) :
    ∃ t', eatMiddle (some k) (M ++ (k, n) :: R) t = some t' ∧ t'.mAreas.entries = (P ++ [y]) ++ (k, n) :: R := by
  induction M generalizing t with
  | nil => exact ⟨t, by simp [eatMiddle], hent⟩
  | cons x M ih =>
    obtain ⟨k', n'⟩ := x
    have hmem : t.mAreas.entries = (P ++ [y] ++ (k', n') :: M) ++ (k, n) :: R := by simp [hent]
    have hlt : k' < k := keysLt_of_mem hmem (k', n') (by simp)
    obtain ⟨q, hq⟩ : ∃ q, t.prevOf (some k) = some q := by
      rw [prevOf, prev_of_mem hmem]
      cases hlast : ((P ++ [y]) ++ (k', n') :: M).getLast? with
      | none => simp at hlast
      | some z => exact ⟨z.1, rfl⟩
    have hent' : ((t.invalidate q).erase k').mAreas.entries = (P ++ [y]) ++ (M ++ (k, n) :: R) := by
      rw [mAreas_erase, mAreas_invalidate]
      exact entries_erase_of_mem (R := M ++ (k, n) :: R) (w := n') hent
    obtain ⟨t', hrec, hent''⟩ := ih hent'
    refine ⟨t', ?_, hent''⟩
    have hne : ¬ (some k = some k') := fun h => hlt.ne' (Option.some.inj h)
    rw [cons_append, eatMiddle, if_neg hne, hq]
    exact hrec

variable {e : Nat} {Q : List (Nat × Kind)} {L : List (Nat × Kind)}

/-- The loop of `unmap` removes the markers up to the end of the range, as long as there is a
marker before them. -/
theorem sweep_eq (hent : t.mAreas.entries = (P ++ [y]) ++ (Q ++ R)) (hQ : ∀ x ∈ Q, x.1 ≤ e)
    (hR : KeysGt R e) : ∃ t', sweep e (Q ++ R) t n = some (t', inForce Prod.snd n Q) ∧
      t'.mAreas.entries = (P ++ [y]) ++ R := by
  induction Q generalizing t n with
  | nil =>
    refine ⟨t, ?_, hent⟩
    cases R with
    | nil => rfl
    | cons x R =>
      have hx : e < x.1 := hR x mem_cons_self
      rw [nil_append, sweep, if_pos hx]; rfl
  | cons x Q ih =>
    obtain ⟨k, n'⟩ := x
    have hk : ¬ e < k := not_lt.mpr (hQ (k, n') mem_cons_self)
    have hprev : t.mAreas.prev k = some y.1 := by rw [prev_of_mem (L := P ++ [y]) (R := Q ++ R) (w := n') hent]; simp
    obtain ⟨t1, ht1, hent1⟩ : ∃ t1 : MemoryAreaTable H,
        (if n' = .o then (t.mAreas.prev k).map t.invalidate else some t) = some t1 ∧
        t1.mAreas = t.mAreas := by
      by_cases hn : n' = .o
      · exact ⟨t.invalidate y.1, by rw [if_pos hn, hprev]; rfl, rfl⟩
      · exact ⟨t, by rw [if_neg hn], rfl⟩
    have hent' : (t1.erase k).mAreas.entries = (P ++ [y]) ++ (Q ++ R) := by
      rw [mAreas_erase, hent1]
      exact entries_erase_of_mem (R := Q ++ R) (w := n') hent
    obtain ⟨t', hrec, hent''⟩ := @ih (t1.erase k) n' hent' (fun x hx => hQ x (by simp [hx]))
    refine ⟨t', ?_, hent''⟩
    rw [cons_append, sweep, if_neg hk, ht1]
    exact hrec

/-- With nothing before it an `O` makes the loop look before the first marker. -/
theorem sweep_first {k : Nat} (hent : t.mAreas.entries = (k, .o) :: R) (hk : k ≤ e) :
    sweep e ((k, .o) :: R) t n = none := by
  have hprev : t.mAreas.prev k = none := by rw [prev_of_mem (L := []) hent]; rfl
  rw [sweep, if_neg (not_lt.mpr hk), hprev]; rfl

/-! ## `map` -/

def beginMarker (s1 : Bool) (b : Nat) (n : Kind) : List (Nat × Kind) :=
  if s1 then [] else [(b, n)]

/-- After the first step `beginIt` is the `O` of the area that will hold the range. -/
theorem extendBegin_eq {nb : Option Kind} {b : Nat} {s1 s2 : Bool}
    (hent : t.mAreas.entries = L ++ (b, nb.getD .o) :: M) (hL : Alternates false L s1)
    (hb : Alternates s1 (slot b nb) s2) : ∃ t1 P beginIt M1, t.extendBegin b nb.isNone = some (t1, beginIt) ∧
      P ++ [(beginIt, .o)] = L ++ beginMarker s1 b .o ∧ (M1 = M ∨ ∃ n, M1 = (b, n) :: M) ∧
      t1.mAreas.entries = (P ++ [(beginIt, .o)]) ++ M1 := by
  cases nb with
  | none =>
    cases s1 with
    | false =>
      refine ⟨t, L, b, M, ?_, rfl, Or.inl rfl, by simpa using hent⟩
      rw [extendBegin, prev_of_mem hent]
      rcases eq_nil_or_concat L with rfl | ⟨L', ⟨k, n⟩, rfl⟩
      · rfl
      rw [concat_eq_append] at hL hent ⊢
      obtain rfl : n = .x := opens_eq_false.mp hL.last
      have hfind : t.mAreas.find? k = some .x := find?_of_mem (R := (b, Kind.o) :: M) (by simpa using hent)
      simp [hfind]
    | true =>
      obtain ⟨L', k, rfl⟩ := hL.exists_open
      have hfind : t.mAreas.find? k = some .o := find?_of_mem (R := (b, Kind.o) :: M) (by simpa using hent)
      refine ⟨(t.invalidate b).erase b, L', k, M, ?_, by simp [beginMarker], Or.inl rfl, ?_⟩
      · rw [extendBegin, prev_of_mem hent]
        simp [hfind]
      rw [mAreas_erase, mAreas_invalidate]
      exact entries_erase_of_mem hent
  | some n =>
    have hn : n.opens = !s1 := hb.1
    have hfind : t.mAreas.find? b = some n := find?_of_mem hent
    cases s1 with
    | false =>
      obtain rfl : n = .o := opens_eq_true.mp hn
      refine ⟨t, L, b, M, ?_, rfl, Or.inl rfl, by simpa using hent⟩
      simp [extendBegin, hfind]
    | true =>
      obtain rfl : n = .x := opens_eq_false.mp hn
      obtain ⟨L', k, rfl⟩ := hL.exists_open
      refine ⟨t, L', k, (b, .x) :: M, ?_, by simp [beginMarker], Or.inr ⟨_, rfl⟩, by simpa using hent⟩
      have hprev : t.mAreas.prev b = some k := by rw [prev_of_mem hent]; simp
      simp [extendBegin, hfind, hprev]

/-- The first marker after a position inside an area closes it. -/
theorem Alternates.exists_close (h : Alternates true R false) : ∃ k R', R = (k, .x) :: R' := by
  cases R with
  | nil => cases h
  | cons x R' =>
    obtain ⟨k, n⟩ := x
    obtain rfl : n = .x := opens_eq_false.mp h.1
    exact ⟨k, R', rfl⟩

variable {s : Bool}

/-- After the second step `endIt` is the `X` of the area that will hold the range. -/
theorem extendEnd_eq {ne : Option Kind} {s3 : Bool}
    (hent : t.mAreas.entries = (P ++ [y]) ++ (M ++ (e, ne.getD .x) :: R)) (he : Alternates s (slot e ne) s3)
    (hR : Alternates s3 R false) : ∃ t2 k M2 R', t.extendEnd e ne.isNone = some (t2, some k) ∧
      (k, .x) :: R' = beginMarker s3 e .x ++ R ∧ t2.mAreas.entries = (P ++ [y]) ++ (M2 ++ (k, .x) :: R') := by
  have hmem : t.mAreas.entries = ((P ++ [y]) ++ M) ++ (e, ne.getD .x) :: R := by simp [hent]
  cases ne with
  | none =>
    cases s3 with
    | false =>
      refine ⟨t, e, M, R, ?_, rfl, hent⟩
      rw [extendEnd, next_of_mem hmem]
      cases R with
      | nil => rfl
      | cons x R' =>
        obtain ⟨k, n⟩ := x
        obtain rfl : n = .o := opens_eq_true.mp hR.1
        have hmem' : t.mAreas.entries = ((P ++ [y]) ++ M ++ [(e, .x)]) ++ (k, .o) :: R' := by simp [hent]
        simp [find?_of_mem hmem']
    | true =>
      obtain ⟨k, R', rfl⟩ := hR.exists_close
      have hmem' : t.mAreas.entries = ((P ++ [y]) ++ M ++ [(e, .x)]) ++ (k, .x) :: R' := by simp [hent]
      obtain ⟨q, hq⟩ : ∃ q, t.mAreas.prev e = some q := by
        rw [prev_of_mem hmem]
        cases hlast : ((P ++ [y]) ++ M).getLast? with
        | none => simp at hlast
        | some z => exact ⟨z.1, rfl⟩
      refine ⟨(t.invalidate q).erase e, k, M, R', ?_, rfl, ?_⟩
      · rw [extendEnd, next_of_mem hmem]
        simp [find?_of_mem hmem', hq]
      rw [mAreas_erase, mAreas_invalidate, entries_erase_of_mem hmem]
      simp
  | some n =>
    have hfind : t.mAreas.find? e = some n := find?_of_mem hmem
    have hn : n.opens = s3 := Alternates.last (l := []) he
    cases s3 with
    | false =>
      obtain rfl : n = .x := opens_eq_false.mp hn
      exact ⟨t, e, M, R, by simp [extendEnd, hfind], rfl, hent⟩
    | true =>
      obtain rfl : n = .o := opens_eq_true.mp hn
      obtain ⟨k, R', rfl⟩ := hR.exists_close
      refine ⟨t, k, M ++ [(e, .o)], R', ?_, rfl, by simp [hent]⟩
      have hnext : t.mAreas.next e = some k := by rw [next_of_mem hmem]; rfl
      simp [extendEnd, hfind, hnext]

omit [InvalidationHandle H] in
/-- A table cut at a range, with the states of the pieces. -/
theorem WF.exists_range_cut (hwf : t.WF) (b e : Nat) : ∃ L nb M ne R s1 s2 s s3,
      t.mAreas.entries = L ++ (slot b nb ++ (M ++ (slot e ne ++ R))) ∧
      KeysLt L b ∧ KeysGt M b ∧ KeysLt M e ∧ KeysGt R e ∧
      Alternates false L s1 ∧ Alternates s1 (slot b nb) s2 ∧ Alternates s2 M s ∧
      Alternates s (slot e ne) s3 ∧ Alternates s3 R false := by
  obtain ⟨L, nb, M, ne, R, hent, hLb, hMb, hMe, hRe⟩ := Lib.exists_range_cut t.mAreas b e
  have hbr : Alternates false (L ++ (slot b nb ++ (M ++ (slot e ne ++ R)))) false := by rw [← hent]; exact hwf
  obtain ⟨s1, hL, hbr1⟩ := hbr.exists_of_append
  obtain ⟨s2, hb, hbr2⟩ := hbr1.exists_of_append
  obtain ⟨s, hM, hbr3⟩ := hbr2.exists_of_append
  obtain ⟨s3, he, hR⟩ := hbr3.exists_of_append
  exact ⟨L, nb, M, ne, R, s1, s2, s, s3, hent, hLb, hMb, hMe, hRe, hL, hb, hM, he, hR⟩

/-- The markers `map` leaves. -/
theorem map_eq {nb ne : Option Kind} {b : Nat} {s1 s2 s3 : Bool} (hbe : b < e)
    (hent : t.mAreas.entries = L ++ (slot b nb ++ (M ++ (slot e ne ++ R)))) (hLb : KeysLt L b) (hMb : KeysGt M b)
    (hMe : KeysLt M e) (hRe : KeysGt R e) (hL : Alternates false L s1) (hb : Alternates s1 (slot b nb) s2)
    (he : Alternates s (slot e ne) s3) (hR : Alternates s3 R false) : ∃ t', t.map ⟨b, e⟩ = some t' ∧
      t'.mAreas.entries = (L ++ beginMarker s1 b .o) ++ (beginMarker s3 e .x ++ R) := by
  obtain ⟨m1, m2, hm1, hm2, hentm⟩ := emplace_both .o .x hbe hent hLb hMb hMe hRe
  obtain ⟨t1, P, beginIt, M1, hbegin, hP, hM1, hent1⟩ := extendBegin_eq (t := { t with mAreas := m2 }) hentm hL hb
  obtain ⟨M1', rfl⟩ : ∃ M1', M1 = M1' ++ (e, ne.getD .x) :: R := by
    rcases hM1 with rfl | ⟨n, rfl⟩
    · exact ⟨M, rfl⟩
    · exact ⟨(b, n) :: M, rfl⟩
  obtain ⟨t2, k, M2, R', hend, hRk, hent2⟩ := extendEnd_eq hent1 he hR
  obtain ⟨t', heat, hent'⟩ := eatMiddle_eq hent2
  refine ⟨t', ?_, by rw [hent', hP, hRk]⟩
  have hafter : t2.mAreas.after beginIt = M2 ++ (k, .x) :: R' := after_of_mem (by rw [hent2, append_assoc]; rfl)
  simp only [map, hm1, hm2, hbegin, Option.bind_some, hend, hafter, heat]

/-! ## `unmap` -/

/-- The loop of `unmap` and the marker put back at the end: what is left is the part before and,
when an area is open after the range, an `O` at its end. -/
theorem sweepAndClose_eq (hent : t.mAreas.entries = (P ++ [y]) ++ (Q ++ R))
    (hP : KeysLt (P ++ [y]) e) (hQ : ∀ x ∈ Q, x.1 ≤ e) (hR : KeysGt R e) (hread : inForce opensAt false Q = s) :
    ∃ t', t.sweepAndClose e (Q ++ R) = some t' ∧ t'.mAreas.entries = (P ++ [y]) ++ (beginMarker (!s) e .o ++ R) := by
  obtain ⟨t1, hsweep, hent1⟩ := sweep_eq (n := .x) hent hQ hR
  have hlast : (inForce Prod.snd Kind.x Q).opens = s := by
    rw [← hread]
    rcases eq_nil_or_concat Q with rfl | ⟨Q', x, rfl⟩
    · rfl
    · rw [concat_eq_append, inForce_append_cons, inForce_append_cons]; rfl
  cases s with
  | false =>
    refine ⟨t1, ?_, hent1⟩
    rw [sweepAndClose, hsweep, opens_eq_false.mp hlast]; rfl
  | true =>
    refine ⟨t1.emplace e .o, ?_, ?_⟩
    · rw [sweepAndClose, hsweep, opens_eq_true.mp hlast]; rfl
    exact entries_emplace_of_cut hent1 hP hR

section UnmapCut

variable {t : MemoryAreaTable H} {L M R : List (Nat × Kind)} {nb ne : Option Kind}
  {b e : Nat} {s1 s2 s s3 : Bool}

/-- `unmap` when no marker lies in `[b, e)`: the range is inside one area or inside a gap. -/
theorem unmap_eq_of_nil (hbe : b < e) (hent : t.mAreas.entries = L ++ (slot e ne ++ R))
    (hLb : KeysLt L b) (hRe : KeysGt R e) (hL : Alternates false L s1)
    (he : Alternates s1 (slot e ne) s3) (hR : Alternates s3 R false) : ∃ t', t.unmap b e = some t' ∧
      t'.mAreas.entries = (L ++ beginMarker (!s1) b .x) ++ (beginMarker (!s3) e .o ++ R) := by
  have hup : ∀ x ∈ slot e ne ++ R, e ≤ x.1 := by
    intro x hx
    rcases mem_append.mp hx with hx | hx
    · exact (mem_slot hx).ge
    · exact (hRe x hx).le
  have hlb : t.mAreas.lowerBound b = (slot e ne ++ R).head?.map Prod.fst :=
    lowerBound_of_cut hent hLb fun x hx => le_trans hbe.le (hup x hx)
  have halt : Alternates s1 (slot e ne ++ R) false := he.append hR
  cases s1 with
  | false =>
    -- a gap: the next marker, if any, is an `O`
    refine ⟨t, ?_, ?_⟩
    · rw [unmap, hlb]
      cases hrest : slot e ne ++ R with
      | nil => rfl
      | cons x rest =>
        obtain ⟨k, n⟩ := x
        rw [hrest] at halt hup hent
        obtain rfl : n = .o := opens_eq_true.mp halt.1
        have hek : e ≤ k := hup (k, .o) mem_cons_self
        simp [find?_of_mem hent, hek]
    have hs3 : slot e ne = beginMarker (!s3) e .o := by
      cases ne with
      | none => cases he; rfl
      | some n =>
        have hn : n = .o := opens_eq_true.mp he.1
        have hs : true = s3 := he.2
        subst hn hs
        rfl
    rw [hent, hs3]
    simp [beginMarker]
  | true =>
    -- inside an area: it is cut in two
    obtain ⟨L', k0, rfl⟩ := hL.exists_open
    have hk0 : k0 < b := hLb (k0, .o) (by simp)
    have hm : (t.mAreas.emplace b .x).1.entries = (L' ++ [(k0, .o)]) ++ (b, .x) :: (slot e ne ++ R) :=
      entries_emplace_of_cut hent hLb fun x hx => lt_of_lt_of_le hbe (hup x hx)
    obtain ⟨k, rest, hrest⟩ := halt.exists_close
    have hek : e ≤ k := hup (k, .x) (by rw [hrest]; simp)
    have hent' : t.mAreas.entries = (L' ++ [(k0, .o)]) ++ (k, .x) :: rest := by rw [hent, hrest]
    have hprev : t.mAreas.prev k = some k0 := by rw [prev_of_mem hent']; simp
    have hunmap : t.unmap b e = if e < k then some (((t.invalidate k0).emplace b .x).emplace e .o)
        else ((t.invalidate k0).emplace b .x).unmapFrom b e b := by
      have hlb' : t.mAreas.lowerBound b = some k := by rw [hlb, hrest]; rfl
      simp only [unmap, hlb', find?_of_mem hent', if_pos hek, ne_eq, not_true_eq_false,
        if_false, hprev, if_neg (not_le.mpr (lt_trans hk0 hbe)), if_pos hk0]
    rw [hunmap]
    cases ne with
    | none =>
      obtain rfl : true = s3 := he
      have hlt : e < k := by
        refine hRe (k, .x) ?_
        rw [show R = (k, .x) :: rest from hrest]
        exact mem_cons_self
      have hlow : KeysLt ((L' ++ [(k0, .o)]) ++ [(b, .x)]) e :=
        keysLt_append.mpr ⟨keysLt_of_keysLt hLb hbe.le, keysLt_singleton.mpr hbe⟩
      have hm' : (t.mAreas.emplace b .x).1.entries = ((L' ++ [(k0, .o)]) ++ [(b, .x)]) ++ R := by rw [hm]; simp [slot]
      exact ⟨_, if_pos hlt, entries_emplace_of_cut hm' hlow hRe⟩
    | some n =>
      have hn : n = .x := opens_eq_false.mp he.1
      have hs : false = s3 := he.2
      subst hn hs
      obtain ⟨rfl, rfl⟩ : k = e ∧ rest = R := by
        simp only [slot, singleton_append, List.cons.injEq, Prod.mk.injEq, and_true] at hrest
        exact ⟨hrest.1.symm, hrest.2.symm⟩
      rw [if_neg (lt_irrefl _)]
      let t1 := (t.invalidate k0).emplace b .x
      have hent1 : t1.mAreas.entries = (L' ++ [(k0, .o)]) ++ (b, .x) :: ((k, .x) :: rest) := hm
      have hent1' : t1.mAreas.entries = ((L' ++ [(k0, .o)]) ++ [(b, .x)]) ++ ([(k, .x)] ++ rest) := by simp [hent1]
      obtain ⟨t', hclose, hent2⟩ := sweepAndClose_eq (s := false) hent1'
        (keysLt_append.mpr ⟨keysLt_of_keysLt hLb hbe.le, keysLt_singleton.mpr hbe⟩)
        (by simp) hRe rfl
      refine ⟨t', ?_, hent2⟩
      rw [unmapFrom, find?_of_mem hent1, after_of_mem hent1]
      simpa using hclose

variable {k : Nat} {n : Kind} {Q : List (Nat × Kind)}

/-- `unmap` goes on from the first marker in `[b, e)`. -/
theorem unmap_eq_unmapFrom (hent : t.mAreas.entries = L ++ (k, n) :: Q) (hLb : KeysLt L b) (hbk : b ≤ k) (hke : k < e) :
    t.unmap b e = t.unmapFrom b e k := by simp [unmap, lowerBound_of_mem hent hLb hbk, find?_of_mem hent, hke]

/-- `unmap` from the first marker in `[b, e)`, when there is a marker before it as well. -/
theorem unmap_eq_of_before {P : List (Nat × Kind)} {y : Nat × Kind}
    (hent : t.mAreas.entries = (P ++ [y]) ++ (k, n) :: (Q ++ R)) (hLb : KeysLt (P ++ [y]) b) (hbk : b ≤ k) (hke : k < e)
    (hQ : ∀ x ∈ Q, x.1 ≤ e) (hRe : KeysGt R e) (halt : Alternates s1 ((k, n) :: Q) s3) :
    ∃ t', t.unmap b e = some t' ∧ t'.mAreas.entries =
      ((P ++ [y]) ++ beginMarker (!s1) b .x) ++ (beginMarker (!s3) e .o ++ R) := by
  have hbe : b < e := lt_of_le_of_lt hbk hke
  have hLe : KeysLt (P ++ [y]) e := keysLt_of_keysLt hLb hbe.le
  have hLbe : KeysLt ((P ++ [y]) ++ [(b, Kind.x)]) e := keysLt_append.mpr ⟨hLe, keysLt_singleton.mpr hbe⟩
  have hread : inForce opensAt (!s1) Q = s3 := halt.2.inForce_eq
  rw [unmap_eq_unmapFrom hent hLb hbk hke, unmapFrom, find?_of_mem hent]
  cases s1 with
  | false =>
    -- an area begins in the range: the loop starts with its `O`
    obtain rfl : n = .o := opens_eq_true.mp halt.1
    have hQ' : ∀ x ∈ (k, Kind.o) :: Q, x.1 ≤ e := by
      intro x hx
      rcases mem_cons.mp hx with rfl | hx
      · exact hke.le
      · exact hQ x hx
    obtain ⟨t', hclose, hentt⟩ := sweepAndClose_eq (Q := (k, .o) :: Q) hent hLe hQ' hRe hread
    refine ⟨t', ?_, by rw [hentt]; simp [beginMarker]⟩
    rw [after_of_mem hent]
    simpa using hclose
  | true =>
    obtain rfl : n = .x := opens_eq_false.mp halt.1
    by_cases hb : b < k
    · -- the `X` of an area that reaches into the range moves down to `b`
      have hprev : t.mAreas.prev k = some y.1 := by rw [prev_of_mem hent]; simp
      have hRb : KeysGt ((k, Kind.x) :: (Q ++ R)) b := keysGt_cons.mpr ⟨hb, keysGt_of_keysGt (keysGt_of_mem hent) hb.le⟩
      have hins : (t.mAreas.emplace b .x).1.entries = ((P ++ [y]) ++ [(b, .x)]) ++ (k, .x) :: (Q ++ R) :=
        (entries_emplace_of_cut hent hLb hRb).trans (by simp)
      let t1 := ((t.invalidate y.1).emplace b .x).erase k
      have hent1 : t1.mAreas.entries = ((P ++ [y]) ++ [(b, .x)]) ++ (Q ++ R) := entries_erase_of_mem hins
      have hafter : t1.mAreas.after b = Q ++ R := after_of_mem (w := .x) (L := P ++ [y]) (by rw [hent1]; simp)
      obtain ⟨t', hclose, hentt⟩ := sweepAndClose_eq hent1 hLbe hQ hRe hread
      refine ⟨t', ?_, by rw [hentt]; simp [beginMarker]⟩
      simp only [hb, and_self, if_true, hprev, Option.bind_some]
      rw [← hclose, ← hafter]
    -- an `X` at `b` stays where it is
    obtain rfl : k = b := le_antisymm (not_lt.mp hb) hbk
    have hent1 : t.mAreas.entries = ((P ++ [y]) ++ [(k, .x)]) ++ (Q ++ R) := by simp [hent]
    obtain ⟨t', hclose, hentt⟩ := sweepAndClose_eq hent1 hLbe hQ hRe hread
    refine ⟨t', ?_, by rw [hentt]; simp [beginMarker]⟩
    rw [after_of_mem hent]
    simpa using hclose

/-- `unmap` from the first marker of the whole table: it looks before the first position. -/
theorem unmap_eq_none (hwf : t.WF) (hent : t.mAreas.entries = (k, n) :: Q) (hbk : b ≤ k) (hke : k < e) :
    t.unmap b e = none := by
  obtain rfl : n = .o := by
    rw [WF, hent] at hwf
    exact opens_eq_true.mp hwf.1
  rw [unmap_eq_unmapFrom (L := []) hent (by simp [KeysLt]) hbk hke, unmapFrom,
    find?_of_mem (L := []) hent, after_of_mem (L := []) hent]
  simp [sweepAndClose, sweep_first hent hke.le]

end UnmapCut

end Operations

end MemoryAreaTable

end Rpcsx.Rx
