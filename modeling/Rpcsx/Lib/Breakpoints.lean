import Rpcsx.Lib.OrdMap

/-!
# Piecewise constant functions given by breakpoints

An ordered map whose entries are markers describes a piecewise constant function of its keys: the
value at `a` is what the last marker up to `a` says, and some initial value before the first
marker. `OrdMap.readAt` is that function. An algorithm that edits the markers of a closed range and
leaves the others alone is a `Splice`; what it does to the function is said here once, for any
kind of marker.
-/

namespace Rpcsx.Lib

open OrdMap List

variable {K V A : Type} [LinearOrder K]

/-! ## Keys of pieces -/

section Keys

variable {l l' : List (K × V)} {a c k : K} {n : V} {o : Option V}

theorem keysGt_of_keysGt (h : KeysGt l c) (hac : a ≤ c) : KeysGt l a := fun x hx => lt_of_le_of_lt hac (h x hx)

theorem keysLt_of_keysLt (h : KeysLt l a) (hac : a ≤ c) : KeysLt l c := fun x hx => lt_of_lt_of_le (h x hx) hac

theorem keysGt_append : KeysGt (l ++ l') a ↔ KeysGt l a ∧ KeysGt l' a := forall_mem_append

theorem keysLt_append : KeysLt (l ++ l') a ↔ KeysLt l a ∧ KeysLt l' a := forall_mem_append

theorem keysGt_cons : KeysGt ((k, n) :: l) a ↔ a < k ∧ KeysGt l a := by simp [KeysGt]

theorem keysLt_singleton : KeysLt [(k, n)] a ↔ k < a := by simp [KeysLt]

def slot (k : K) : Option V → List (K × V)
  | none => []
  | some v => [(k, v)]

theorem keysGt_slot (h : a < k) : KeysGt (slot k o) a := by
  cases o <;> simp [slot, KeysGt, h]

omit [LinearOrder K] in
theorem mem_slot {x : K × V} (h : x ∈ slot k o) : x.1 = k := by
  cases o with
  | none => cases h
  | some v => rw [mem_singleton.mp h]

end Keys

/-- A range cuts the entries into those below it, at its begin, inside, at its end and above. -/
theorem exists_range_cut (m : OrdMap K V) (b e : K) :
    ∃ L nb M ne R, m.entries = L ++ (slot b nb ++ (M ++ (slot e ne ++ R))) ∧ KeysLt L b ∧
      KeysGt M b ∧ KeysLt M e ∧ KeysGt R e := by
  obtain ⟨L, R1, nb, hent, hL, hR1⟩ : ∃ L R1 nb, m.entries = L ++ (slot b nb ++ R1) ∧ KeysLt L b ∧ KeysGt R1 b := by
    obtain ⟨L, R1, hL, hR1, h | ⟨v, h⟩⟩ := m.exists_cut b
    · exact ⟨L, R1, none, h, hL, hR1⟩
    · exact ⟨L, R1, some v, h, hL, hR1⟩
  have hs1 : R1.Pairwise (fun x y => x.1 < y.1) := by
    have hs := m.sorted
    rw [hent, pairwise_append, pairwise_append] at hs
    exact hs.2.1.2.1
  obtain ⟨M, R, ne, hent1, hM, hR⟩ : ∃ M R ne, R1 = M ++ (slot e ne ++ R) ∧ KeysLt M e ∧ KeysGt R e := by
    obtain ⟨M, R, hM, hR, h | ⟨v, h⟩⟩ := exists_cut ⟨R1, hs1⟩ e
    · exact ⟨M, R, none, h, hM, hR⟩
    · exact ⟨M, R, some v, h, hM, hR⟩
  subst hent1
  exact ⟨L, nb, M, ne, R, hent, hL, fun x hx => hR1 x (by simp [hx]), hM, hR⟩

theorem exists_le_cut (m : OrdMap K V) (a : K) :
    ∃ L R : List (K × V), m.entries = L ++ R ∧ (∀ x ∈ L, x.1 ≤ a) ∧ KeysGt R a := by
  obtain ⟨L, R, hL, hR, h | ⟨v, h⟩⟩ := m.exists_cut a
  · exact ⟨L, R, h, fun x hx => (hL x hx).le, hR⟩
  refine ⟨L ++ [(a, v)], R, by simp [h], ?_, hR⟩
  intro x hx
  rcases mem_append.mp hx with hx' | hx'
  · exact (hL x hx').le
  · rw [mem_singleton.mp hx']

/-- Emplacing the two ends of a range in a map cut at them: each keeps what was there, or is
new. -/
theorem emplace_both {m : OrdMap K V} {L M R : List (K × V)} {nb ne : Option V} {b e : K}
    (v w : V) (hbe : b < e) (hent : m.entries = L ++ (slot b nb ++ (M ++ (slot e ne ++ R))))
    (hL : KeysLt L b) (hMb : KeysGt M b) (hMe : KeysLt M e) (hR : KeysGt R e) :
    ∃ m1 m2, m.emplace b v = (m1, nb.isNone) ∧ m1.emplace e w = (m2, ne.isNone) ∧
      m2.entries = L ++ (b, nb.getD v) :: (M ++ (e, ne.getD w) :: R) := by
  obtain ⟨m1, hm1, hent1⟩ : ∃ m1, m.emplace b v = (m1, nb.isNone) ∧
      m1.entries = L ++ (b, nb.getD v) :: (M ++ (slot e ne ++ R)) := by
    cases nb with
    | none =>
      have hrest : KeysGt (M ++ (slot e ne ++ R)) b :=
        keysGt_append.mpr ⟨hMb, keysGt_append.mpr ⟨keysGt_slot hbe, keysGt_of_keysGt hR hbe.le⟩⟩
      exact ⟨_, emplace_of_cut hent hL hrest, entries_insert_of_cut hent hL hrest⟩
    | some n => exact ⟨m, emplace_of_mem hent, hent⟩
  have hent1' : m1.entries = (L ++ (b, nb.getD v) :: M) ++ (slot e ne ++ R) := by simp [hent1]
  have hlow : KeysLt (L ++ (b, nb.getD v) :: M) e := by
    rw [show (b, nb.getD v) :: M = [(b, nb.getD v)] ++ M from rfl]
    exact keysLt_append.mpr ⟨keysLt_of_keysLt hL hbe.le, keysLt_append.mpr ⟨keysLt_singleton.mpr hbe, hMe⟩⟩
  cases ne with
  | none =>
    refine ⟨m1, _, hm1, emplace_of_cut hent1' hlow hR, ?_⟩
    rw [entries_insert_of_cut hent1' hlow hR]; simp [slot]
  | some n => exact ⟨m1, m1, hm1, emplace_of_mem hent1', by simp [hent1', slot]⟩

/-! ## The value in force -/

section InForce

variable {val : K × V → A}

/-- The value in force after reading the markers `l`, when `cur` is in force before. -/
def inForce (val : K × V → A) : A → List (K × V) → A
  | cur, [] => cur
  | _, x :: l => inForce val (val x) l

omit [LinearOrder K] in
@[simp] theorem inForce_nil (cur : A) : inForce val cur [] = cur := rfl

omit [LinearOrder K] in
theorem inForce_append (cur : A) (l l' : List (K × V)) :
    inForce val cur (l ++ l') = inForce val (inForce val cur l) l' := by
  induction l generalizing cur with
  | nil => rfl
  | cons x l ih => exact ih _

omit [LinearOrder K] in
theorem inForce_append_cons (cur : A) (l l' : List (K × V)) (x : K × V) :
    inForce val cur (l ++ x :: l') = inForce val (val x) l' := by rw [inForce_append]; rfl

/-- The piecewise constant function the markers describe. -/
def OrdMap.readAt (m : OrdMap K V) (val : K × V → A) (init : A) (a : K) : A :=
  inForce val init (m.entries.filter fun x => x.1 ≤ a)

theorem OrdMap.readAt_of_cut {m : OrdMap K V} {init : A} {L R : List (K × V)} {a : K}
    (h : m.entries = L ++ R) (hL : ∀ x ∈ L, x.1 ≤ a) (hR : KeysGt R a) :
    m.readAt val init a = inForce val init L := by
  have h1 : L.filter (fun x => x.1 ≤ a) = L := filter_eq_self.mpr fun x hx => by simpa using hL x hx
  have h2 : R.filter (fun x => x.1 ≤ a) = [] := filter_eq_nil_iff.mpr fun x hx => by simpa using hR x hx
  rw [readAt, h, filter_append, h1, h2, append_nil]

/-- Two maps agree at `a` when the markers up to `a` agree. -/
theorem OrdMap.readAt_congr_left {m m' : OrdMap K V} {init : A} {L R R' : List (K × V)} {a : K}
    (h : m.entries = L ++ R) (h' : m'.entries = L ++ R') (hR : KeysGt R a) (hR' : KeysGt R' a) :
    m'.readAt val init a = m.readAt val init a := by
  have h1 : R.filter (fun x => x.1 ≤ a) = [] := filter_eq_nil_iff.mpr fun x hx => by simpa using hR x hx
  have h2 : R'.filter (fun x => x.1 ≤ a) = [] := filter_eq_nil_iff.mpr fun x hx => by simpa using hR' x hx
  rw [readAt, readAt, h, h', filter_append, filter_append, h1, h2]

end InForce

/-! ## Splicing a range -/

/-- `m'` is `m` with the markers `mid` in `[b, e]` replaced by `B` at `b` and `E` at `e`. -/
structure Splice (m m' : OrdMap K V) (b e : K) where
  L : List (K × V)
  mid : List (K × V)
  R : List (K × V)
  B : List (K × V)
  E : List (K × V)
  old : m.entries = L ++ (mid ++ R)
  new : m'.entries = (L ++ B) ++ (E ++ R)
  lt : b < e
  keysL : KeysLt L b
  keysMid : ∀ x ∈ mid, b ≤ x.1 ∧ x.1 ≤ e
  keysR : KeysGt R e
  keyB : ∀ x ∈ B, x.1 = b
  keyE : ∀ x ∈ E, x.1 = e

namespace Splice

variable {m m' : OrdMap K V} {b e a : K} {val : K × V → A} {init : A}

/-- Left of the range nothing changes. -/
theorem readAt_left (c : Splice m m' b e) (h : a < b) : m'.readAt val init a = m.readAt val init a := by
  have hR : KeysGt c.R a := keysGt_of_keysGt c.keysR (lt_trans h c.lt).le
  refine readAt_congr_left c.old (by rw [c.new, append_assoc]) ?_ ?_
  · exact keysGt_append.mpr ⟨fun x hx => lt_of_lt_of_le h (c.keysMid x hx).1, hR⟩
  refine keysGt_append.mpr ⟨fun x hx => ?_, keysGt_append.mpr ⟨fun x hx => ?_, hR⟩⟩
  · rw [c.keyB x hx]; exact h
  · rw [c.keyE x hx]; exact lt_trans h c.lt

/-- Inside the range the begin markers decide. -/
theorem readAt_inside (c : Splice m m' b e) (h : b ≤ a) (h' : a < e) :
    m'.readAt val init a = inForce val init (c.L ++ c.B) := by
  refine readAt_of_cut c.new (fun x hx => ?_) (keysGt_append.mpr ⟨fun x hx => ?_, ?_⟩)
  · rcases mem_append.mp hx with hx | hx
    · exact (lt_of_lt_of_le (c.keysL x hx) h).le
    · rw [c.keyB x hx]; exact h
  · rw [c.keyE x hx]; exact h'
  exact keysGt_of_keysGt c.keysR h'.le

/-- Right of the range: either no marker lies between the end and `a`, and the end markers decide,
or the last one that does decides in both maps. -/
theorem readAt_right (c : Splice m m' b e) (f : K × V → A) (i : A) (h : e ≤ a) :
    (m.readAt f i a = inForce f i (c.L ++ c.mid) ∧ m'.readAt f i a = inForce f i ((c.L ++ c.B) ++ c.E)) ∨
      ∃ x, e < x.1 ∧ m.readAt f i a = f x ∧ m'.readAt f i a = f x := by
  have hsorted : c.R.Pairwise (fun x y => x.1 < y.1) := by
    have hs := m.sorted
    rw [c.old] at hs
    exact (pairwise_append.mp (pairwise_append.mp hs).2.1).2.1
  obtain ⟨R1, R2, hR12, hR1, hR2⟩ := exists_le_cut ⟨c.R, hsorted⟩ a
  replace hR12 : c.R = R1 ++ R2 := hR12
  have hold : m.readAt f i a = inForce f i (c.L ++ c.mid ++ R1) := by
    refine readAt_of_cut (R := R2) (by simp [c.old, hR12]) (fun x hx => ?_) hR2
    rcases mem_append.mp hx with hx | hx
    · rcases mem_append.mp hx with hx | hx
      · exact (lt_of_lt_of_le (lt_trans (c.keysL x hx) c.lt) h).le
      · exact le_trans (c.keysMid x hx).2 h
    exact hR1 x hx
  have hnew : m'.readAt f i a = inForce f i (c.L ++ c.B ++ c.E ++ R1) := by
    refine readAt_of_cut (R := R2) (by simp [c.new, hR12]) (fun x hx => ?_) hR2
    rcases mem_append.mp hx with hx | hx
    · rcases mem_append.mp hx with hx | hx
      · rcases mem_append.mp hx with hx | hx
        · exact (lt_of_lt_of_le (lt_trans (c.keysL x hx) c.lt) h).le
        · rw [c.keyB x hx]; exact le_trans c.lt.le h
      rw [c.keyE x hx]; exact h
    exact hR1 x hx
  rcases eq_nil_or_concat R1 with rfl | ⟨R1', x, rfl⟩
  · rw [append_nil] at hold hnew
    exact Or.inl ⟨hold, hnew⟩
  rw [concat_eq_append, ← append_assoc, inForce_append_cons] at hold hnew
  exact Or.inr ⟨x, c.keysR x (by simp [hR12]), hold, hnew⟩

end Splice

end Rpcsx.Lib
