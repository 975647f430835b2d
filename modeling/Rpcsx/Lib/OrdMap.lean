import Mathlib.Data.UInt
import Mathlib.Order.Basic

/-!
# Ordered finite maps

The ordered associative container of the C++ standard library, as far as iterator-based
algorithms use it: a list of entries with strictly increasing keys. An iterator is named by
the key it points to (iterators of such a container survive insertions and erasures elsewhere,
so the key is all there is to remember) and `none` is the past-the-end position.

Every operation comes with one lemma that says what it does to the entry list once the list
has been cut at the key in question (`L ++ (k, v) :: R`, or `L ++ R` when `k` is absent); an
algorithm on the container is then followed by rewriting with these lemmas only.
-/

namespace Rpcsx.Lib

open List

variable {K V : Type} [LinearOrder K]

/-- A finite map, its entries listed by strictly increasing key. -/
structure OrdMap (K V : Type) [LinearOrder K] where
  entries : List (K × V)
  sorted : entries.Pairwise (fun x y => x.1 < y.1)

def KeysLt (l : List (K × V)) (k : K) : Prop := ∀ x ∈ l, x.1 < k

def KeysGt (l : List (K × V)) (k : K) : Prop := ∀ x ∈ l, k < x.1

namespace OrdMap

def empty : OrdMap K V := ⟨[], List.Pairwise.nil⟩

@[ext] theorem ext {m m' : OrdMap K V} (h : m.entries = m'.entries) : m = m' := by
  cases m; cases m'; cases h; rfl

instance [DecidableEq V] : DecidableEq (OrdMap K V) := fun m m' =>
  decidable_of_iff (m.entries = m'.entries) ⟨ext, fun h => h ▸ rfl⟩

def find? (m : OrdMap K V) (k : K) : Option V :=
  (m.entries.find? (fun x => x.1 = k)).map Prod.snd

def first (m : OrdMap K V) : Option K := m.entries.head?.map Prod.fst

def lowerBound (m : OrdMap K V) (k : K) : Option K :=
  (m.entries.find? (fun x => k ≤ x.1)).map Prod.fst

def next (m : OrdMap K V) (k : K) : Option K :=
  (m.entries.find? (fun x => k < x.1)).map Prod.fst

/-- The position before `k` (`std::prev`); `none` when `k` is the first one. -/
def prev (m : OrdMap K V) (k : K) : Option K :=
  (m.entries.filter (fun x => x.1 < k)).getLast?.map Prod.fst

/-- The entries after position `k`, in order: what a walk with `++it` from `k` sees. -/
def after (m : OrdMap K V) (k : K) : List (K × V) := m.entries.filter (fun x => k < x.1)

theorem insert_sorted (m : OrdMap K V) (k : K) (v : V) : (m.entries.filter (fun x => x.1 < k) ++
      (k, v) :: m.entries.filter (fun x => k < x.1)).Pairwise (fun x y => x.1 < y.1) := by
  rw [pairwise_append, pairwise_cons]
  refine ⟨m.sorted.filter _, ⟨?_, m.sorted.filter _⟩, ?_⟩
  · intro y hy
    simpa using (mem_filter.mp hy).2
  intro x hx y hy
  have hxk : x.1 < k := by simpa using (mem_filter.mp hx).2
  rcases mem_cons.mp hy with rfl | hy'
  · exact hxk
  have hky : k < y.1 := by simpa using (mem_filter.mp hy').2
  exact lt_trans hxk hky

def insert (m : OrdMap K V) (k : K) (v : V) : OrdMap K V :=
  ⟨m.entries.filter (fun x => x.1 < k) ++ (k, v) :: m.entries.filter (fun x => k < x.1),
    m.insert_sorted k v⟩

def emplace (m : OrdMap K V) (k : K) (v : V) : OrdMap K V × Bool :=
  if (m.find? k).isSome then (m, false) else (m.insert k v, true)

def erase (m : OrdMap K V) (k : K) : OrdMap K V :=
  ⟨m.entries.filter (fun x => x.1 ≠ k), m.sorted.filter _⟩

/-! ## Cutting the entry list at a key -/

section Cut

variable {m : OrdMap K V} {L R : List (K × V)} {k : K} {v w : V} {m' : OrdMap K V}

section

variable (h : m.entries = L ++ (k, w) :: R)

include h

theorem keysLt_of_mem : KeysLt L k := by
  have hs := m.sorted
  rw [h, pairwise_append] at hs
  intro x hx
  exact hs.2.2 x hx (k, w) mem_cons_self

theorem keysGt_of_mem : KeysGt R k := by
  have hs := m.sorted
  rw [h, pairwise_append, pairwise_cons] at hs
  exact hs.2.1.1

omit h in
theorem filter_lt_append (hL : KeysLt L k) (hR : ∀ x ∈ R, k ≤ x.1) : (L ++ R).filter (fun x => x.1 < k) = L := by
  have h1 : L.filter (fun x => x.1 < k) = L := filter_eq_self.mpr fun x hx => by simpa using hL x hx
  have h2 : R.filter (fun x => x.1 < k) = [] := filter_eq_nil_iff.mpr fun x hx => by simpa using hR x hx
  rw [filter_append, h1, h2, append_nil]

omit h in
theorem filter_gt_append (hL : ∀ x ∈ L, x.1 ≤ k) (hR : KeysGt R k) : (L ++ R).filter (fun x => k < x.1) = R := by
  have h1 : L.filter (fun x => k < x.1) = [] := filter_eq_nil_iff.mpr fun x hx => by simpa using hL x hx
  have h2 : R.filter (fun x => k < x.1) = R := filter_eq_self.mpr fun x hx => by simpa using hR x hx
  rw [filter_append, h1, h2, nil_append]

omit h in
omit [LinearOrder K] in
theorem find?_append_of_not {p : K × V → Bool} (hL : ∀ x ∈ L, p x = false) : (L ++ R).find? p = R.find? p := by
  rw [find?_append]
  have : L.find? p = none := find?_eq_none.mpr fun x hx => by simp [hL x hx]
  rw [this, Option.none_or]

omit h in
/-- Any key cuts the entry list, with or without an entry of its own in the middle. -/
theorem exists_cut (m : OrdMap K V) (k : K) : ∃ L R : List (K × V), KeysLt L k ∧ KeysGt R k ∧
      (m.entries = L ++ R ∨ ∃ v, m.entries = L ++ (k, v) :: R) := by
  obtain ⟨l, hs⟩ := m
  induction l with
  | nil => exact ⟨[], [], by simp [KeysLt], by simp [KeysGt], Or.inl rfl⟩
  | cons x l ih =>
    obtain ⟨hx, hs'⟩ := pairwise_cons.mp hs
    rcases lt_trichotomy x.1 k with hlt | heq | hgt
    · obtain ⟨L, R, hL, hR, h⟩ := ih hs'
      refine ⟨x :: L, R, ?_, hR, ?_⟩
      · intro y hy
        rcases mem_cons.mp hy with rfl | hy'
        · exact hlt
        · exact hL y hy'
      rcases h with h | ⟨v, h⟩
      · exact Or.inl (congrArg (x :: ·) h)
      · exact Or.inr ⟨v, congrArg (x :: ·) h⟩
    · refine ⟨[], l, by simp [KeysLt], fun y hy => heq ▸ hx y hy, Or.inr ⟨x.2, ?_⟩⟩
      rw [← heq]; rfl
    refine ⟨[], x :: l, by simp [KeysLt], ?_, Or.inl rfl⟩
    intro y hy
    rcases mem_cons.mp hy with rfl | hy'
    · exact hgt
    · exact lt_trans hgt (hx y hy')

/-! ## What the operations do to a cut list -/

theorem find?_of_mem : m.find? k = some w := by
  rw [find?, h, find?_append_of_not]
  · simp
  intro x hx
  simpa using (keysLt_of_mem h x hx).ne

omit h in
theorem find?_of_cut (h : m.entries = L ++ R) (hL : KeysLt L k) (hR : KeysGt R k) : m.find? k = none := by
  rw [find?, h, find?_append_of_not (fun x hx => by simpa using (hL x hx).ne)]
  have : R.find? (fun x => x.1 = k) = none := find?_eq_none.mpr fun x hx => by simpa using (hR x hx).ne'
  rw [this, Option.map_none]

theorem entries_insert_of_mem : (m.insert k v).entries = L ++ (k, v) :: R := by
  have hL := keysLt_of_mem h
  have hR := keysGt_of_mem h
  have h1 : m.entries.filter (fun x => x.1 < k) = L := by
    rw [h]
    refine filter_lt_append hL fun x hx => ?_
    rcases mem_cons.mp hx with rfl | hx'
    · exact le_refl _
    · exact (hR x hx').le
  have h2 : m.entries.filter (fun x => k < x.1) = R := by
    rw [h, show L ++ (k, w) :: R = (L ++ [(k, w)]) ++ R by simp]
    refine filter_gt_append (fun x hx => ?_) hR
    rcases mem_append.mp hx with hx' | hx'
    · exact (hL x hx').le
    · rw [mem_singleton.mp hx']
  simp only [insert, h1, h2]

omit h in
theorem entries_insert_of_cut (h : m.entries = L ++ R) (hL : KeysLt L k) (hR : KeysGt R k) :
    (m.insert k v).entries = L ++ (k, v) :: R := by
  have h1 : m.entries.filter (fun x => x.1 < k) = L := by rw [h]; exact filter_lt_append hL fun x hx => (hR x hx).le
  have h2 : m.entries.filter (fun x => k < x.1) = R := by rw [h]; exact filter_gt_append (fun x hx => (hL x hx).le) hR
  simp only [insert, h1, h2]

theorem emplace_of_mem : m.emplace k v = (m, false) := by simp [emplace, find?_of_mem h]

omit h in
theorem emplace_of_cut (h : m.entries = L ++ R) (hL : KeysLt L k) (hR : KeysGt R k) :
    m.emplace k v = (m.insert k v, true) := by simp [emplace, find?_of_cut h hL hR]

omit h in
theorem entries_emplace_of_cut (h : m.entries = L ++ R) (hL : KeysLt L k) (hR : KeysGt R k) :
    (m.emplace k v).1.entries = L ++ (k, v) :: R := by rw [emplace_of_cut h hL hR, entries_insert_of_cut h hL hR]

theorem entries_erase_of_mem : (m.erase k).entries = L ++ R := by
  have h1 : L.filter (fun x => x.1 ≠ k) = L :=
    filter_eq_self.mpr fun x hx => by simpa using (keysLt_of_mem h x hx).ne
  have h2 : R.filter (fun x => x.1 ≠ k) = R :=
    filter_eq_self.mpr fun x hx => by simpa using (keysGt_of_mem h x hx).ne'
  simp only [erase, h, filter_append, filter_cons, h1, h2]
  simp

theorem after_of_mem : m.after k = R := by
  rw [after, h, show L ++ (k, w) :: R = (L ++ [(k, w)]) ++ R by simp]
  refine filter_gt_append (fun x hx => ?_) (keysGt_of_mem h)
  rcases mem_append.mp hx with hx' | hx'
  · exact (keysLt_of_mem h x hx').le
  · rw [mem_singleton.mp hx']

theorem next_of_mem : m.next k = R.head?.map Prod.fst := by
  have hcut : m.entries = (L ++ [(k, w)]) ++ R := by simp [h]
  rw [next, hcut, find?_append_of_not]
  · cases R with
    | nil => rfl
    | cons x R' =>
      have : k < x.1 := keysGt_of_mem h x mem_cons_self
      simp [this]
  intro x hx
  rcases mem_append.mp hx with hx' | hx'
  · simpa using (keysLt_of_mem h x hx').le
  · rw [mem_singleton.mp hx']; simp

theorem prev_of_mem : m.prev k = L.getLast?.map Prod.fst := by
  rw [prev, h, filter_lt_append (keysLt_of_mem h)]
  intro x hx
  rcases mem_cons.mp hx with rfl | hx'
  · exact le_refl _
  · exact (keysGt_of_mem h x hx').le

omit h in
theorem lowerBound_of_cut (h : m.entries = L ++ R) (hL : KeysLt L k)
    (hR : ∀ x ∈ R, k ≤ x.1) : m.lowerBound k = R.head?.map Prod.fst := by
  rw [lowerBound, h, find?_append_of_not (fun x hx => by simpa using hL x hx)]
  cases R with
  | nil => rfl
  | cons x R' =>
    have : k ≤ x.1 := hR x mem_cons_self
    simp [this]

theorem lowerBound_of_mem {a : K} (hL : KeysLt L a) (hak : a ≤ k) : m.lowerBound a = some k := by
  refine lowerBound_of_cut h hL fun x hx => ?_
  rcases mem_cons.mp hx with rfl | hx'
  · exact hak
  · exact le_trans hak (keysGt_of_mem h x hx').le

end

theorem mem_entries_iff : (k, v) ∈ m.entries ↔ m.find? k = some v := by
  obtain ⟨L, R, hL, hR, h | ⟨w, h⟩⟩ := m.exists_cut k
  · rw [find?_of_cut h hL hR, h]
    refine ⟨fun hmem => ?_, (fun hf => by cases hf)⟩
    rcases mem_append.mp hmem with hmem | hmem
    · exact absurd (hL _ hmem) (lt_irrefl k)
    · exact absurd (hR _ hmem) (lt_irrefl k)
  rw [find?_of_mem h, h]
  refine ⟨fun hmem => ?_, fun hf => ?_⟩
  · rcases mem_append.mp hmem with hmem | hmem
    · exact absurd (keysLt_of_mem h _ hmem) (lt_irrefl k)
    rcases mem_cons.mp hmem with heq | hmem
    · rw [(Prod.mk.inj heq).2]
    · exact absurd (keysGt_of_mem h _ hmem) (lt_irrefl k)
  rw [Option.some.inj hf]; simp

theorem find?_insert (m : OrdMap K V) (k k' : K) (v : V) :
    (m.insert k v).find? k' = if k' = k then some v else m.find? k' := by
  refine Option.ext fun w => ?_
  rw [← mem_entries_iff]
  simp only [insert, mem_append, mem_cons, mem_filter, decide_eq_true_eq, Prod.mk.injEq]
  by_cases heq : k' = k
  · simp [heq, eq_comm]
  have hne := lt_or_gt_of_ne heq
  rw [if_neg heq, ← mem_entries_iff]
  simp only [heq, false_and, false_or, ← and_or_left]
  exact ⟨fun h => h.1, fun h => ⟨h, hne⟩⟩

/-- A map is determined by its entries in any order. -/
theorem ext_perm (h : m.entries.Perm m'.entries) : m = m' :=
  ext (h.eq_of_pairwise (fun _ _ _ _ h1 h2 => absurd h1 h2.asymm) m.sorted m'.sorted)

/-- A map is determined by its lookups. -/
theorem ext_find? (h : ∀ k, m.find? k = m'.find? k) : m = m' := by
  have hnodup : ∀ m : OrdMap K V, m.entries.Nodup := fun m =>
    m.sorted.imp fun hlt heq => (heq ▸ hlt).ne rfl
  have hperm : m.entries.Perm m'.entries := by
    refine (perm_ext_iff_of_nodup (hnodup m) (hnodup m')).mpr fun x => ?_
    obtain ⟨k, v⟩ := x
    rw [mem_entries_iff, mem_entries_iff, h]
  exact ext_perm hperm

end Cut

/-! ## Adding entries under new keys -/

/-- Insert the entries one after another; a key that is present is a failure. -/
def insertNew (m : OrdMap K V) (l : List (K × V)) : Option (OrdMap K V) :=
  l.foldlM (fun m x => if (m.find? x.1).isNone then some (m.insert x.1 x.2) else none) m

/-- The insertions succeed exactly when the entries of the result are those of the map and the
new ones. -/
theorem insertNew_eq_some_iff {m m' : OrdMap K V} {l : List (K × V)} :
    m.insertNew l = some m' ↔ (m.entries ++ l).Perm m'.entries := by
  induction l generalizing m with
  | nil =>
    rw [append_nil]
    exact ⟨fun h => by cases h; exact List.Perm.refl _, fun h => congrArg some (ext_perm h)⟩
  | cons x l ih =>
    obtain ⟨k, v⟩ := x
    rw [insertNew, foldlM_cons]
    obtain ⟨L, R, hL, hR, h | ⟨w, h⟩⟩ := m.exists_cut k
    · have hins : (m.insert k v).entries.Perm ((k, v) :: m.entries) := by
        rw [entries_insert_of_cut h hL hR, h]
        exact perm_middle
      rw [find?_of_cut h hL hR]
      refine (ih (m := m.insert k v)).trans ?_
      have hfront : ((m.insert k v).entries ++ l).Perm (m.entries ++ (k, v) :: l) :=
        (hins.append_right l).trans perm_middle.symm
      exact ⟨hfront.symm.trans, hfront.trans⟩
    rw [find?_of_mem h]
    refine ⟨(fun hnone => by cases hnone), fun hperm => ?_⟩
    -- two entries of the result would have the key `k`
    have hkeys : (m'.entries.map Prod.fst).Nodup := by
      rw [List.Nodup, pairwise_map]
      exact m'.sorted.imp ne_of_lt
    rw [← (hperm.map Prod.fst).nodup_iff, map_append, nodup_append] at hkeys
    refine absurd rfl (hkeys.2.2 k ?_ k (by simp))
    rw [h]
    simp

end OrdMap

end Rpcsx.Lib
