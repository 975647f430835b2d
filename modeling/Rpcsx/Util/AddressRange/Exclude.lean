import Rpcsx.Util.AddressRange.Merge

/-!
# Excluding a range

The loop of `exclude` puts what is left of each entry in its place, or in the place of an invalid entry
or behind the end where two pieces are left. This is the difference of the sets of addresses for any
vector, and the pieces are apart if the entries were.
-/

namespace Rpcsx.Util

namespace AddressRangeVector

open AddressRange List Option Set

variable {n : Nat} {x e : AddressRange n} {orig data old new pieces : AddressRangeVector n}
  {s : Excluding n} {p : AddressRange n}

/-! ## Pieces of an entry -/

structure Pieces (x e : AddressRange n) (pieces : AddressRangeVector n) : Prop where
  cover : covered pieces = e.addresses \ x.addresses
  separate : Separate pieces

/-- One range with the right addresses. -/
theorem Pieces.one (h : ∀ a, a ∈ p.addresses ↔ a ∈ e.addresses ∧ a ∉ x.addresses) : Pieces x e [p] where
  cover := by
    rw [covered_cons, covered_nil, union_empty]
    exact ext h
  separate := pairwise_singleton _ _

/-- An entry that stays. -/
theorem Pieces.keep (h : ¬e.Overlaps x) : Pieces x e [e] := by
  refine .one fun a => ?_
  unfold Overlaps at h
  rw [Fin.le_def, Fin.le_def] at h
  rw [mem_addresses, mem_addresses]
  omega

theorem Pieces.invalid (h : ¬e.Valid) : Pieces x e [e] :=
  .one fun _ => iff_of_false (fun ha => h (valid_of_mem ha)) fun ha => h (valid_of_mem ha.1)

/-- An entry that is excluded as a whole. -/
theorem Pieces.none (hhead : x.OverlapsAddress e.start) (htail : x.OverlapsAddress e.last) : Pieces x e [null] := by
  refine .one fun a => ?_
  obtain ⟨hfirst, -⟩ := hhead
  obtain ⟨-, hlast⟩ := htail
  rw [Fin.le_def] at hfirst hlast
  refine iff_of_false (fun ha => not_valid_null (valid_of_mem ha)) ?_
  rw [mem_addresses, mem_addresses]
  omega

/-- The exclusion takes the head of an entry. -/
theorem Pieces.tail (he : e.Valid) (hhead : x.OverlapsAddress e.start)
    (htail : ¬x.OverlapsAddress e.last) : Pieces x e [{ e with start := x.nextAddress }] := by
  refine .one fun a => ?_
  simp only [OverlapsAddress, Fin.le_def, valid_iff, mem_addresses] at *
  rw [val_nextAddress, if_neg (by omega)]
  omega

/-- The exclusion takes the tail of an entry. -/
theorem Pieces.head (he : e.Valid) (hhead : ¬x.OverlapsAddress e.start)
    (htail : x.OverlapsAddress e.last) : Pieces x e [{ e with last := x.prevAddress }] := by
  refine .one fun a => ?_
  simp only [OverlapsAddress, Fin.le_def, valid_iff, mem_addresses] at *
  rw [val_prevAddress, if_neg (by omega)]
  omega

/-- The piece before the exclusion and the piece behind it. -/
theorem Pieces.two (he : e.Valid) (hx : x.Valid) (hover : e.Overlaps x)
    (hhead : ¬x.OverlapsAddress e.start) (htail : ¬x.OverlapsAddress e.last) :
    Pieces x e [{ e with last := x.prevAddress }, ⟨x.nextAddress, e.last⟩] := by
  unfold OverlapsAddress at hhead htail
  unfold Overlaps at hover
  rw [Fin.le_def, Fin.le_def] at hhead htail hover
  rw [valid_iff] at he hx
  have hprev : x.prevAddress.val = x.start.val - 1 := by rw [val_prevAddress, if_neg (by omega)]
  have hnext : x.nextAddress.val = x.last.val + 1 := by rw [val_nextAddress, if_neg (by omega)]
  constructor
  · ext a
    rw [covered_cons, covered_cons, covered_nil, union_empty, mem_union, mem_sdiff,
      mem_addresses, mem_addresses, mem_addresses, mem_addresses]
    dsimp only
    rw [hprev, hnext]
    omega
  refine pairwise_pair.mpr fun _ _ hnear => ?_
  -- the exclusion lies between them
  have hgap : x.nextAddress.val ≤ x.prevAddress.val + 1 := hnear.2
  omega

/-! ## The loop -/

structure Excluded (x : AddressRange n) (orig old : AddressRangeVector n) : Prop where
  cover : covered old = covered orig \ x.addresses
  separate : Separate orig → Separate old

/-- The pieces of the next entry are put beside what is left. -/
theorem Excluded.add (hs : Excluded x orig old) (hp : Pieces x e pieces)
    (hnew : new.Perm (pieces ++ old)) : Excluded x (orig ++ [e]) new where
  cover := by
    rw [covered_perm hnew, covered_append, hp.cover, hs.cover, covered_concat, union_sdiff_distrib, union_comm]
  separate hsep := by
    obtain ⟨horig, hapart⟩ := separate_concat.mp hsep
    rw [separate_perm hnew]
    refine pairwise_append.mpr ⟨hp.separate, hs.separate horig, fun p hpm f hf => ?_⟩
    have hpsub : p.addresses ⊆ e.addresses := fun a ha =>
      (hp.cover.subset (show a ∈ covered pieces from ⟨p, hpm, ha⟩)).1
    have hfsub : f.addresses ⊆ covered orig := fun a ha =>
      (hs.cover.subset (show a ∈ covered old from ⟨f, hf, ha⟩)).1
    refine .of_subset hfsub ?_
    rintro a ⟨g, hg, ha⟩
    exact ⟨g, ha, (Apart.of_subset hpsub fun b hb => ⟨e, hb, hapart g hg⟩).symm⟩

/-- An invalid entry does not count. -/
theorem Excluded.drop {y : AddressRange n} {pre post : AddressRangeVector n} (hy : ¬y.Valid)
    (hs : Excluded x orig (pre ++ y :: post)) : Excluded x orig (pre ++ post) where
  cover := by rw [← hs.cover, covered_middle, addresses_of_not_valid hy, empty_union]
  separate horig := (separate_middle.mp (hs.separate horig)).2

structure Passing (x : AddressRange n) (orig : AddressRangeVector n) (s : Excluding n) : Prop where
  excluded : Excluded x orig (s.passed ++ s.pushed)
  invalid : ∀ k ∈ s.invalid, ∃ y, s.passed[k]? = some y ∧ ¬y.Valid

/-- One piece in the place of the entry. -/
theorem Passing.put (hs : Passing x orig s) (hp : Pieces x e [p]) {invalid : Option Nat}
    (hinv : ∀ k ∈ invalid, k ∈ s.invalid ∨ k = s.passed.length ∧ ¬p.Valid) :
    Passing x (orig ++ [e]) ⟨s.passed ++ [p], s.pushed, invalid⟩ where
  excluded := hs.excluded.add hp (by
    rw [append_assoc, singleton_append]
    exact perm_middle)
  invalid k hk := by
    rcases hinv k hk with hold | ⟨rfl, hpv⟩
    · obtain ⟨y, hy, hyv⟩ := hs.invalid k hold
      obtain ⟨hlt, -⟩ := List.getElem?_eq_some_iff.mp hy
      exact ⟨y, (getElem?_append_left hlt).trans hy, hyv⟩
    exact ⟨p, getElem?_concat_length, hpv⟩

theorem Passing.excludeEntry (hx : x.Valid) (hs : Passing x orig s) (e : AddressRange n) :
    Passing x (orig ++ [e]) (excludeEntry x s e) := by
  unfold AddressRangeVector.excludeEntry
  split_ifs with he hover hboth hhead htail
  · exact hs.put (.none hboth.1 hboth.2) fun k hk => .inr ⟨(some.inj hk).symm, not_valid_null⟩
  · exact hs.put (.tail he hhead fun htail => hboth ⟨hhead, htail⟩) fun k hk => .inl hk
  · exact hs.put (.head he hhead htail) fun k hk => .inl hk
  · have hp := Pieces.two he hx hover hhead htail
    cases hinv : s.invalid with
    | none =>
      refine ⟨hs.excluded.add hp ?_, fun k hk => absurd hk (not_mem_none k)⟩
      rw [perm_iff_count]
      intro f
      simp only [count_append, count_cons, count_nil]
      omega
    | some k =>
      obtain ⟨y, hy, hyv⟩ := hs.invalid k hinv
      obtain ⟨pre, post, hpassed, rfl⟩ := exists_middle hy
      have hold := hs.excluded
      rw [hpassed, append_assoc, cons_append] at hold
      refine ⟨hold.drop hyv |>.add hp ?_, fun k hk => absurd hk (not_mem_none k)⟩
      dsimp only
      rw [hpassed, set_length_append, perm_iff_count]
      intro f
      simp only [count_append, count_cons, count_nil]
      omega
  · exact hs.put (.keep hover) fun k hk => .inl hk
  exact hs.put (.invalid he) fun k hk => .inr ⟨(some.inj hk).symm, he⟩

theorem foldl_excludeEntry (hx : x.Valid) (rest : AddressRangeVector n) (hs : Passing x orig s) :
    Passing x (orig ++ rest) (rest.foldl (AddressRangeVector.excludeEntry x) s) := by
  induction rest generalizing orig s with
  | nil => rwa [append_nil]
  | cons e rest ih =>
    rw [foldl_cons, ← singleton_append, ← append_assoc]
    exact ih (hs.excludeEntry hx e)

/-! ## The result -/

theorem exclude_spec (data : AddressRangeVector n) (x : AddressRange n) : Excluded x data (exclude data x) := by
  unfold exclude
  split_ifs with hx
  · have hnil : Passing x [] ⟨[], [], none⟩ := by
      refine ⟨⟨?_, fun h => h⟩, fun k hk => absurd hk (not_mem_none k)⟩
      rw [append_nil, covered_nil, empty_sdiff]
    exact (foldl_excludeEntry hx data hnil).excluded
  exact ⟨by rw [addresses_of_not_valid hx, sdiff_empty], fun h => h⟩

/-- Excluding a vector excludes the addresses that it covers. -/
theorem excludeAll_spec (data other : AddressRangeVector n) :
    covered (excludeAll data other) = covered data \ covered other ∧
      (Separate data → Separate (excludeAll data other)) := by
  induction other generalizing data with
  | nil =>
    rw [covered_nil, sdiff_empty]
    exact ⟨rfl, fun h => h⟩
  | cons x other ih =>
    obtain ⟨hcover, hseparate⟩ := ih (exclude data x)
    have hx := exclude_spec data x
    rw [hx.cover, sdiff_sdiff] at hcover
    rw [covered_cons]
    exact ⟨hcover, fun h => hseparate (hx.separate h)⟩

end AddressRangeVector

end Rpcsx.Util
