import Rpcsx.Util.AddressRange.Cover

/-!
# Merging a range

The loop of `merge` either passes only entries that do not touch the new range, or the first one that
does takes up the new range and all the other entries that touch it.
-/

namespace Rpcsx.Util

namespace AddressRangeVector

open AddressRange List Set

variable {n : Nat} {r e h x : AddressRange n} {orig pre post data : AddressRangeVector n}
  {s : Merging n}

/-! ## Vectors with an entry at a position -/

theorem separate_middle : Separate (pre ++ h :: post) ↔ (∀ f ∈ pre ++ post, h.Apart f) ∧ Separate (pre ++ post) :=
  (separate_perm perm_middle).trans pairwise_cons

theorem covered_middle : covered (pre ++ h :: post) = h.addresses ∪ covered (pre ++ post) :=
  (covered_perm perm_middle).trans covered_cons

theorem covered_concat : covered (data ++ [e]) = covered data ∪ e.addresses := by
  rw [covered_append, covered_cons, covered_nil, union_empty]

theorem separate_concat : Separate (data ++ [e]) ↔ Separate data ∧ ∀ f ∈ data, f.Apart e := by
  unfold Separate
  rw [pairwise_append]
  simp

theorem set_length_append (y : AddressRange n) : (pre ++ x :: post).set pre.length y = pre ++ y :: post := by simp

theorem modify_length_append (g : AddressRange n → AddressRange n) :
    (pre ++ x :: post).modify pre.length g = pre ++ g x :: post := by
  induction pre with
  | nil => rfl
  | cons y pre ih => exact congrArg (y :: ·) ih

/-- The entry at a position. -/
theorem exists_middle {k : Nat} (hk : data[k]? = some x) : ∃ pre post, data = pre ++ x :: post ∧ pre.length = k := by
  obtain ⟨hlt, hx⟩ := List.getElem?_eq_some_iff.mp hk
  refine ⟨data.take k, data.drop (k + 1), ?_, length_take_of_le hlt.le⟩
  rw [← hx, getElem_cons_drop, take_append_drop]

/-! ## The loop -/

structure Untaken (r : AddressRange n) (orig : AddressRangeVector n) (s : Merging n) : Prop where
  found : s.found = none
  passed : s.passed = orig
  not_touches : ∀ e ∈ orig, e.Valid → ¬e.Touches r
  invalid : ∀ k ∈ s.invalid, ∃ x, orig[k]? = some x ∧ ¬x.Valid

/-- What touches the new range is near to it, and the entries are apart. -/
structure Mergeable (r : AddressRange n) (data : AddressRangeVector n) : Prop where
  near : ∀ e ∈ data, e.Valid → e.Touches r → e.Near r
  separate : Separate data

theorem Mergeable.of_append {rest : AddressRangeVector n} (hm : Mergeable r (orig ++ rest)) : Mergeable r orig :=
  ⟨fun e he => hm.near e (mem_append_left _ he), (pairwise_append.mp hm.separate).1⟩

structure Taken (r : AddressRange n) (orig : AddressRangeVector n) (s : Merging n)
    (pre : AddressRangeVector n) (h : AddressRange n) (post : AddressRangeVector n) : Prop where
  found : s.found = some pre.length
  passed : s.passed = pre ++ h :: post
  valid : h.Valid
  inside_new : r.Inside h
  inside : ∀ e ∈ orig, e.Valid → e.Touches r → e.Inside h
  others : ∀ f ∈ pre ++ post, f.Valid → f ∈ orig
  cover : Mergeable r orig → covered s.passed = covered orig ∪ r.addresses
  separate : Mergeable r orig → Separate s.passed

theorem Mergeable.apart (hm : Mergeable r (orig ++ [e])) {f : AddressRange n} (hf : f ∈ orig) : f.Apart e :=
  (separate_concat.mp hm.separate).2 f hf

/-- An entry that does not touch the new range is apart from it. -/
theorem apart_of_not_touches (hr : r.Valid) (hn : e.Valid → ¬e.Touches r) : e.Apart r :=
  fun he _ hnear => hn he ((touches_iff_near he hr).mpr (.inl hnear))

theorem mergeEntry_untaken (hr : r.Valid) (hs : Untaken r orig s) (e : AddressRange n) :
    Untaken r (orig ++ [e]) (mergeEntry r s e) ∨ ∃ pre h post, Taken r (orig ++ [e]) (mergeEntry r s e) pre h post := by
  have hkeep (k : Nat) (hk : k ∈ s.invalid) : ∃ x, (orig ++ [e])[k]? = some x ∧ ¬x.Valid := by
    obtain ⟨x, hx, hxv⟩ := hs.invalid k hk
    obtain ⟨hlt, -⟩ := List.getElem?_eq_some_iff.mp hx
    exact ⟨x, (getElem?_append_left hlt).trans hx, hxv⟩
  unfold mergeEntry
  split_ifs with hvalid htouch
  · -- the first entry that touches the new range
    rw [hs.found]
    have hapart (f : AddressRange n) (hf : f ∈ orig) : f.Apart r := apart_of_not_touches hr (hs.not_touches f hf)
    have hpassed : s.passed ++ [e.getMinMax r] = orig ++ e.getMinMax r :: [] := congrArg (· ++ _) hs.passed
    refine .inr ⟨orig, e.getMinMax r, [], ⟨congrArg (fun l => some l.length) hs.passed, hpassed,
      (inside_getMinMax_left hvalid hr).valid hvalid, inside_getMinMax_right hvalid hr, ?_, ?_, ?_,
      ?_⟩⟩
    · rw [forall_mem_append, forall_mem_singleton]
      exact ⟨fun f hf hfv hft => absurd hft (hs.not_touches f hf hfv), fun _ _ => inside_getMinMax_left hvalid hr⟩
    · intro f hf _
      rw [append_nil] at hf
      exact mem_append_left _ hf
    · intro hm
      have hnear := hm.near e (mem_append_right _ (mem_singleton_self e)) hvalid htouch
      rw [hpassed, covered_concat, covered_concat, addresses_getMinMax hnear hvalid hr, union_assoc]
    intro hm
    have hnear := hm.near e (mem_append_right _ (mem_singleton_self e)) hvalid htouch
    rw [hpassed, separate_concat]
    refine ⟨hm.of_append.separate, fun f hf => ?_⟩
    refine .of_subset (addresses_getMinMax hnear hvalid hr).subset ?_
    rintro a (ha | ha)
    · exact ⟨e, ha, hm.apart hf⟩
    · exact ⟨r, ha, hapart f hf⟩
  · refine .inl ⟨hs.found, congrArg (· ++ [e]) hs.passed, ?_, hkeep⟩
    rw [forall_mem_append, forall_mem_singleton]
    exact ⟨hs.not_touches, fun _ => htouch⟩
  refine .inl ⟨hs.found, congrArg (· ++ [e]) hs.passed, ?_, ?_⟩
  · rw [forall_mem_append, forall_mem_singleton]
    exact ⟨hs.not_touches, fun hv => absurd hv hvalid⟩
  rintro k ⟨⟩
  refine ⟨e, ?_, hvalid⟩
  rw [hs.passed, getElem?_concat_length]

/-- An entry that is passed and stays as it is. -/
theorem Taken.pass (hr : r.Valid) (hs : Taken r orig s pre h post) (hn : e.Valid → ¬e.Touches r)
    {invalid : Option Nat} : Taken r (orig ++ [e]) ⟨s.passed ++ [e], s.found, invalid⟩ pre h (post ++ [e]) where
  found := hs.found
  passed := by rw [hs.passed, append_assoc, cons_append]
  valid := hs.valid
  inside_new := hs.inside_new
  inside := by
    rw [forall_mem_append, forall_mem_singleton]
    exact ⟨hs.inside, fun hv ht => absurd ht (hn hv)⟩
  others := by
    rw [← append_assoc, forall_mem_append, forall_mem_singleton]
    exact ⟨fun f hf hfv => mem_append_left _ (hs.others f hf hfv), fun _ => mem_append_right _ (mem_singleton_self e)⟩
  cover hm := by rw [covered_append, hs.cover hm.of_append, covered_append, union_right_comm]
  separate hm := by
    rw [separate_concat]
    refine ⟨hs.separate hm.of_append, fun f hf => ?_⟩
    -- everything that has been passed is made of the entries before and of the new range
    have hsub : f.addresses ⊆ covered orig ∪ r.addresses := by
      rw [← hs.cover hm.of_append]
      exact fun a ha => ⟨f, hf, ha⟩
    refine (Apart.of_subset hsub ?_).symm
    rintro a (⟨g, hg, ha⟩ | ha)
    · exact ⟨g, ha, (hm.apart hg).symm⟩
    · exact ⟨r, ha, apart_of_not_touches hr hn⟩

/-- Another entry that touches the new range is taken up. -/
theorem Taken.absorb (hs : Taken r orig s pre h post) (he : e.Valid) (ht : e.Touches r) : Taken r (orig ++ [e])
      ⟨s.passed.modify pre.length (·.getMinMax e) ++ [null], s.found, s.invalid⟩
      pre (h.getMinMax e) (post ++ [null]) := by
  have hpassed : s.passed.modify pre.length (·.getMinMax e) ++ [null] = pre ++ h.getMinMax e :: (post ++ [null]) := by
    rw [hs.passed, modify_length_append, append_assoc, cons_append]
  have hinside := inside_getMinMax_left hs.valid he
  have hnear (hm : Mergeable r (orig ++ [e])) : h.Near e := by
    have hnew := hm.near e (mem_append_right _ (mem_singleton_self e)) he ht
    obtain ⟨hstart, hlast⟩ := hs.inside_new
    rw [Fin.le_def] at hstart hlast
    exact ⟨hstart.trans hnew.2, hnew.1.trans (Nat.succ_le_succ hlast)⟩
  refine ⟨hs.found, hpassed, hinside.valid hs.valid, hs.inside_new.trans hinside, ?_, ?_, ?_, ?_⟩
  · rw [forall_mem_append, forall_mem_singleton]
    exact ⟨fun f hf hfv hft => (hs.inside f hf hfv hft).trans hinside, fun _ _ => inside_getMinMax_right hs.valid he⟩
  · rw [← append_assoc, forall_mem_append, forall_mem_singleton]
    exact ⟨fun f hf hfv => mem_append_left _ (hs.others f hf hfv), fun hv => absurd hv not_valid_null⟩
  · intro hm
    have hcover := hs.cover hm.of_append
    rw [hs.passed, covered_middle] at hcover
    rw [hpassed, covered_middle, addresses_getMinMax (hnear hm) hs.valid he, ← append_assoc,
      covered_concat, addresses_of_not_valid not_valid_null, union_empty, union_right_comm,
      hcover, covered_concat, union_right_comm]
  intro hm
  have hseparate := hs.separate hm.of_append
  rw [hs.passed, separate_middle] at hseparate
  obtain ⟨hhull, hothers⟩ := hseparate
  rw [hpassed, separate_middle, ← append_assoc, separate_concat]
  refine ⟨?_, hothers, fun f _ => apart_of_not_valid not_valid_null⟩
  rw [forall_mem_append, forall_mem_singleton]
  refine ⟨fun f hf => ?_, apart_of_not_valid not_valid_null⟩
  refine (Apart.of_subset (addresses_getMinMax (hnear hm) hs.valid he).subset ?_).symm
  rintro a (ha | ha)
  · exact ⟨h, ha, (hhull f hf).symm⟩
  · exact ⟨e, ha, fun hfv => hm.apart (hs.others f hf hfv) hfv⟩

theorem mergeEntry_taken (hr : r.Valid) (hs : Taken r orig s pre h post) (e : AddressRange n) :
    ∃ pre h post, Taken r (orig ++ [e]) (mergeEntry r s e) pre h post := by
  unfold mergeEntry
  split_ifs with hvalid htouch
  · have habsorb := hs.absorb hvalid htouch
    rw [hs.found] at habsorb ⊢
    exact ⟨pre, _, _, habsorb⟩
  · exact ⟨pre, h, _, hs.pass hr fun _ => htouch⟩
  exact ⟨pre, h, _, hs.pass hr fun hv => absurd hv hvalid⟩

theorem foldl_mergeEntry (hr : r.Valid) (rest : AddressRangeVector n)
    (hs : Untaken r orig s ∨ ∃ pre h post, Taken r orig s pre h post) :
    Untaken r (orig ++ rest) (rest.foldl (mergeEntry r) s) ∨
      ∃ pre h post, Taken r (orig ++ rest) (rest.foldl (mergeEntry r) s) pre h post := by
  induction rest generalizing orig s with
  | nil => rwa [append_nil]
  | cons e rest ih =>
    rw [foldl_cons, ← singleton_append, ← append_assoc]
    refine ih ?_
    rcases hs with hs | ⟨pre, h, post, hs⟩
    · exact mergeEntry_untaken hr hs e
    · exact .inr (mergeEntry_taken hr hs e)

/-! ## The result -/

/-- A range in the place of an invalid entry. -/
theorem covered_replace (hx : ¬x.Valid) : covered (pre ++ r :: post) = covered (pre ++ x :: post) ∪ r.addresses := by
  rw [covered_middle, covered_middle, addresses_of_not_valid hx, empty_union, union_comm]

theorem separate_replace (hapart : ∀ f ∈ pre ++ x :: post, f.Apart r)
    (hs : Separate (pre ++ x :: post)) : Separate (pre ++ r :: post) := by
  rw [separate_middle] at hs ⊢
  refine ⟨fun f hf => (hapart f ?_).symm, hs.2⟩
  rw [mem_append] at hf ⊢
  exact hf.imp_right (mem_cons_of_mem x)

theorem foldl_mergeEntry_nil (hr : r.Valid) (data : AddressRangeVector n) :
    Untaken r data (data.foldl (mergeEntry r) ⟨[], none, none⟩) ∨
      ∃ pre h post, Taken r data (data.foldl (mergeEntry r) ⟨[], none, none⟩) pre h post := by
  have hnil : Untaken r [] ⟨[], none, none⟩ :=
    ⟨rfl, rfl, fun _ he => absurd he not_mem_nil, fun _ hk => absurd hk (Option.not_mem_none _)⟩
  exact foldl_mergeEntry hr data (.inl hnil)

/-- Merging adds the addresses of the range, and keeps the entries apart. -/
theorem merge_spec (hm : Mergeable r data) :
    covered (merge data r) = covered data ∪ r.addresses ∧ Separate (merge data r) := by
  unfold merge
  split_ifs with hr
  · dsimp only
    rcases foldl_mergeEntry_nil hr data with hs | ⟨pre, h, post, hs⟩
    · have hapart (f : AddressRange n) (hf : f ∈ data) : f.Apart r := apart_of_not_touches hr (hs.not_touches f hf)
      rw [hs.found, hs.passed]
      cases hinv : (data.foldl (mergeEntry r) ⟨[], none, none⟩).invalid with
      | none => exact ⟨covered_concat, separate_concat.mpr ⟨hm.separate, hapart⟩⟩
      | some k =>
        obtain ⟨x, hx, hxv⟩ := hs.invalid k hinv
        obtain ⟨pre, post, rfl, rfl⟩ := exists_middle hx
        dsimp only
        rw [set_length_append]
        exact ⟨covered_replace hxv, separate_replace hapart hm.separate⟩
    rw [hs.found]
    exact ⟨hs.cover hm, hs.separate hm⟩
  exact ⟨by rw [addresses_of_not_valid hr, union_empty], hm.separate⟩

/-- What touches the new range ends up in one entry with it. -/
theorem exists_hull (hr : r.Valid) (he : e ∈ data) (hv : e.Valid) (ht : e.Touches r) :
    ∃ h ∈ merge data r, r.Inside h ∧ e.Inside h := by
  unfold merge
  rw [if_neg (not_not_intro hr)]
  rcases foldl_mergeEntry_nil hr data with hs | ⟨pre, h, post, hs⟩
  · exact absurd ht (hs.not_touches e he hv)
  dsimp only
  rw [hs.found]
  refine ⟨h, ?_, hs.inside_new, hs.inside e he hv ht⟩
  rw [hs.passed]
  exact mem_append_right _ mem_cons_self

end AddressRangeVector

end Rpcsx.Util
