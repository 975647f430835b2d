import Mathlib.Algebra.Group.Fin.Basic
import Mathlib.Data.List.Perm.Basic
import Mathlib.Data.List.Pairwise
import Rpcsx.Util.AddressRange.Basic

/-!
# Ranges as sets of addresses

The addresses of a range, and those that a vector covers. Two valid ranges are near if they overlap or
one begins right behind the other; the source takes two ranges to touch also where one ends at the
greatest address and the other begins at zero.
-/

namespace Rpcsx.Util

open AddressRange

variable {n : Nat} {a : Address n} {r other e f : AddressRange n}

namespace AddressRange

def addresses (r : AddressRange n) : Set (Address n) := Set.Icc r.start r.last

/-- The ranges overlap, or one begins right behind the other. -/
def Near (r other : AddressRange n) : Prop :=
  r.start.val ≤ other.last.val + 1 ∧ other.start.val ≤ r.last.val + 1

instance (r other : AddressRange n) : Decidable (r.Near other) :=
  inferInstanceAs (Decidable (_ ∧ _))

local instance (priority := 2000) neZero : NeZero (n + 2) := ⟨by omega⟩

/-- One range ends at the greatest address, and the other begins at zero. -/
def Wraps (r other : AddressRange n) : Prop :=
  r.last = umax ∧ other.start = 0 ∨ r.start = 0 ∧ other.last = umax

instance (r other : AddressRange n) : Decidable (r.Wraps other) :=
  inferInstanceAs (Decidable (_ ∨ _))

theorem mem_addresses : a ∈ r.addresses ↔ r.start.val ≤ a.val ∧ a.val ≤ r.last.val := Iff.rfl

theorem valid_iff : r.Valid ↔ r.start.val ≤ r.last.val := Iff.rfl

theorem valid_of_mem (h : a ∈ r.addresses) : r.Valid := le_trans h.1 h.2

theorem not_valid_null : ¬(null : AddressRange n).Valid := by
  rw [valid_iff]
  change ¬(n + 1 ≤ 0)
  omega

theorem val_umax : (umax : Address n).val = n + 1 := rfl

theorem eq_umax_iff : a = umax ↔ a.val = n + 1 := Fin.ext_iff

theorem eq_zero_iff : a = 0 ↔ a.val = 0 := Fin.ext_iff

theorem Near.symm (h : r.Near other) : other.Near r := ⟨h.2, h.1⟩

theorem Wraps.symm (h : r.Wraps other) : other.Wraps r := h.elim (fun h => .inr ⟨h.2, h.1⟩) fun h => .inl ⟨h.2, h.1⟩

theorem val_nextAddress : r.nextAddress.val = if r.last.val = n + 1 then 0 else r.last.val + 1 := by
  rw [nextAddress, Fin.val_add_one]
  simp only [Fin.ext_iff, Fin.val_last]

theorem val_prevAddress : r.prevAddress.val = if r.start.val = 0 then n + 1 else r.start.val - 1 := by
  rw [prevAddress, Fin.coe_sub_one]
  simp only [Fin.ext_iff, Fin.val_zero]

/-- What it is to touch, without the arithmetic that wraps around. -/
theorem touches_iff : r.Touches other ↔
    r.Overlaps other ∨ other.start.val = r.last.val + 1 ∨ r.start.val = other.last.val + 1 ∨ r.Wraps other := by
  have hfirst := other.start.isLt
  have hlast := other.last.isLt
  unfold Touches Wraps Overlaps
  rw [Fin.ext_iff, Fin.ext_iff, val_nextAddress, val_prevAddress, eq_umax_iff, eq_umax_iff,
    eq_zero_iff, eq_zero_iff, Fin.le_def, Fin.le_def]
  split_ifs <;> omega

/-- Valid ranges touch if they are near, or at the two ends of the addresses. -/
theorem touches_iff_near (hr : r.Valid) (ho : other.Valid) : r.Touches other ↔ r.Near other ∨ r.Wraps other := by
  rw [touches_iff]
  unfold Overlaps Near
  rw [Fin.le_def, Fin.le_def]
  rw [valid_iff] at hr ho
  constructor
  · rintro (h | h | h | h)
    · exact .inl (by omega)
    · exact .inl (by omega)
    · exact .inl (by omega)
    · exact .inr h
  rintro (h | h)
  · omega
  · exact .inr (.inr (.inr h))

theorem near_of_mem {b : Address n} (ha : a ∈ r.addresses) (hb : b ∈ other.addresses)
    (hab : a.val ≤ b.val + 1) (hba : b.val ≤ a.val + 1) : r.Near other := by
  rw [mem_addresses] at ha hb
  unfold Near
  omega

/-- Near ranges have addresses that are the same or next to each other. -/
theorem Near.exists_mem (h : r.Near other) (hr : r.Valid) (ho : other.Valid) :
    ∃ a ∈ r.addresses, ∃ b ∈ other.addresses, a.val ≤ b.val + 1 ∧ b.val ≤ a.val + 1 := by
  obtain ⟨h1, h2⟩ := h
  rw [valid_iff] at hr ho
  -- the later of the two beginnings, or the one end before it
  by_cases hle : r.start.val ≤ other.start.val
  · by_cases hmeet : other.start.val ≤ r.last.val
    · exact ⟨other.start, ⟨hle, hmeet⟩, other.start, ⟨le_rfl, ho⟩, by omega, by omega⟩
    · exact ⟨r.last, ⟨hr, le_rfl⟩, other.start, ⟨le_rfl, ho⟩, by omega, by omega⟩
  by_cases hmeet : r.start.val ≤ other.last.val
  · exact ⟨r.start, ⟨le_rfl, hr⟩, r.start, ⟨show other.start.val ≤ r.start.val by omega, hmeet⟩, by omega, by omega⟩
  · exact ⟨r.start, ⟨le_rfl, hr⟩, other.last, ⟨ho, le_rfl⟩, by omega, by omega⟩

theorem Overlaps.exists_mem (h : r.Overlaps other) (hr : r.Valid) (ho : other.Valid) :
    ∃ a ∈ other.addresses, a ∈ r.addresses :=
  ⟨max r.start other.start, ⟨le_max_right _ _, max_le h.1 ho⟩, le_max_left _ _, max_le hr h.2⟩

theorem getMinMax_of_valid (hr : r.Valid) (ho : other.Valid) :
    r.getMinMax other = ⟨min r.start other.start, max r.last other.last⟩ := by
  rw [getMinMax, if_pos hr, if_pos hr, if_pos ho, if_pos ho]

theorem inside_getMinMax_left (hr : r.Valid) (ho : other.Valid) : r.Inside (r.getMinMax other) := by
  rw [getMinMax_of_valid hr ho]
  exact ⟨min_le_left _ _, le_max_left _ _⟩

theorem inside_getMinMax_right (hr : r.Valid) (ho : other.Valid) : other.Inside (r.getMinMax other) := by
  rw [getMinMax_of_valid hr ho]
  exact ⟨min_le_right _ _, le_max_right _ _⟩

section

variable (h : r.Inside other)

include h

theorem Inside.trans (h' : other.Inside e) : r.Inside e := ⟨h'.1.trans h.1, h.2.trans h'.2⟩

theorem Inside.valid (hr : r.Valid) : other.Valid := (h.1.trans hr).trans h.2

theorem Inside.subset : r.addresses ⊆ other.addresses := Set.Icc_subset_Icc h.1 h.2

theorem Inside.antisymm (h' : other.Inside r) : r = other :=
  AddressRange.ext (le_antisymm h'.1 h.1) (le_antisymm h.2 h'.2)

theorem Inside.near (hr : r.Valid) : r.Near other :=
  near_of_mem ⟨le_rfl, hr⟩ (h.subset ⟨le_rfl, hr⟩) (Nat.le_succ _) (Nat.le_succ _)

end

/-- The hull of near ranges has no other addresses. -/
theorem addresses_getMinMax (h : r.Near other) (hr : r.Valid) (ho : other.Valid) :
    (r.getMinMax other).addresses = r.addresses ∪ other.addresses := by
  obtain ⟨h1, h2⟩ := h
  rw [getMinMax_of_valid hr ho]
  rw [valid_iff] at hr ho
  ext a
  rw [Set.mem_union, mem_addresses, mem_addresses, mem_addresses, Fin.coe_min, Fin.coe_max]
  omega

/-- Two ranges that are not near, unless one of them is invalid. -/
def Apart (r other : AddressRange n) : Prop := r.Valid → other.Valid → ¬r.Near other

theorem Apart.symm (h : r.Apart other) : other.Apart r := fun ho hr hnear => h hr ho hnear.symm

instance : Std.Symm (Apart (n := n)) := ⟨fun _ _ h => h.symm⟩

theorem apart_of_not_valid (h : ¬other.Valid) : r.Apart other := fun _ ho => absurd ho h

/-- A range is apart from what is made of ranges that it is apart from. -/
theorem Apart.of_subset {s : Set (Address n)} (hs : other.addresses ⊆ s)
    (h : ∀ a ∈ s, ∃ g : AddressRange n, a ∈ g.addresses ∧ r.Apart g) : r.Apart other := by
  intro hr ho hnear
  obtain ⟨a, ha, b, hb, hab, hba⟩ := hnear.exists_mem hr ho
  obtain ⟨g, hg, hapart⟩ := h b (hs hb)
  exact hapart hr (valid_of_mem hg) (near_of_mem ha hg hab hba)

/-- Two ranges that are not at the two ends of the addresses, unless one of them is invalid. -/
def EndsApart (r other : AddressRange n) : Prop := r.Valid → other.Valid → ¬r.Wraps other

instance : Std.Symm (EndsApart (n := n)) := ⟨fun _ _ h ho hr hwrap => h hr ho hwrap.symm⟩

end AddressRange

namespace AddressRangeVector

variable {data data' : AddressRangeVector n}

/-- The addresses that the entries cover; an invalid entry has none. -/
def covered (data : AddressRangeVector n) : Set (Address n) := {a | ∃ e ∈ data, a ∈ e.addresses}

theorem mem_covered : a ∈ covered data ↔ ∃ e ∈ data, a ∈ e.addresses := Iff.rfl

@[simp] theorem covered_nil : covered ([] : AddressRangeVector n) = ∅ := by
  ext a
  simp [mem_covered]

@[simp] theorem covered_cons : covered (e :: data) = e.addresses ∪ covered data := by
  ext a
  simp [mem_covered]

@[simp] theorem covered_append : covered (data ++ data') = covered data ∪ covered data' := by
  ext a
  simp [mem_covered, or_and_right, exists_or]

theorem covered_perm (h : data.Perm data') : covered data = covered data' := by
  ext a
  simp only [mem_covered, h.mem_iff]

theorem addresses_of_not_valid (h : ¬e.Valid) : e.addresses = ∅ :=
  Set.eq_empty_of_forall_notMem fun _ ha => h (valid_of_mem ha)

/-- No two entries are near. -/
def Separate (data : AddressRangeVector n) : Prop := data.Pairwise Apart

/-- No two entries are at the two ends of the addresses. -/
def Unwrapped (data : AddressRangeVector n) : Prop := data.Pairwise EndsApart

/-- What `check_consistency` checks. -/
theorem checkConsistency_iff : checkConsistency data ↔ Separate data ∧ Unwrapped data := by
  induction data with
  | nil => exact iff_of_true rfl ⟨.nil, .nil⟩
  | cons e data ih =>
    have hhead : (!e.Valid || data.all fun f => !f.Valid || !e.Touches f) ↔
        (∀ f ∈ data, e.Apart f) ∧ ∀ f ∈ data, e.EndsApart f := by
      simp only [Bool.or_eq_true, Bool.not_eq_true', decide_eq_false_iff_not, List.all_eq_true]
      constructor
      · intro h
        have htouch (f : AddressRange n) (hf : f ∈ data) (he : e.Valid) (hfv : f.Valid) :
            ¬e.Touches f := (h.resolve_left (not_not_intro he) f hf).resolve_left (not_not_intro hfv)
        exact ⟨fun f hf he hfv hnear => htouch f hf he hfv ((touches_iff_near he hfv).mpr (.inl hnear)),
          fun f hf he hfv hwrap => htouch f hf he hfv ((touches_iff_near he hfv).mpr (.inr hwrap))⟩
      rintro ⟨hapart, hwrap⟩
      refine (em e.Valid).symm.imp_right fun he f hf => (em f.Valid).symm.imp_right fun hfv => ?_
      rw [touches_iff_near he hfv]
      exact not_or.mpr ⟨hapart f hf he hfv, hwrap f hf he hfv⟩
    rw [checkConsistency, Bool.and_eq_true, ih, hhead, Separate, Separate, Unwrapped, Unwrapped,
      List.pairwise_cons, List.pairwise_cons, and_and_and_comm]

theorem separate_perm (h : data.Perm data') : Separate data ↔ Separate data' := h.pairwise_iff fun h => h.symm

end AddressRangeVector

end Rpcsx.Util
