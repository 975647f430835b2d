import Rpcsx.Kernel.MemoryResource.Blocks

/-!
# `map` with `Fixed`

A call on a range that is in the resource goes through three tables: in the first the part of the
last area above the range has its own record, in the second the range is an area with the new
record, in the third that area is merged with its neighbours.
-/

namespace Rpcsx.Kernel

open Rx AllocationInfo AddressRange Option

namespace AllocableResource

variable {A : Type} [AllocationInfo A] [Inhabited A] [DecidableEq A] {t t' : Allocations A}
  {cut : A → Nat → Option A}

/-- The resource takes a fixed range: both ends are inside, and `NoOverwrite` is only asked for in
a free area. -/
def Accepts (t : Allocations A) (b e : Nat) (flags : AllocationFlags) : Prop :=
  ∃ it it' d, t.IsArea it it' d ∧ it ≤ b ∧ b < it' ∧ (t.areaOf (e - 1)).isSome = true ∧
    (flags.NoOverwrite = true → isAllocated d = false ∧ e ≤ it')

def CutAbove (cut : A → Nat → Option A) (t t₁ : Allocations A) (e : Nat) : Prop :=
  (t₁ = t ∧ ∀ k k' d, t.IsArea k k' d → k < e → e < k' → remainder cut d (e - k) = none) ∨
  ∃ k k' d d' it, t.IsArea k k' d ∧ k < e ∧ e < k' ∧ remainder cut d (e - k) = some d' ∧
    t.map ⟨e, k'⟩ d' true false = some (t₁, it)

structure Assigned (t t' : Allocations A) (b e : Nat) (info : A) : Prop where
  wf : t'.WF
  isArea : t'.IsArea b e info
  below : ∀ a, a < b → t'.areaOf a = t.areaOf a
  above : ∀ a, e ≤ a → t'.areaOf a = (t.areaOf a).map fun x => (max x.1 e, x.2)

def mergeUnless (noMerge : Bool) (t : Allocations A) (it : Nat) : Option (Allocations A × Nat) :=
  if noMerge then some (t, it) else merge t it

theorem place_eq (t : Allocations A) (it : Nat) (r : AddressRange) (info : A)
    (flags : AllocationFlags) : place t it r info flags = (assign t it r info).bind fun x =>
        (mergeUnless flags.NoMerge x.1 x.2).map fun y => (y.1, ⟨some y.2, none, r⟩) := by
  unfold place mergeUnless
  congr 1
  funext x
  cases flags.NoMerge with
  | true => rfl
  | false => rfl

/-- The address and the size of a fixed range, as the calls pass them. -/
structure FixedCall (b e : Nat) (flags : AllocationFlags) (alignment : Nat) : Prop where
  lt : b < e
  bound : e < 0x10000000000000000
  fixed : flags.Fixed = true
  notDry : flags.Dry = false
  aligned : (if flags.Stack then alignDown b alignment else alignUp b alignment) = b

namespace FixedCall

variable {b e alignment : Nat} {flags : AllocationFlags} (h : FixedCall b e flags alignment)

include h

theorem fixedRange_eq : fromBeginSize b (e - b) = ⟨b, e⟩ := by
  have := h.lt
  rw [fromBeginSize, Nat.add_sub_cancel' this.le, u64_of_lt h.bound]

theorem last_eq : u64Sub (u64 (b + (e - b))) 1 = e - 1 := by
  have := h.lt
  rw [Nat.add_sub_cancel' this.le, u64_of_lt h.bound, u64Sub_of_le (by omega)]

theorem trimRange_eq : trimRange (e - b) alignment flags ⟨b, e⟩ = ⟨b, e⟩ := by
  have := h.lt
  rw [trimRange, if_neg]
  rw [size, u64Sub_of_le this.le]
  exact lt_irrefl _

end FixedCall

variable {b e alignment : Nat} {flags : AllocationFlags} (info : A)

theorem map_eq_mapFixed (hcall : FixedCall b e flags alignment) (hwf : t.WF) {it it' : Nat} {d : A}
    (hit : t.IsArea it it' d) (h1 : it ≤ b) (h2 : b < it') :
    map t b (e - b) info flags alignment = mapFixed t it b (e - b) info flags alignment := by
  unfold map
  simp only [hcall.aligned, hcall.fixed, if_true, hwf.queryArea_eq, hit.areaOf_eq h1 h2, map_some]

/-- A range that is not taken is refused, and nothing changes. -/
theorem map_of_not_accepts (hcall : FixedCall b e flags alignment) (hwf : t.WF) (hacc : ¬ Accepts t b e flags) :
    ∃ errc, map t b (e - b) info flags alignment = some (t, .failed errc) := by
  cases hb : t.areaOf b with
  | none =>
    refine ⟨.invalid_argument, ?_⟩
    unfold map
    simp only [hcall.aligned, hcall.fixed, if_true, hwf.queryArea_eq, hb, map_none]
  | some x =>
    obtain ⟨it', hit, h1, h2⟩ := hwf.areaOf_eq_some.mp hb
    rw [map_eq_mapFixed info hcall hwf hit h1 h2, mapFixed, hcall.last_eq, hwf.queryArea_eq]
    cases he : t.areaOf (e - 1) with
    | none => exact ⟨.not_enough_memory, rfl⟩
    | some y =>
      refine ⟨.file_exists, ?_⟩
      simp only [map_some, hit.get?_eq, hit.range?_eq, bind_eq_bind, bind_some, hcall.fixedRange_eq]
      rw [if_pos]
      · rfl
      by_contra hcon
      refine hacc ⟨x.1, it', x.2, hit, h1, h2, by rw [he]; rfl, fun hno => ?_⟩
      rw [hno] at hcon
      simp only [Bool.true_and, Bool.or_eq_true, Bool.not_eq_eq_eq_not, Bool.not_true, not_or,
        Bool.not_eq_true, Bool.not_eq_false, contains, Bool.and_eq_true,
        decide_eq_true_eq] at hcon
      exact ⟨hcon.1, hcon.2.2⟩

/-- **A range that is taken** goes through the three tables. -/
theorem map_of_accepts (hcut : CutsRight cut) (hcall : FixedCall b e flags alignment) (hwf : t.WF)
    (hacc : Accepts t b e flags) : ∃ t₁ t2, t₁.WF ∧ CutAbove cut t t₁ e ∧ Assigned t₁ t2 b e info ∧
      map t b (e - b) info flags alignment =
        (mergeUnless flags.NoMerge t2 b).map fun x => (x.1, ⟨some x.2, none, ⟨b, e⟩⟩) := by
  obtain ⟨it, it', d0, hit, h1, h2, hsome, hno⟩ := hacc
  have hbe := hcall.lt
  obtain ⟨⟨k, d⟩, hkd⟩ := isSome_iff_exists.mp hsome
  obtain ⟨k', hk, hke, hek⟩ := hwf.areaOf_eq_some.mp hkd
  have hitk : it ≤ k := by
    by_contra hlt
    have hcon := hk.areaOf_eq (a := b) (by omega) (by omega)
    rw [hit.areaOf_eq h1 h2] at hcon
    cases hcon
    exact hlt (le_refl _)
  have hall : notifyAll t it k ⟨b, e⟩ = _ := notifyAll_eq hcut hwf hit hk hitk (by omega)
  -- with `NoOverwrite` the area is free, so that nothing would have been cut either
  have hnotify : notify t it k ⟨b, e⟩ flags = notifyAll t it k ⟨b, e⟩ := by
    unfold notify
    rw [hcall.notDry, Bool.or_false]
    split
    · next hno' =>
      obtain ⟨hfree, hle⟩ := hno hno'
      have hcon := hit.areaOf_eq (a := e - 1) (by omega) (by omega)
      rw [hkd] at hcon
      cases hcon
      rw [hall, remainder, hfree]
      simp
    rfl
  have hnot : (flags.NoOverwrite && (isAllocated d0 || !(AddressRange.mk it it').contains ⟨b, e⟩)) = false := by
    cases hflag : flags.NoOverwrite with
    | false => rfl
    | true =>
      obtain ⟨hfree, hle⟩ := hno hflag
      simp [hfree, contains, h1, hle]
  -- the first table
  obtain ⟨t₁, hn, hwf1, hcutAbove, ⟨jt, d1, hit1⟩⟩ : ∃ t₁, notify t it k ⟨b, e⟩ flags = some t₁ ∧
      t₁.WF ∧ CutAbove cut t t₁ e ∧ ∃ jt d1, t₁.IsArea it jt d1 := by
    rw [hnotify, hall]
    have hsame : ∀ j j' dj, t.IsArea j j' dj → j < e → e < j' → j = k ∧ j' = k' ∧ dj = d := by
      intro j j' dj hj hj1 hj2
      have hcon := hj.areaOf_eq (a := e - 1) (by omega) (by omega)
      rw [hkd] at hcon
      cases hcon
      exact ⟨rfl, (hj.unique hk).1, rfl⟩
    cases hrem : (if e < k' then remainder cut d (e - k) else none) with
    | none =>
      refine ⟨t, rfl, hwf, Or.inl ⟨rfl, fun j j' dj hj hj1 hj2 => ?_⟩, it', d0, hit⟩
      obtain ⟨rfl, rfl, rfl⟩ := hsame j j' dj hj hj1 hj2
      simpa [hj2] using hrem
    | some d' =>
      have hek' : e < k' := by
        by_contra hle
        simp [hle] at hrem
      rw [if_pos hek'] at hrem
      obtain ⟨t₁, hmap, hwf1, harea1⟩ := hwf.map_spec hek' d' true
      refine ⟨t₁, by simp only [hmap, map_some], hwf1, Or.inr ⟨k, k', d, d', _, hk, by omega, hek', hrem, hmap⟩, ?_⟩
      have hitarea : t₁.areaOf it = some (it, d0) := by
        rw [harea1, MemoryTableWithPayload.mappedArea, if_pos (by omega), hit.areaOf_begin]
      obtain ⟨jt, hjt, -, -⟩ := hwf1.areaOf_eq_some.mp hitarea
      exact ⟨jt, d0, hjt⟩
  obtain ⟨t2, hassign, hwf2, harea2, hbelow, habove⟩ := assign_spec hwf1 hit1 hbe info
  refine ⟨t₁, t2, hwf1, hcutAbove, ⟨hwf2, harea2, hbelow, habove⟩, ?_⟩
  rw [map_eq_mapFixed info hcall hwf hit h1 h2, mapFixed, hcall.last_eq, hwf.queryArea_eq, hkd]
  simp only [map_some, hit.get?_eq, hit.range?_eq, bind_eq_bind, bind_some, hcall.fixedRange_eq]
  rw [hnot, if_neg (by simp), hn, bind_some, hcall.trimRange_eq, hcall.notDry,
    if_neg (by simp), place_eq, hassign, bind_some]

end AllocableResource

end Rpcsx.Kernel
