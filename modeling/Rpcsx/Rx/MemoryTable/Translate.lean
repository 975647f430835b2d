import Rpcsx.Lib.Bytes
import Rpcsx.Rx.MemoryTable.Areas

/-!
# Tables as address translations

A table whose payloads hold a base address translates addresses: inside an area the translation is
linear, `base + (a - begin)`. The bytes a table translates to are counted with multiplicity, so that
a table is known to be injective as soon as that multiset has no duplicates.
-/

namespace Rpcsx.Rx

open Lib List

namespace MemoryTableWithPayload

variable {T : Type} {t t' : MemoryTableWithPayload T} {base : T → Nat}

def addresses (t : MemoryTableWithPayload T) : Multiset Nat :=
  (t.areas.map fun x => bytes x.1.beginAddress x.1.endAddress).sum

def translate (t : MemoryTableWithPayload T) (base : T → Nat) (a : Nat) : Option Nat :=
  (t.areaOf a).map fun x => base x.2 + (a - x.1)

def translated (t : MemoryTableWithPayload T) (base : T → Nat) : Multiset Nat :=
  (t.areas.map fun x => bytes (base x.2) (base x.2 + (x.1.endAddress - x.1.beginAddress))).sum

theorem WF.mem_addresses (hwf : t.WF) {a : Nat} : a ∈ t.addresses ↔ (t.areaOf a).isSome := by
  rw [addresses, mem_sum_map, Option.isSome_iff_exists]
  constructor
  · rintro ⟨⟨r, d⟩, hx, ha⟩
    rw [mem_bytes] at ha
    exact ⟨_, (hwf.mem_areas.mp hx).areaOf_eq ha.1 ha.2⟩
  rintro ⟨⟨k, d⟩, ha⟩
  obtain ⟨k', harea, h1, h2⟩ := hwf.areaOf_eq_some.mp ha
  exact ⟨(⟨k, k'⟩, d), hwf.mem_areas.mpr harea, mem_bytes.mpr ⟨h1, h2⟩⟩

theorem WF.nodup_addresses (hwf : t.WF) : t.addresses.Nodup := by
  refine nodup_of_pairwise_disjoint (fun x _ => nodup_bytes _ _) (hwf.areas_pairwise.imp ?_)
  intro x y hxy a hax hay
  rw [mem_bytes] at hax hay
  omega

/-- The number of mapped addresses is the total size of the areas. -/
theorem card_addresses (t : MemoryTableWithPayload T) :
    t.addresses.card = (t.areas.map fun x => x.1.endAddress - x.1.beginAddress).sum := by
  unfold addresses
  induction t.areas with
  | nil => rfl
  | cons x l ih => simp [ih]

/-- Area by area or address by address, the bytes are the same. -/
theorem WF.translated_eq (hwf : t.WF) : t.translated base = t.addresses.map fun a => (t.translate base a).getD 0 := by
  have hmap : ∀ l : List (AddressRange × T), (∀ x ∈ l, x ∈ t.areas) →
      (l.map fun x => bytes (base x.2) (base x.2 + (x.1.endAddress - x.1.beginAddress))).sum =
      ((l.map fun x => bytes x.1.beginAddress x.1.endAddress).sum).map fun a => (t.translate base a).getD 0 := by
    intro l hl
    induction l with
    | nil => rfl
    | cons x l ih =>
      have harea := hwf.mem_areas.mp (hl x mem_cons_self)
      rw [map_cons, sum_cons, map_cons, sum_cons, Multiset.map_add,
        ih fun y hy => hl y (mem_cons_of_mem x hy), ← map_bytes]
      congr 1
      refine Multiset.map_congr rfl fun a ha => ?_
      rw [mem_bytes] at ha
      rw [translate, harea.areaOf_eq ha.1 ha.2]
      rfl
  exact hmap t.areas fun x hx => hx

/-- **Adding an interval to a translation.** When `t'` is `t` with the interval `[b, e)`, on which
`t` was undefined, translated to `c` onwards, then the bytes of `t'` are those of `t` and the bytes
from `c` onwards. Read from right to left it is about taking an interval out. -/
theorem WF.translated_add (hwf : t.WF) (hwf' : t'.WF) {b e c : Nat} (hnone : ∀ a, b ≤ a → a < e → t.areaOf a = none)
    (hnew : ∀ a, t'.translate base a = if b ≤ a ∧ a < e then some (c + (a - b)) else t.translate base a) :
    t'.addresses = t.addresses + bytes b e ∧
    t'.translated base = t.translated base + bytes c (c + (e - b)) := by
  have hsome : ∀ a, (t'.areaOf a).isSome ↔ (t.areaOf a).isSome ∨ (b ≤ a ∧ a < e) := by
    intro a
    have h := congrArg Option.isSome (hnew a)
    simp only [translate, Option.isSome_map] at h
    rw [h]
    by_cases hin : b ≤ a ∧ a < e
    · simp [hin]
    · simp [hin]
  have haddr : t'.addresses = t.addresses + bytes b e := by
    refine (Multiset.Nodup.ext hwf'.nodup_addresses ?_).mpr fun a => ?_
    · refine Multiset.nodup_add.mpr ⟨hwf.nodup_addresses, nodup_bytes b e, ?_⟩
      rw [Multiset.disjoint_left]
      intro a ha hbe
      rw [mem_bytes] at hbe
      rw [hwf.mem_addresses, hnone a hbe.1 hbe.2] at ha
      cases ha
    rw [hwf'.mem_addresses, hsome, Multiset.mem_add, hwf.mem_addresses, mem_bytes]
  refine ⟨haddr, ?_⟩
  rw [hwf'.translated_eq, hwf.translated_eq, haddr, Multiset.map_add, ← map_bytes]
  congr 1
  · refine Multiset.map_congr rfl fun a ha => ?_
    have hout : ¬ (b ≤ a ∧ a < e) := by
      intro hin
      rw [hwf.mem_addresses, hnone a hin.1 hin.2] at ha
      cases ha
    rw [hnew, if_neg hout]
  refine Multiset.map_congr rfl fun a ha => ?_
  rw [hnew, if_pos (mem_bytes.mp ha)]
  rfl

end MemoryTableWithPayload

end Rpcsx.Rx
