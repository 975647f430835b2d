import Mathlib.Algebra.Order.Interval.Multiset
import Mathlib.Algebra.Order.Ring.Nat
import Mathlib.Order.Interval.Finset.Nat

/-!
# Intervals of bytes as multisets

Who owns which bytes is bookkeeping with multisets: the bytes of an interval are a multiset, cutting
an interval in two and gluing two intervals together are equations between sums, and moving an
interval from one owner to another leaves the sum over all owners alone. That no byte has two owners
is one fact at the end: the sum has no duplicates (`pairwise_disjoint_of_nodup`).
-/

namespace Rpcsx.Lib

open List

def bytes (b e : Nat) : Multiset Nat := Multiset.Ico b e

@[simp] theorem mem_bytes {b e x : Nat} : x ∈ bytes b e ↔ b ≤ x ∧ x < e := Multiset.mem_Ico

@[simp] theorem card_bytes (b e : Nat) : (bytes b e).card = e - b := Nat.card_Ico b e

theorem nodup_bytes (b e : Nat) : (bytes b e).Nodup := Multiset.nodup_Ico

/-- Cutting an interval in two. -/
theorem bytes_add_bytes {b m e : Nat} (h : b ≤ m) (h' : m ≤ e) :
    bytes b m + bytes m e = bytes b e := Multiset.Ico_add_Ico_eq_Ico h h'

/-- Moving an interval so that it begins at `c`. -/
theorem map_bytes (b e c : Nat) : (bytes b e).map (fun x => c + (x - b)) = bytes c (c + (e - b)) := by
  have hshift : ∀ d, bytes d (d + (e - b)) = (bytes 0 (e - b)).map (d + ·) := by
    intro d
    rw [bytes, bytes, Multiset.map_add_left_Ico, Nat.add_zero]
  by_cases hbe : b ≤ e
  · have hb : bytes b e = bytes b (b + (e - b)) := by rw [Nat.add_sub_cancel' hbe]
    rw [hb, hshift b, hshift c, Multiset.map_map]
    refine Multiset.map_congr rfl fun x _ => ?_
    simp
  have h0 : e - b = 0 := by omega
  have hnil : bytes b e = 0 := Multiset.Ico_eq_zero_of_le (not_le.mp hbe).le
  rw [hnil, h0, Nat.add_zero, bytes, Multiset.Ico_self, Multiset.map_zero]

section Sum

variable {α : Type}

variable {l : List α} {f : α → Multiset Nat}

theorem mem_sum_map {a : Nat} : a ∈ (l.map f).sum ↔ ∃ x ∈ l, a ∈ f x := by
  induction l with
  | nil => simp
  | cons x l ih => simp [ih]

/-- In a sum without duplicates the parts are pairwise disjoint. -/
theorem pairwise_disjoint_of_nodup (h : (l.map f).sum.Nodup) : l.Pairwise fun x y => ∀ a, a ∈ f x → a ∉ f y := by
  induction l with
  | nil => exact List.Pairwise.nil
  | cons x l ih =>
    rw [map_cons, sum_cons, Multiset.nodup_add] at h
    obtain ⟨-, hl, hdisj⟩ := h
    refine pairwise_cons.mpr ⟨fun y hy a hax hay => ?_, ih hl⟩
    exact Multiset.disjoint_left.mp hdisj hax (mem_sum_map.mpr ⟨y, hy, hay⟩)

/-- Pairwise disjoint intervals have a sum without duplicates. -/
theorem nodup_of_pairwise_disjoint (hf : ∀ x ∈ l, (f x).Nodup) (h : l.Pairwise fun x y => ∀ a, a ∈ f x → a ∉ f y) :
    (l.map f).sum.Nodup := by
  induction l with
  | nil => simp
  | cons x l ih =>
    obtain ⟨hx, hl⟩ := pairwise_cons.mp h
    rw [map_cons, sum_cons, Multiset.nodup_add]
    refine ⟨hf x mem_cons_self, ih (fun y hy => hf y (mem_cons_of_mem x hy)) hl, ?_⟩
    rw [Multiset.disjoint_left]
    intro a hax hal
    obtain ⟨y, hy, hay⟩ := mem_sum_map.mp hal
    exact hx y hy a hax hay

end Sum

end Rpcsx.Lib
