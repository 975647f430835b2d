import Mathlib.Algebra.Order.BigOperators.Group.Finset
import Mathlib.Data.Fintype.BigOperators

/-!
# Tallies over threads

Finitely many threads, each at some place, and a weight of places: the total weight, and how it changes
when one thread moves.
-/

namespace Rpcsx.Lib

open scoped BigOperators

variable {T A : Type} [Fintype T] [DecidableEq T]

def tally (weight : A → Nat) (place : T → A) : Nat := ∑ t, weight (place t)

def tallyBut (weight : A → Nat) (place : T → A) (t : T) : Nat :=
  ∑ t' ∈ Finset.univ.erase t, weight (place t')

theorem tally_eq (weight : A → Nat) (place : T → A) (t : T) :
    tally weight place = tallyBut weight place t + weight (place t) :=
  (Finset.sum_erase_add Finset.univ _ (Finset.mem_univ t)).symm

variable {weight : A → Nat} {place : T → A} {t : T}

theorem tallyBut_congr {place' : T → A} (h : ∀ t', t' ≠ t → place' t' = place t') :
    tallyBut weight place' t = tallyBut weight place t :=
  Finset.sum_congr rfl fun t' ht' => by rw [h t' (Finset.ne_of_mem_erase ht')]

theorem tallyBut_eq_zero (h : ∀ t', t' ≠ t → weight (place t') = 0) : tallyBut weight place t = 0 :=
  Finset.sum_eq_zero fun t' ht' => h t' (Finset.ne_of_mem_erase ht')

/-- One thread moves. -/
theorem tally_update (weight : A → Nat) (place : T → A) (t : T) (a : A) :
    tally weight (Function.update place t a) = tallyBut weight place t + weight a := by
  rw [tally_eq weight _ t, Function.update_self, tallyBut_congr fun t' h => Function.update_of_ne h a place]

omit [DecidableEq T] in
theorem tally_eq_zero (h : ∀ t, weight (place t) = 0) : tally weight place = 0 := Finset.sum_eq_zero fun t _ => h t

omit [DecidableEq T] in
theorem tally_mono {weight' : A → Nat} (h : ∀ a, weight a ≤ weight' a) (place : T → A) :
    tally weight place ≤ tally weight' place :=
  Finset.sum_le_sum fun t _ => h (place t)

theorem le_tally (weight : A → Nat) (place : T → A) (t : T) : weight (place t) ≤ tally weight place := by
  rw [tally_eq weight place t]
  exact Nat.le_add_left _ _

theorem le_tallyBut (weight : A → Nat) (place : T → A) {t' : T} (h : t' ≠ t) :
    weight (place t') ≤ tallyBut weight place t :=
  Finset.single_le_sum (f := fun t' => weight (place t')) (fun _ _ => Nat.zero_le _)
    (Finset.mem_erase.mpr ⟨h, Finset.mem_univ t'⟩)

omit [DecidableEq T] in
theorem tally_le_card (h : ∀ a, weight a ≤ 1) (place : T → A) : tally weight place ≤ Fintype.card T := by
  rw [← Finset.card_univ, Finset.card_eq_sum_ones]
  exact Finset.sum_le_sum fun t _ => h (place t)

end Rpcsx.Lib
