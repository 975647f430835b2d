import Mathlib.Data.Set.Function

/-!
# Counting loops and loops of writes

A loop that goes through known states, and a loop that writes one entry of a buffer in every turn. An
entry of the buffer holds what has been written there last.
-/

namespace Rpcsx.Lib

open List Function

/-- A loop over the numbers below `n` that goes from one of the states `s` to the next. -/
theorem foldlM_range {S : Type} {step : S → Nat → Option S} {n : Nat} (s : Nat → S)
    (h : ∀ i < n, step (s i) i = some (s (i + 1))) : (List.range n).foldlM step (s 0) = some (s n) := by
  induction n with
  | zero => rfl
  | succ n ih =>
    rw [List.range_succ, foldlM_append, ih fun i hi => h i (Nat.lt_succ_of_lt hi)]
    simp [h n (Nat.lt_succ_self n)]

variable {α κ β : Type} [DecidableEq κ] {place : α → κ} {value : α → β} {l : List α} {i : α}

def writes (place : α → κ) (value : α → β) (l : List α) (out : κ → β) : κ → β :=
  l.foldl (fun out i => update out (place i) (value i)) out

theorem writes_of_forall_ne {k : κ} (h : ∀ i ∈ l, place i ≠ k) (out : κ → β) : writes place value l out k = out k := by
  induction l generalizing out with
  | nil => rfl
  | cons a l ih =>
    rw [writes, foldl_cons, ← writes, ih fun i hi => h i (mem_cons_of_mem a hi), update_of_ne (h a mem_cons_self).symm]

/-- An entry holds what one of the turns has written there. -/
theorem exists_writes {k : κ} (h : ∃ i ∈ l, place i = k) (out : κ → β) :
    ∃ j ∈ l, place j = k ∧ writes place value l out k = value j := by
  induction l generalizing out with
  | nil =>
    obtain ⟨i, hi, -⟩ := h
    exact absurd hi not_mem_nil
  | cons a l ih =>
    rw [writes, foldl_cons, ← writes]
    by_cases hlater : ∃ j ∈ l, place j = k
    · obtain ⟨j, hj, hjk, hvalue⟩ := ih hlater (update out (place a) (value a))
      exact ⟨j, mem_cons_of_mem a hj, hjk, hvalue⟩
    -- nothing is written there after the first turn
    push Not at hlater
    obtain ⟨i, hi, rfl⟩ := h
    obtain rfl : i = a := (mem_cons.mp hi).resolve_right fun hl => hlater i hl rfl
    exact ⟨i, hi, rfl, by rw [writes_of_forall_ne hlater, update_self]⟩

theorem writes_of_injOn (hinj : Set.InjOn place {i | i ∈ l}) (hi : i ∈ l) (out : κ → β) :
    writes place value l out (place i) = value i := by
  have h : ∃ j ∈ l, place j = place i ∧ writes place value l out (place i) = value j := exists_writes ⟨i, hi, rfl⟩ out
  obtain ⟨j, hj, hji, hvalue⟩ := h
  rw [hvalue, hinj hj hi hji]

/-- A loop of loops. -/
theorem writes_flatMap {γ : Type} (f : γ → List α) (m : List γ) (out : κ → β) :
    writes place value (m.flatMap f) out = m.foldl (fun out x => writes place value (f x) out) out := by
  induction m generalizing out with
  | nil => rfl
  | cons x m ih =>
    rw [flatMap_cons, foldl_cons, ← ih, writes, foldl_append]
    rfl

end Rpcsx.Lib
