import Mathlib.Data.List.Flatten
import Mathlib.Data.UInt

/-!
# Texts of units

A code writes each value as a few units, such as the characters of a text as bytes. A unit of zero is
a value of its own, so that a zero unit behind a text ends it and never belongs to a value that starts
before. A converter from one code to another reads a value at a time.
-/

namespace Rpcsx.Lib

open List

/-- A code of the values of `α` in units of `σ`. -/
structure UnitCode (α σ : Type) [Zero σ] where
  encode : α → List σ
  encode_ne_nil : ∀ a, encode a ≠ []
  /-- A zero unit stands alone. -/
  encode_of_zero_mem : ∀ a, 0 ∈ encode a → encode a = [0]

namespace UnitCode

variable {α σ τ : Type} [Zero σ] [Zero τ] {code : UnitCode α σ} {code' : UnitCode α τ}

def text (code : UnitCode α σ) (l : List α) : List σ := l.flatMap code.encode

@[simp] theorem text_nil : code.text [] = [] := rfl

@[simp] theorem text_cons (a : α) (l : List α) : code.text (a :: l) = code.encode a ++ code.text l := flatMap_cons

theorem length_encode_pos (a : α) : 0 < (code.encode a).length := length_pos_iff.mpr (code.encode_ne_nil a)

/-- A value in front of a text that a zero ends lies within the text. -/
theorem eq_append_of_zero {s rest rest' : List σ} {a : α} (hs : s ≠ [])
    (h : s ++ 0 :: rest = code.encode a ++ rest') : ∃ s', s = code.encode a ++ s' := by
  rcases append_eq_append_iff.mp h with ⟨t, hencode, htail⟩ | ⟨t, hs', -⟩
  · cases t with
    | nil => exact ⟨[], by rw [hencode, append_nil, append_nil]⟩
    | cons z t =>
      -- the value would go on over the zero, and then be nothing but it
      obtain ⟨rfl, -⟩ := cons_eq_cons.mp htail
      have hzero := code.encode_of_zero_mem a (by rw [hencode]; simp)
      rw [hencode] at hzero
      have hlen := congrArg List.length hzero
      rw [length_append, length_cons, length_singleton] at hlen
      exact absurd (eq_nil_of_length_eq_zero (by omega)) hs
  exact ⟨t, hs'⟩

/-- A function that converts the value in front of a list of units, and says how many units it has
read, zero where there is no value. -/
structure Converts (code : UnitCode α σ) (code' : UnitCode α τ) (step : List σ → Nat × List τ) :
    Prop where
  step_encode : ∀ a rest, step (code.encode a ++ rest) = ((code.encode a).length, code'.encode a)
  encode_of_step : ∀ s, s ≠ [] → (step s).1 ≠ 0 → ∃ a rest, s = code.encode a ++ rest

end UnitCode

end Rpcsx.Lib
