import Mathlib.Logic.Basic

/-!
# Runs of a partial step function

A component is a state and a step function that takes a label (a call with its arguments) and may
fail. `Run step ok s ls s'` says that the calls `ls`, each of them meeting the caller's obligation
`ok` in the state it is made in, lead from `s` to `s'`. Invariants are proved once per step and
carried over runs by `Run.invariant`.
-/

namespace Rpcsx.Lib

variable {S L : Type}

/-- A partial computation that is carried out, and what its result is found to be. -/
theorem exists_some_and {o : Option S} {P : S → Prop} [DecidablePred P] (h : o.any (P ·)) : ∃ s, o = some s ∧ P s := by
  obtain ⟨s, hs, hP⟩ := (Option.any_eq_true _ _).mp h
  exact ⟨s, hs, of_decide_eq_true hP⟩

/-- The runs of `step` in which every call meets `ok`. -/
inductive Run (step : S → L → Option S) (ok : S → L → Prop) : S → List L → S → Prop
  | nil (s : S) : Run step ok s [] s
  | cons {s s' s'' : S} {l : L} {ls : List L} :
      ok s l → step s l = some s' → Run step ok s' ls s'' → Run step ok s (l :: ls) s''

namespace Run

variable {step : S → L → Option S} {ok : S → L → Prop}

variable {s s' : S} {ls : List L} {P : S → Prop}

/-- **Invariant rule**: what holds at the start and is kept by every legal step holds in every
state reached. -/
theorem invariant (h : Run step ok s ls s') (h0 : P s)
    (hstep : ∀ s l s', P s → ok s l → step s l = some s' → P s') : P s' := by
  induction h with
  | nil s => exact h0
  | cons hok hs _ ih => exact ih (hstep _ _ _ h0 hok hs)

theorem mono {ok' : S → L → Prop} (h : Run step ok s ls s') (himp : ∀ s l, ok s l → ok' s l) :
    Run step ok' s ls s' := by
  induction h with
  | nil s => exact .nil s
  | cons hok hs _ ih => exact .cons (himp _ _ hok) hs ih

/-- A run, and what follows from it. -/
theorem exists_and {P Q : S → Prop} (h : Run step ok s ls s') (hP : P s') (hQ : Run step ok s ls s' → Q s') :
    ∃ s', Run step ok s ls s' ∧ P s' ∧ Q s' := ⟨s', h, hP, hQ h⟩

def eval (step : S → L → Option S) (ok : S → L → Prop) [∀ s l, Decidable (ok s l)] : S → List L → Option S
  | s, [] => some s
  | s, l :: ls => if ok s l then (step s l).bind (eval step ok · ls) else none

theorem of_eval [∀ s l, Decidable (ok s l)] (h : eval step ok s ls = some s') : Run step ok s ls s' := by
  induction ls generalizing s with
  | nil =>
    obtain rfl := Option.some.inj h
    exact .nil s
  | cons l ls ih =>
    simp only [eval, Option.ite_none_right_eq_some, Option.bind_eq_some_iff] at h
    obtain ⟨hok, t, hstep, heval⟩ := h
    exact .cons hok hstep (ih heval)

theorem exists_of_eval [∀ s l, Decidable (ok s l)] [DecidablePred P]
    (h : (eval step ok s ls).any (P ·)) : ∃ s', Run step ok s ls s' ∧ P s' :=
  (exists_some_and h).imp fun _ h => h.imp_left of_eval

end Run

end Rpcsx.Lib
