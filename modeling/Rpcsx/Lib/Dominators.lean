import Mathlib.Data.List.Chain

/-!
# Dominators by semidominators

A vertex dominates another one when every path from the root goes through it. The vertices are numbered
in the order of a depth-first search, whose tree is given by the parent of each number. The semidominator
of `w` is the least number from which a path leads to `w` over numbers above `w`. It is found from the
semidominators of larger numbers (`isSemi_of_bounds`), and the dominators of `w` are found from it and
from the dominators of the parent (`dominates_iff_parent`).
-/

namespace Rpcsx.Lib

open Relation List

/-! ## Paths and dominators -/

section Dominators

variable {V : Type} (E : V → V → Prop) (r : V)

/-- The vertices `p` lead from `r` to `b`. -/
def IsPath (p : List V) (b : V) : Prop :=
  (r :: p).IsChain E ∧ (r :: p).getLast (cons_ne_nil r p) = b

/-- Every path from the root `r` to `b` goes through `a`. -/
def Dominates (a b : V) : Prop := ∀ p, IsPath E r p b → a ∈ r :: p

variable {E r}

variable {a : V} {p : List V}

theorem forall_ne_of_isChain (h : (r :: p).IsChain fun x y => E x y ∧ y ≠ a) : ∀ y ∈ p, y ≠ a := by
  induction p generalizing r with
  | nil => simp
  | cons x p ih =>
    rw [isChain_cons_cons] at h
    intro y hy
    obtain rfl | hy := mem_cons.mp hy
    · exact h.1.2
    · exact ih h.2 y hy

theorem isChain_of_forall_ne (h : (r :: p).IsChain E) (hp : ∀ y ∈ p, y ≠ a) :
    (r :: p).IsChain fun x y => E x y ∧ y ≠ a := by
  induction p generalizing r with
  | nil => simp
  | cons x p ih =>
    rw [isChain_cons_cons] at h ⊢
    exact ⟨⟨h.1, hp x mem_cons_self⟩, ih h.2 fun y hy => hp y (mem_cons_of_mem x hy)⟩

/-- A vertex dominates when it cannot be avoided. -/
theorem dominates_iff {b : V} : Dominates E r a b ↔ (r ≠ a → ¬ReflTransGen (fun x y => E x y ∧ y ≠ a) r b) := by
  constructor
  · intro h hra hreach
    obtain ⟨p, hchain, hlast⟩ := exists_isChain_cons_of_relationReflTransGen hreach
    have hmem := h p ⟨hchain.imp fun _ _ => And.left, hlast⟩
    obtain rfl | hmem := mem_cons.mp hmem
    · exact hra rfl
    · exact forall_ne_of_isChain hchain a hmem rfl
  intro h p hp
  by_contra hmem
  have hne : r ≠ a ∧ ∀ y ∈ p, y ≠ a := by
    refine ⟨?_, fun y hy => ?_⟩
    · rintro rfl
      exact hmem mem_cons_self
    rintro rfl
    exact hmem (mem_cons_of_mem r hy)
  exact h hne.1 (relationReflTransGen_of_exists_isChain_cons p (isChain_of_forall_ne hp.1 hne.2) hp.2)

theorem dominates_self (E : V → V → Prop) (r b : V) : Dominates E r b b := by
  rintro p ⟨-, rfl⟩
  exact getLast_mem _

/-- Another dominator than `b` itself dominates what comes before `b`. -/
theorem Dominates.of_edge {b c : V} (h : Dominates E r a b) (hcb : E c b) (hne : a ≠ b) : Dominates E r a c := by
  rw [dominates_iff] at h ⊢
  intro hra hreach
  exact h hra (hreach.tail ⟨hcb, hne.symm⟩)

theorem dominates_root (h : Dominates E r a r) : a = r := by
  by_contra hne
  exact dominates_iff.mp h (Ne.symm hne) .refl

end Dominators

/-! ## Ancestors -/

/-- `u` is `v` or above it, in the tree with root 1 in which `par v` is the parent of `v`. -/
inductive Anc (par : Nat → Nat) (u : Nat) : Nat → Prop
  | refl : Anc par u u
  | up {v : Nat} : 1 < v → Anc par u (par v) → Anc par u v

/-- The numbers from 1 to `n` are a tree: parents are smaller. -/
def IsTree (n : Nat) (par : Nat → Nat) : Prop := ∀ v, 1 < v → v ≤ n → 1 ≤ par v ∧ par v < v

namespace Anc

variable {par : Nat → Nat} {n u v w : Nat}

theorem trans (h : Anc par u v) (h' : Anc par v w) : Anc par u w := by
  induction h' with
  | refl => exact h
  | up hw _ ih => exact .up hw ih

theorem le (h : Anc par u v) (htree : IsTree n par) (hv : v ≤ n) : u ≤ v := by
  induction h with
  | refl => exact le_rfl
  | up hlt _ ih =>
    have := htree _ hlt hv
    exact (ih (by omega)).trans this.2.le

theorem pos (h : Anc par u v) (htree : IsTree n par) (h1 : 1 ≤ v) (hv : v ≤ n) : 1 ≤ u := by
  induction h with
  | refl => exact h1
  | up hlt _ ih =>
    have := htree _ hlt hv
    exact ih this.1 (by omega)

/-- The ancestors of a number are a chain. -/
theorem of_le (h : Anc par u w) (h' : Anc par v w) (htree : IsTree n par) (hw : w ≤ n) (huv : u ≤ v) : Anc par u v := by
  induction h' with
  | refl => exact h
  | up hlt hv ih =>
    have hpar := htree _ hlt hw
    cases h with
    | refl =>
      have := hv.le htree (by omega)
      omega
    | up _ hu => exact ih hu (by omega)

/-- Another ancestor than the number itself is above its parent. -/
theorem par_of_ne (h : Anc par u v) (hne : u ≠ v) : 1 < v ∧ Anc par u (par v) := by
  cases h with
  | refl => exact absurd rfl hne
  | up hlt h => exact ⟨hlt, h⟩

theorem root (htree : IsTree n par) (h1 : 1 ≤ v) (hv : v ≤ n) : Anc par 1 v := by
  induction v using Nat.strong_induction_on with
  | _ v ih =>
    by_cases h : v = 1
    · subst h
      exact .refl
    have hpar := htree v (by omega) hv
    exact .up (by omega) (ih (par v) hpar.2 hpar.1 (by omega))

/-- Only the parents of the numbers up to `v` matter. -/
theorem congr {par' : Nat → Nat} (h : Anc par u v) (htree : IsTree n par) (hv : v ≤ n)
    (heq : ∀ k, 1 < k → k ≤ n → par' k = par k) : Anc par' u v := by
  induction h with
  | refl => exact .refl
  | up hlt _ ih =>
    have hpar := htree _ hlt hv
    refine .up hlt ?_
    rw [heq _ hlt hv]
    exact ih (by omega)

end Anc

/-! ## Depth-first numberings -/

/-- The numbers from 1 to `n` are given to the vertices of a graph by a depth-first search. -/
structure DfsTree (n : Nat) (E : Nat → Nat → Prop) (par : Nat → Nat) : Prop where
  tree : IsTree n par
  par_edge : ∀ v, 1 < v → v ≤ n → E (par v) v
  inside : ∀ u v, E u v → 1 ≤ u ∧ u ≤ n ∧ 1 ≤ v ∧ v ≤ n
  /-- What is numbered between a vertex and a descendant of it is a descendant too. -/
  interval : ∀ u v w, Anc par u w → u ≤ v → v ≤ w → w ≤ n → Anc par u v
  /-- An edge to a larger number stays in the tree. -/
  forward : ∀ u v, E u v → u < v → Anc par u v

def High (E : Nat → Nat → Prop) (t x y : Nat) : Prop := E x y ∧ t < y

def SemiPath (E : Nat → Nat → Prop) (w v : Nat) : Prop := ∃ x, ReflTransGen (High E w) v x ∧ E x w

def IsSemi (E : Nat → Nat → Prop) (w s : Nat) : Prop :=
  SemiPath E w s ∧ ∀ v, SemiPath E w v → s ≤ v

namespace DfsTree

variable {n : Nat} {E : Nat → Nat → Prop} {par : Nat → Nat}

variable {t x y : Nat}

theorem high_mono {t' : Nat} (ht : t ≤ t') (h : ReflTransGen (High E t') x y) :
    ReflTransGen (High E t) x y := ReflTransGen.mono (fun _ _ ⟨he, hlt⟩ => ⟨he, ht.trans_lt hlt⟩) _ _ h

variable {u v : Nat}

section

variable (h : DfsTree n E par)

include h

/-- The way down the tree. -/
theorem tree_path (hanc : Anc par u v) (hv : v ≤ n) (ht : t ≤ u) : ReflTransGen (High E t) u v := by
  induction hanc with
  | refl => exact .refl
  | up hlt hup ih =>
    have hpar := h.tree _ hlt hv
    have hle := hup.le h.tree (by omega)
    exact (ih (by omega)).tail ⟨h.par_edge _ hlt hv, by omega⟩

/-- An edge out of a subtree goes below its root. -/
theorem lt_of_leaves (hanc : Anc par u x) (he : E x y) (hnot : ¬Anc par u y) : y < u := by
  obtain ⟨-, hx, -, hy⟩ := h.inside x y he
  by_contra hlt
  obtain hxy | hyx := lt_or_ge x y
  · exact hnot (hanc.trans (h.forward x y he hxy))
  · exact hnot (h.interval u y x hanc (not_lt.mp hlt) hyx hx)

/-- A path from below `t` that stays above `t` enters the subtree where it is at a place whose
semidominator is at most its start. -/
theorem entered (hpath : ReflTransGen (High E t) v y) : y = v ∨ ∃ u, t < u ∧ Anc par u y ∧ SemiPath E u v := by
  induction hpath with
  | refl => exact .inl rfl
  | @tail x y hpath hstep ih =>
    obtain ⟨he, hty⟩ := hstep
    right
    obtain rfl | ⟨u, htu, hanc, z, hz, hzu⟩ := ih
    · exact ⟨y, hty, .refl, x, .refl, he⟩
    by_cases hy : Anc par u y
    · exact ⟨u, htu, hy, z, hz, hzu⟩
    -- the path comes out of the subtree of `u` at a smaller number
    have hlt := h.lt_of_leaves hanc he hy
    have hx := (h.inside x y he).2.1
    refine ⟨y, hty, .refl, x, ?_, he⟩
    exact ((high_mono hlt.le hz).tail ⟨hzu, hlt⟩).trans (h.tree_path hanc hx hlt.le)

variable {w : Nat}

theorem semiPath_par (hw : 1 < w) (hwn : w ≤ n) : SemiPath E w (par w) := ⟨par w, .refl, h.par_edge w hw hwn⟩

theorem semiPath_pos (hpath : SemiPath E w v) : 1 ≤ v ∧ v ≤ n := by
  obtain ⟨x, hx, he⟩ := hpath
  obtain rfl | ⟨y, hy, -⟩ := hx.cases_head
  · have := h.inside _ _ he
    exact ⟨this.1, this.2.1⟩
  have := h.inside _ _ hy.1
  exact ⟨this.1, this.2.1⟩

variable {s : Nat}

/-- A predecessor passes on the semidominators above it in the tree. -/
theorem semiPath_of_pred (he : E v w) (hwu : w < u) (hanc : Anc par u v) (hs : SemiPath E u s) : SemiPath E w s := by
  obtain ⟨x, hx, hxu⟩ := hs
  have hv := (h.inside v w he).2.1
  exact ⟨v, ((high_mono hwu.le hx).tail ⟨hxu, hwu⟩).trans (h.tree_path hanc hv hwu.le), he⟩

/-- **The semidominator** of `w` is the least of the smaller predecessors and of the semidominators of
the larger numbers that are above a predecessor. -/
theorem isSemi_of_bounds (sem : Nat → Nat) (hw : 1 < w) (hwn : w ≤ n) (hsem : ∀ u, w < u → u ≤ n → IsSemi E u (sem u))
    (hmem : (E s w ∧ s < w) ∨ ∃ v u, E v w ∧ w < u ∧ Anc par u v ∧ s = sem u) (hlow : ∀ v, E v w → v < w → s ≤ v)
    (hhigh : ∀ v u, E v w → w < u → Anc par u v → s ≤ sem u) : IsSemi E w s := by
  have hle (u v : Nat) (he : E v w) (hanc : Anc par u v) : u ≤ n := by
    have hv := (h.inside v w he).2.1
    exact (hanc.le h.tree hv).trans hv
  constructor
  · obtain ⟨he, -⟩ | ⟨v, u, he, hwu, hanc, rfl⟩ := hmem
    · exact ⟨s, .refl, he⟩
    · exact h.semiPath_of_pred he hwu hanc (hsem u hwu (hle u v he hanc)).1
  rintro v ⟨x, hpath, he⟩
  obtain hvw | hvw := lt_or_ge v w
  · obtain rfl | ⟨u, hwu, hanc, hsemi⟩ := h.entered hpath
    · exact hlow x he hvw
    · exact (hhigh x u he hwu hanc).trans ((hsem u hwu (hle u x he hanc)).2 v hsemi)
  -- the parent is a better start
  have hpar := h.tree w hw hwn
  exact (hlow (par w) (h.par_edge w hw hwn) hpar.2).trans (hpar.2.le.trans hvw)

/-! ## The dominators -/

/-- The root reaches every number, on the way down the tree. -/
theorem reaches_avoiding (h1 : 1 ≤ v) (hv : v ≤ n) (hvx : v < x) : ReflTransGen (fun y z => E y z ∧ z ≠ x) 1 v := by
  have key : ∀ {v : Nat}, Anc par 1 v → v ≤ n → v < x → ReflTransGen (fun y z => E y z ∧ z ≠ x) 1 v := by
    intro v hanc
    induction hanc with
    | refl => exact fun _ _ => .refl
    | up hlt _ ih =>
      intro hv hvx
      have hpar := h.tree _ hlt hv
      exact (ih (by omega) (by omega)).tail ⟨h.par_edge _ hlt hv, by omega⟩
  exact key (Anc.root h.tree h1 hv) hv hvx

/-- A dominator is an ancestor. -/
theorem Dominates.anc (h1 : 1 ≤ w) (hw : w ≤ n) (hdom : Dominates E 1 x w) : Anc par x w := by
  induction w using Nat.strong_induction_on with
  | _ w ih =>
    by_cases hxw : x = w
    · subst hxw
      exact .refl
    have hw1 : w ≠ 1 := by
      rintro rfl
      exact hxw (dominates_root hdom)
    have hpar := h.tree w (by omega) hw
    exact .up (by omega) (ih (par w) hpar.2 hpar.1 (by omega) (hdom.of_edge (h.par_edge w (by omega) hw) hxw))

omit h in
/-- A path that avoids `x` is below `x`, or it has stayed above `x` since it was. -/
theorem below_or_high (hx : 1 < x) (hpath : ReflTransGen (fun y z => E y z ∧ z ≠ x) 1 y) :
    y < x ∨ ∃ v < x, ReflTransGen (High E x) v y := by
  induction hpath with
  | refl => exact .inl hx
  | @tail y z _ hstep ih =>
    obtain hzx | hzx := lt_or_gt_of_ne hstep.2
    · exact .inl hzx
    right
    obtain hy | ⟨v, hv, hpath⟩ := ih
    · exact ⟨y, hy, .single ⟨hstep.1, hzx⟩⟩
    · exact ⟨v, hv, hpath.tail ⟨hstep.1, hzx⟩⟩

omit h in
theorem avoiding_of_high (hxu : x ≤ u) (h : ReflTransGen (High E u) v y) :
    ReflTransGen (fun y z => E y z ∧ z ≠ x) v y :=
  ReflTransGen.mono (fun _ _ ⟨he, hlt⟩ => ⟨he, (hxu.trans_lt hlt).ne'⟩) _ _ h

/-- **The dominators** of a number are the number itself and the dominators of its parent up to its
semidominator. -/
theorem dominates_iff_parent (hw : 1 < w) (hwn : w ≤ n) (hs : IsSemi E w s) (x : Nat) :
    Dominates E 1 x w ↔ x = w ∨ (Dominates E 1 x (par w) ∧ x ≤ s) := by
  have hpar := h.tree w hw hwn
  have hsw : s < w := (hs.2 _ (h.semiPath_par hw hwn)).trans_lt hpar.2
  constructor
  · intro hdom
    by_cases hxw : x = w
    · exact .inl hxw
    refine .inr ⟨hdom.of_edge (h.par_edge w hw hwn) hxw, ?_⟩
    -- the tree down to `s`, and from there over numbers above `w`
    by_contra hlt
    have hxlt : x < w := lt_of_le_of_ne ((Dominates.anc h (by omega) hwn hdom).le h.tree hwn) hxw
    obtain ⟨⟨y, hy, he⟩, -⟩ := hs
    obtain ⟨hs1, hsn⟩ := h.semiPath_pos ⟨y, hy, he⟩
    have hpath := (h.reaches_avoiding hs1 hsn (not_le.mp hlt)).trans (avoiding_of_high (x := x) hxlt.le hy)
    exact dominates_iff.mp hdom (by omega) (hpath.tail ⟨he, Ne.symm hxw⟩)
  rintro (rfl | ⟨hdom, hxs⟩)
  · exact dominates_self E 1 x
  rw [dominates_iff]
  intro hx1 hreach
  have hx : 1 < x := lt_of_le_of_ne ((Dominates.anc h hpar.1 (by omega) hdom).pos h.tree hpar.1 (by omega)) hx1
  obtain hlt | ⟨v, hvx, hpath⟩ := below_or_high hx hreach
  · omega
  obtain rfl | ⟨u, hxu, hanc, z, hz, hzu⟩ := h.entered hpath
  · omega
  by_cases huw : u = w
  · -- the path would give a smaller semidominator
    subst huw
    have := hs.2 v ⟨z, hz, hzu⟩
    omega
  -- the path would lead to the parent
  have hup := (hanc.par_of_ne huw).2
  obtain ⟨hv1, hvn⟩ := h.semiPath_pos ⟨z, hz, hzu⟩
  have h1 := h.reaches_avoiding hv1 hvn hvx
  have h2 := avoiding_of_high hxu.le hz
  have h3 := avoiding_of_high hxu.le (h.tree_path hup (by omega) le_rfl)
  exact dominates_iff.mp hdom hx1 (((h1.trans h2).tail ⟨hzu, hxu.ne'⟩).trans h3)

end

end DfsTree

end Rpcsx.Lib
