import Rpcsx.Shader.DomTree.SemiNca

/-!
# Immediate dominators

The third loop of the builder goes through the numbers upwards. The immediate dominator of a number is
the first one up to its semidominator among the dominators of its parent, which are known by then.
-/

namespace Rpcsx.Shader

open Lib Relation List

variable {B : Type} [Inhabited B]

namespace DomTreeBuilder

def imm (s : DomTreeBuilder B) (k : Nat) : Nat := (s.info (s.info (s.node k)).immDom).dfsNum

variable [DecidableEq B] {walk : B → List B} {root : B} {n : Nat} {s₀ s : DomTreeBuilder B}

def IsImm (E : Nat → Nat → Prop) (k d : Nat) : Prop :=
  (1 ≤ d ∧ d < k) ∧ ∀ x, Dominates E 1 x k ↔ x = k ∨ Dominates E 1 x d

/-- The immediate dominators below `i` are known. `s₀` is the state before the loop. -/
structure Dominated (walk : B → List B) (n : Nat) (s₀ s : DomTreeBuilder B) (i : Nat) : Prop where
  same : SameButImmDom s₀ s
  known : ∀ k, 1 < k → k < i → (s.info (s.node k)).immDom = s.node (s.imm k) ∧
    IsImm (NumEdge walk s₀ n) k (s.imm k)
  guess : ∀ k, i ≤ k → k ≤ n → (s.info (s.node k)).immDom = (s₀.info (s₀.node k)).immDom

section

variable {par : Nat → Nat} (htree : DfsTree n (NumEdge walk s₀ n) par)
  (hnum : ∀ k, 1 ≤ k → k ≤ n → (s₀.info (s₀.node k)).dfsNum = k) {i : Nat}

include htree hnum

omit [DecidableEq B] in
/-- Going up the dominators of `v` leads to those that are not above `x`. -/
theorem Dominated.immDomLoop_spec (h : Dominated walk n s₀ s i) (fuel : Nat) {x v : Nat} (hx : 1 ≤ x) (hv1 : 1 ≤ v)
    (hvi : v < i) (hi : i ≤ n) (hfuel : v ≤ fuel) :
    ∃ d, s.immDomLoop x fuel (s.node v) = some (s.node d) ∧ 1 ≤ d ∧ d ≤ v ∧
      ∀ y, Dominates (NumEdge walk s₀ n) 1 y d ↔ Dominates (NumEdge walk s₀ n) 1 y v ∧ y ≤ x := by
  induction fuel generalizing v with
  | zero => omega
  | succ fuel ih =>
    have hdfs : (s.info (s.node v)).dfsNum = v := by
      rw [h.same.dfsNum, h.same.node_eq]
      exact hnum v hv1 (by omega)
    rw [immDomLoop, hdfs]
    by_cases hvx : v > x
    · rw [if_pos hvx]
      obtain ⟨himm, ⟨hd1, hdv⟩, hdom⟩ := h.known v (by omega) hvi
      obtain ⟨d, hloop, h1, hle, hiff⟩ := ih hd1 (by omega) (by omega)
      refine ⟨d, by rw [himm]; exact hloop, h1, by omega, fun y => ?_⟩
      rw [hiff, hdom]
      constructor
      · rintro ⟨hy, hyx⟩
        exact ⟨.inr hy, hyx⟩
      rintro ⟨rfl | hy, hyx⟩
      · omega
      · exact ⟨hy, hyx⟩
    rw [if_neg hvx]
    refine ⟨v, rfl, hv1, le_rfl, fun y => ⟨fun hy => ⟨hy, ?_⟩, And.left⟩⟩
    have := (DfsTree.Dominates.anc htree hv1 (by omega) hy).le htree.tree (by omega)
    omega

/-- **One turn of the third loop** finds the immediate dominator of `i`. -/
theorem Dominated.findImmDom_spec (h : Dominated walk n s₀ s i) (hlen : s₀.indexToNode.length = n + 1)
    (hguess : (s₀.info (s₀.node i)).immDom = s₀.node (par i)) (hsemi : IsSemi (NumEdge walk s₀ n) i (s₀.sem i))
    (hi : 1 < i) (hin : i ≤ n) : ∃ s', s.findImmDom i = some s' ∧ Dominated walk n s₀ s' (i + 1) := by
  obtain ⟨hp1, hpi⟩ := htree.tree i hi hin
  obtain ⟨hs1, hsn⟩ := htree.semiPath_pos hsemi.1
  have hsem : (s.info (s.node i)).semi = s₀.sem i := by
    rw [h.same.semi, h.same.node_eq]
    rfl
  obtain ⟨d, hloop, hd1, hdp, hdom⟩ := h.immDomLoop_spec htree hnum (n + 1) (x := s₀.sem i)
    (v := par i) hs1 hp1 hpi hin (by omega)
  have hcall : s.findImmDom i = some (s.setInfo (s.node i) { s.info (s.node i) with immDom := s.node d }) := by
    have hsdom : (s.info (s.node (s₀.sem i))).dfsNum = s₀.sem i := by
      rw [h.same.dfsNum, h.same.node_eq]
      exact hnum _ hs1 hsn
    have hlen' : s.indexToNode.length = n + 1 := by rw [h.same.indexToNode, hlen]
    rw [findImmDom, hsem, hsdom, hlen', h.guess i le_rfl hin, hguess, ← h.same.node_eq (par i), hloop]
    rfl
  refine ⟨_, hcall, ?_⟩
  have hsame := sameButImmDom_setInfo s (s.node i) (s.node d)
  have hinfo {k : Nat} (hk1 : 1 ≤ k) (hk : k ≤ n) :
      ((s.setInfo (s.node i) { s.info (s.node i) with immDom := s.node d }).info (s.node k)).immDom =
        if k = i then s.node d else (s.info (s.node k)).immDom := by
    rw [info_setInfo]
    by_cases hki : k = i
    · rw [hki, if_pos rfl, if_pos rfl]
    rw [if_neg hki, if_neg]
    intro heq
    rw [h.same.node_eq, h.same.node_eq] at heq
    apply hki
    rw [← hnum k hk1 hk, ← hnum i (by omega) hin, heq]
  generalize s.setInfo (s.node i) { s.info (s.node i) with immDom := s.node d } = s' at hsame hinfo
  have himm {k : Nat} (hk1 : 1 ≤ k) (hk : k ≤ n) : s'.imm k = if k = i then d else s.imm k := by
    rw [imm, hsame.node_eq, hinfo hk1 hk, hsame.dfsNum]
    by_cases hki : k = i
    · rw [if_pos hki, if_pos hki, h.same.dfsNum, h.same.node_eq]
      exact hnum d hd1 (by omega)
    rw [if_neg hki, if_neg hki]
    rfl
  refine ⟨h.same.trans hsame, fun k hk1 hki => ?_, fun k hik hk => ?_⟩
  · rw [himm (by omega) (by omega), hsame.node_eq, hsame.node_eq, hinfo (by omega) (by omega)]
    by_cases hki' : k = i
    · subst hki'
      rw [if_pos rfl, if_pos rfl]
      refine ⟨rfl, ⟨hd1, by omega⟩, fun y => ?_⟩
      rw [htree.dominates_iff_parent hi hin hsemi y, hdom]
    rw [if_neg hki', if_neg hki']
    exact h.known k hk1 (by omega)
  rw [hsame.node_eq, hinfo (by omega) hk, if_neg (by omega)]
  exact h.guess k (by omega) hk

theorem Dominated.run {m : Nat} (h : Dominated walk n s₀ s i) (hlen : s₀.indexToNode.length = n + 1)
    (hguess : ∀ k, 1 < k → k ≤ n → (s₀.info (s₀.node k)).immDom = s₀.node (par k))
    (hsemi : ∀ k, 1 < k → k ≤ n → IsSemi (NumEdge walk s₀ n) k (s₀.sem k)) (hi : 1 < i) (hm : i + m = n + 1) :
    ∃ s', (range' i m).foldlM findImmDom s = some s' ∧ Dominated walk n s₀ s' (n + 1) := by
  induction m generalizing s i with
  | zero =>
    obtain rfl : i = n + 1 := by omega
    exact ⟨s, rfl, h⟩
  | succ m ih =>
    obtain ⟨s1, hstep, h1⟩ := h.findImmDom_spec htree hnum hlen (hguess i hi (by omega))
      (hsemi i hi (by omega)) hi (by omega)
    obtain ⟨s2, hrun, h2⟩ := ih h1 (by omega) (by omega)
    refine ⟨s2, ?_, h2⟩
    rw [range'_succ, foldlM_cons, hstep]
    exact hrun

end

omit [DecidableEq B] in
/-- When all are known, the dominators are the ancestors in their tree. -/
theorem Dominated.dominates_iff_anc (h : Dominated walk n s₀ s (n + 1)) {x k : Nat} (hk1 : 1 ≤ k)
    (hk : k ≤ n) : Dominates (NumEdge walk s₀ n) 1 x k ↔ Anc s.imm x k := by
  induction k using Nat.strong_induction_on with
  | _ k ih =>
    by_cases hk' : k = 1
    · subst hk'
      constructor
      · intro hdom
        rw [dominates_root hdom]
        exact .refl
      intro hanc
      by_cases hx : x = 1
      · rw [hx]
        exact dominates_self _ _ _
      have := (hanc.par_of_ne hx).1
      omega
    obtain ⟨-, ⟨hd1, hdk⟩, hdom⟩ := h.known k (by omega) (by omega)
    rw [hdom, ih _ hdk hd1 (by omega)]
    constructor
    · rintro (rfl | hanc)
      · exact .refl
      · exact .up (by omega) hanc
    intro hanc
    by_cases hx : x = k
    · exact .inl hx
    · exact .inr (hanc.par_of_ne hx).2

/-! ## `runSemiNCA` -/

theorem Searched.linked (h : Searched walk root s n []) : Linked walk n s s n where
  indexToNode := rfl
  dfsNum _ := rfl
  immDom _ := rfl
  revChildren _ := rfl
  label_eq k hk1 hk := by
    have hnum := h.dfsNum_node k hk1 hk
    rw [lab, h.label_eq _ (by omega), hnum]
  par_low _ _ _ := rfl
  lab_low k hk1 hk := by
    have hnum := h.dfsNum_node k hk1 hk
    rw [lab, h.label_eq _ (by omega), hnum]
  sem_low k hk1 hk := by
    have hnum := h.dfsNum_node k hk1 hk.le
    rw [sem, h.semi_eq _ (by omega), hnum]
  sem_high k hik hk := by omega
  par_high k hik hk := by omega
  lab_high k hik hk := by omega
  least k u hik hk := by omega

/-- **`runSemiNCA`** gives every number the last of its dominators. -/
theorem Searched.runSemiNCA_spec (h : Searched walk root s n []) :
    ∃ s', s.runSemiNCA = some s' ∧ s'.indexToNode = s.indexToNode ∧
      (∀ b, (s'.info b).dfsNum = (s.info b).dfsNum) ∧ IsTree n s'.imm ∧
      (∀ k, 1 < k → k ≤ n → (s'.info (s'.node k)).immDom = s'.node (s'.imm k)) ∧
      ∀ x k, 1 ≤ k → k ≤ n → (Dominates (NumEdge walk s n) 1 x k ↔ Anc s'.imm x k) := by
  have hpos := h.pos
  -- the first loop
  obtain ⟨hsame, himm⟩ := foldl_initImmDom s (range' 1 n)
  have hcall : s.runSemiNCA = ((range' 2 (n - 1)).reverse.foldlM findSemi
      ((range' 1 n).foldl initImmDom s)).bind fun s =>
        (range' 2 (n - 1)).foldlM findImmDom s := by
    rw [runSemiNCA, h.length]
    rfl
  generalize (range' 1 n).foldl initImmDom s = s1 at hsame himm hcall
  have h1 := h.of_sameButImmDom hsame
  -- the second one
  obtain ⟨s2, hrun2, h2⟩ := Linked.run h1 (m := n - 1) (by rw [Nat.sub_add_cancel hpos]; exact h1.linked) (by omega)
  have hedge : NumEdge walk s2 n = NumEdge walk s n := by
    funext i j
    simp only [NumEdge, h2.node_eq, hsame.node_eq]
  have hedge1 : NumEdge walk s1 n = NumEdge walk s n := by
    funext i j
    simp only [NumEdge, hsame.node_eq]
  -- the third one
  have hstart : Dominated walk n s2 s2 2 := ⟨sameButImmDom_refl s2, fun k hk1 hk => by omega, fun _ _ _ => rfl⟩
  obtain ⟨s3, hrun3, h3⟩ := hstart.run (m := n - 1)
    (show DfsTree n (NumEdge walk s2 n) s.par by rw [hedge]; exact h.dfsTree)
    (fun k hk1 hk => by
      rw [h2.dfsNum, h2.node_eq]
      exact h1.dfsNum_node k hk1 hk)
    (by rw [h2.indexToNode, h1.length])
    (fun k hk1 hk => by
      rw [h2.immDom, h2.node_eq, h2.node_eq, hsame.node_eq, hsame.node_eq]
      exact himm k (mem_range'_1.mpr ⟨by omega, by omega⟩))
    (fun k hk1 hk => by
      rw [hedge, ← hedge1]
      exact h2.sem_high k hk1 hk)
    (by omega) (by omega)
  refine ⟨s3, ?_, ?_, fun b => ?_, fun k hk1 hk => ?_, fun k hk1 hk => ?_, fun x k hk1 hk => ?_⟩
  · rw [hcall, hrun2, Option.bind_some, hrun3]
  · rw [h3.same.indexToNode, h2.indexToNode, hsame.indexToNode]
  · rw [h3.same.dfsNum, h2.dfsNum, hsame.dfsNum]
  · exact (h3.known k hk1 (by omega)).2.1
  · exact (h3.known k hk1 (by omega)).1
  rw [← hedge]
  exact h3.dominates_iff_anc hk1 hk

end DomTreeBuilder

end Rpcsx.Shader
