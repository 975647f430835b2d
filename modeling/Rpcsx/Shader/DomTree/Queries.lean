import Mathlib.Data.Set.Finite.Basic
import Rpcsx.Shader.DomTree.Tree

/-!
# The dominator tree is correct

The queries answer from the tree what is meant by paths: `dominates` whether every path from the root goes
through a block, `getImmediateDominator` the closest of the other dominators, and
`findNearestCommonDominator` the deepest block that dominates two.
-/

namespace Rpcsx.Shader

open Lib Relation DomTree

variable {B : Type} [Inhabited B] [DecidableEq B]

/-! ## The queries on numbers -/

section Queries

variable {node : Nat → B} {imm : Nat → Nat} {n : Nat} {t : DomTree B}

section

variable (h : IsTreeOf node imm n t) {i j : Nat}

include h

omit [DecidableEq B] in
theorem IsTreeOf.level_lt (htree : IsTree n imm) {x y : Nat} (hy : y ≤ n)
    (hanc : Anc imm x y) (hne : x ≠ y) : (t.record node x).level < (t.record node y).level := by
  induction hanc with
  | refl => exact absurd rfl hne
  | @up v hv hup ih =>
    have := htree v hv hy
    rw [h.level v hv hy]
    by_cases hx : x = imm v
    · rw [hx]
      exact Nat.lt_succ_self _
    exact (ih (by omega) hx).trans (Nat.lt_succ_self _)

theorem dominates_spec (hdis : Distinct node n) (htree : IsTree n imm)
    (htimes : ∀ x y, 1 ≤ x → x ≤ n → 1 ≤ y → y ≤ n → (Within t node x y ↔ Anc imm x y))
    (hi1 : 1 ≤ i) (hi : i ≤ n) (hj1 : 1 ≤ j) (hj : j ≤ n) :
    ∃ v, t.dominates (node i) (node j) = some v ∧ (v = true ↔ Anc imm i j) := by
  refine ⟨_, by rw [dominates, h.isSome i hi1 hi, Option.bind_some, h.isSome j hj1 hj, Option.map_some], ?_⟩
  by_cases htrue : node i = node j ∨ (t.record node j).immDom = some (node i)
  · rw [if_pos htrue]
    refine ⟨fun _ => ?_, fun _ => rfl⟩
    obtain heq | himm := htrue
    · obtain rfl := hdis i j hi1 hi hj1 hj heq
      exact .refl
    have hj' : 1 < j := by
      by_contra hle
      obtain rfl : j = 1 := by omega
      rw [h.immDom_one] at himm
      cases himm
    have hp := htree j hj' hj
    rw [h.immDom j hj' hj] at himm
    refine .up hj' ?_
    rw [hdis _ _ hp.1 (by omega) hi1 hi (Option.some.inj himm)]
    exact .refl
  rw [if_neg htrue]
  have hne : i ≠ j := by
    rintro rfl
    exact htrue (.inl rfl)
  by_cases hfalse : (t.record node i).immDom = some (node j) ∨ (t.record node i).level ≥ (t.record node j).level
  · rw [if_pos hfalse]
    refine ⟨fun h => absurd h Bool.false_ne_true, fun hanc => ?_⟩
    obtain himm | hlevel := hfalse
    · have hi' : 1 < i := by
        by_contra hle
        obtain rfl : i = 1 := by omega
        rw [h.immDom_one] at himm
        cases himm
      have hp := htree i hi' hi
      rw [h.immDom i hi' hi] at himm
      have heq := hdis _ _ hp.1 (by omega) hj1 hj (Option.some.inj himm)
      have := hanc.le htree hj
      omega
    have := h.level_lt htree hj hanc hne
    omega
  rw [if_neg hfalse, ← htimes i j hi1 hi hj1 hj, Within, DomTreeNode.dominatedBy, Bool.and_eq_true,
    decide_eq_true_eq, decide_eq_true_eq]

omit [DecidableEq B] in
theorem getImmediateDominator_spec (htree : IsTree n imm) {k : Nat}
    (hk1 : 1 < k) (hk : k ≤ n) : t.getImmediateDominator (node k) = some (node (imm k)) := by
  have hp := htree k hk1 hk
  rw [getImmediateDominator, h.isSome k (by omega) hk, Option.bind_some, h.immDom k hk1 hk]
  simp only [h.isSome (imm k) hp.1 (by omega), Option.map_some, h.block (imm k) hp.1 (by omega)]

def IsCommon (imm : Nat → Nat) (i j c : Nat) : Prop :=
  Anc imm c i ∧ Anc imm c j ∧ ∀ e, Anc imm e i → Anc imm e j → Anc imm e c

theorem commonLoop_spec (hdis : Distinct node n) (htree : IsTree n imm)
    {fuel i j : Nat} (hi1 : 1 ≤ i) (hi : i ≤ n) (hj1 : 1 ≤ j) (hj : j ≤ n)
    (hfuel : (t.record node i).level + (t.record node j).level < fuel) :
    ∃ c, t.commonLoop fuel (node i) (node j) = some (node c) ∧ IsCommon imm i j c := by
  induction fuel generalizing i j with
  | zero => omega
  | succ fuel ih =>
    rw [commonLoop, h.isSome i hi1 hi, Option.bind_some, h.isSome j hj1 hj, Option.bind_some]
    by_cases hij : i = j
    · subst hij
      rw [if_pos rfl, h.block i hi1 hi]
      exact ⟨i, rfl, .refl, .refl, fun e he _ => he⟩
    rw [if_neg fun heq => hij (hdis i j hi1 hi hj1 hj heq)]
    -- the deeper one of the two goes up
    have hup {a b : Nat} (ha1 : 1 ≤ a) (ha : a ≤ n) (hb1 : 1 ≤ b) (hb : b ≤ n) (hab : a ≠ b)
        (hlevel : (t.record node b).level ≤ (t.record node a).level)
        (hsum : (t.record node a).level + (t.record node b).level < fuel + 1) :
        ∃ c, (t.record node a).immDom.bind (fun x => t.commonLoop fuel x (node b)) = some (node c) ∧
          IsCommon imm a b c := by
      have ha' : 1 < a := by
        by_contra hle
        obtain rfl : a = 1 := by omega
        have := h.level b (by omega) hb
        rw [h.level_one] at hlevel
        omega
      have hp := htree a ha' ha
      have hlev := h.level a ha' ha
      rw [h.immDom a ha' ha, Option.bind_some]
      obtain ⟨c, hloop, hca, hcb, hmax⟩ := ih (i := imm a) (j := b) hp.1 (by omega) hb1 hb (by omega)
      refine ⟨c, hloop, .up ha' hca, hcb, fun e hea heb => hmax e ?_ heb⟩
      apply (hea.par_of_ne _).2
      rintro rfl
      have := h.level_lt htree hb heb hab
      omega
    by_cases hlt : (t.record node i).level < (t.record node j).level
    · rw [if_pos hlt]
      obtain ⟨c, hloop, hcj, hci, hmax⟩ := hup hj1 hj hi1 hi (Ne.symm hij) hlt.le (by omega)
      exact ⟨c, hloop, hci, hcj, fun e hei hej => hmax e hej hei⟩
    rw [if_neg hlt]
    exact hup hi1 hi hj1 hj hij (not_lt.mp hlt) hfuel

theorem findNearestCommonDominator_spec (hdis : Distinct node n)
    (htree : IsTree n imm) (hn : 1 ≤ n) (hi1 : 1 ≤ i) (hi : i ≤ n) (hj1 : 1 ≤ j) (hj : j ≤ n) :
    ∃ c, t.findNearestCommonDominator (node i) (node j) = some (node c) ∧ IsCommon imm i j c := by
  rw [findNearestCommonDominator, h.isSome i hi1 hi, Option.bind_some, h.isSome j hj1 hj, Option.bind_some]
  by_cases hroot : t.rootNode = some (node i) ∨ t.rootNode = some (node j)
  · rw [if_pos hroot, h.root, Option.bind_some, h.isSome 1 le_rfl hn, Option.map_some, h.block 1 le_rfl hn]
    refine ⟨1, rfl, Anc.root htree hi1 hi, Anc.root htree hj1 hj, fun e hei hej => ?_⟩
    rw [h.root] at hroot
    obtain heq | heq := hroot
    · rw [hdis 1 i le_rfl hn hi1 hi (Option.some.inj heq)]
      exact hei
    rw [hdis 1 j le_rfl hn hj1 hj (Option.some.inj heq)]
    exact hej
  rw [if_neg hroot]
  exact commonLoop_spec h hdis htree hi1 hi hj1 hj (Nat.lt_succ_self _)

end

end Queries

/-! ## Blocks and numbers -/

namespace DomTreeBuilder

variable {walk : B → List B} {root : B} {n : Nat} {s : DomTreeBuilder B}

/-- What can be reached has a number. -/
theorem Searched.exists_node (h : Searched walk root s n []) {b : B}
    (hb : ReflTransGen (Edge walk) root b) : ∃ k, 1 ≤ k ∧ k ≤ n ∧ s.node k = b := by
  induction hb with
  | refl => exact ⟨1, le_rfl, h.pos, h.node_one⟩
  | @tail b c _ hedge ih =>
    obtain ⟨k, hk1, hk, rfl⟩ := ih
    obtain hnum | hmem := h.pending k c hk1 hk hedge
    · exact ⟨(s.info c).dfsNum, by omega, h.dfsNum_le c, h.node_dfsNum c hnum⟩
    · cases hmem

theorem Searched.distinct (h : Searched walk root s n []) : Distinct s.node n :=
  fun _ _ hj1 hj hk1 hk => (h.node_inj hj1 hj hk1 hk).mp

/-- Domination is the same for numbers. -/
theorem Searched.dominates_node_iff (h : Searched walk root s n []) {i j : Nat} (hi1 : 1 ≤ i) (hi : i ≤ n)
    (hj1 : 1 ≤ j) (hj : j ≤ n) :
    Dominates (Edge walk) root (s.node i) (s.node j) ↔ Dominates (NumEdge walk s n) 1 i j := by
  have hinj {k : Nat} (hk1 : 1 ≤ k) (hk : k ≤ n) : s.node k = s.node i ↔ k = i := h.node_inj hk1 hk hi1 hi
  have hforth {b : B} (hb : ReflTransGen (fun x y => Edge walk x y ∧ y ≠ s.node i) root b) :
      ∃ k, 1 ≤ k ∧ k ≤ n ∧ s.node k = b ∧ ReflTransGen (fun x y => NumEdge walk s n x y ∧ y ≠ i) 1 k := by
    induction hb with
    | refl => exact ⟨1, le_rfl, h.pos, h.node_one, .refl⟩
    | @tail b c hb hedge ih =>
      obtain ⟨k, hk1, hk, rfl, hpath⟩ := ih
      obtain ⟨l, hl1, hl, rfl⟩ := h.exists_node ((h.reaches_node hk1 hk).tail hedge.1)
      exact ⟨l, hl1, hl, rfl, hpath.tail ⟨⟨⟨hk1, hk⟩, ⟨hl1, hl⟩, hedge.1⟩, fun heq => hedge.2 ((hinj hl1 hl).mpr heq)⟩⟩
  have hback {k : Nat} (hk : ReflTransGen (fun x y => NumEdge walk s n x y ∧ y ≠ i) 1 k) :
      ReflTransGen (fun x y => Edge walk x y ∧ y ≠ s.node i) root (s.node k) := by
    rw [← h.node_one]
    refine hk.lift s.node fun x y hxy => ⟨hxy.1.2.2, fun heq => hxy.2 ?_⟩
    exact (hinj hxy.1.2.1.1 hxy.1.2.1.2).mp heq
  have hroot : root ≠ s.node i ↔ 1 ≠ i := by
    rw [← h.node_one]
    exact not_congr (hinj le_rfl h.pos)
  rw [dominates_iff, dominates_iff, hroot]
  refine imp_congr_right fun _ => not_congr ⟨fun hpath => ?_, hback⟩
  obtain ⟨k, hk1, hk, heq, hpath⟩ := hforth hpath
  rwa [(h.node_inj hk1 hk hj1 hj).mp heq] at hpath

/-- Enough fuel stays enough. -/
theorem dfsLoop_mono {fuel m index : Nat} {workList : List B} {s' : DomTreeBuilder B}
    (h : dfsLoop walk fuel s workList index = some s') : dfsLoop walk (fuel + m) s workList index = some s' := by
  induction fuel generalizing s workList index with
  | zero => cases h
  | succ fuel ih =>
    rw [Nat.succ_add]
    cases workList with
    | nil => exact h
    | cons bb workList =>
      rw [dfsLoop] at h ⊢
      split_ifs at h ⊢ with hbb
      · exact ih h
      · exact ih h

end DomTreeBuilder

omit [Inhabited B] [DecidableEq B] in
/-- What dominates a block that can be reached can be reached. -/
theorem reaches_of_dominates {E : B → B → Prop} {root a b : B} (hb : ReflTransGen E root b)
    (hdom : Dominates E root a b) : ReflTransGen E root a := by
  by_contra hnot
  have hra : root ≠ a := by
    rintro rfl
    exact hnot .refl
  refine dominates_iff.mp hdom hra ?_
  clear hdom
  induction hb with
  | refl => exact .refl
  | tail hb hedge ih =>
    refine ih.tail ⟨hedge, ?_⟩
    rintro rfl
    exact hnot (hb.tail hedge)

open DomTreeBuilder

/-- The tree answers the queries about the blocks that the root reaches. -/
structure IsDomTree (walk : B → List B) (root : B) (t : DomTree B) : Prop where
  dominates : ∀ a b, ReflTransGen (Edge walk) root a → ReflTransGen (Edge walk) root b →
    ∃ v, t.dominates a b = some v ∧ (v = true ↔ Dominates (Edge walk) root a b)
  immediate_root : t.getImmediateDominator root = some default
  immediate : ∀ b, ReflTransGen (Edge walk) root b → b ≠ root →
    ∃ d, t.getImmediateDominator b = some d ∧ d ≠ b ∧ Dominates (Edge walk) root d b ∧
      ∀ c, c ≠ b → Dominates (Edge walk) root c b → Dominates (Edge walk) root c d
  common : ∀ a b, ReflTransGen (Edge walk) root a → ReflTransGen (Edge walk) root b →
    ∃ d, t.findNearestCommonDominator a b = some d ∧ Dominates (Edge walk) root d a ∧
      Dominates (Edge walk) root d b ∧ ∀ c, Dominates (Edge walk) root c a →
        Dominates (Edge walk) root c b → Dominates (Edge walk) root c d

theorem isDomTree_of_numbers {walk : B → List B} {root : B} {n : Nat} {s : DomTreeBuilder B}
    {imm : Nat → Nat} {t : DomTree B} (h : Searched walk root s n []) (htree : IsTree n imm)
    (hdom : ∀ x k, 1 ≤ k → k ≤ n → (Dominates (NumEdge walk s n) 1 x k ↔ Anc imm x k)) (ht : IsTreeOf s.node imm n t)
    (htimes : ∀ x y, 1 ≤ x → x ≤ n → 1 ≤ y → y ≤ n → (Within t s.node x y ↔ Anc imm x y)) :
    IsDomTree walk root t := by
  have hdis := h.distinct
  have hiff {i j : Nat} (hi1 : 1 ≤ i) (hi : i ≤ n) (hj1 : 1 ≤ j) (hj : j ≤ n) :
      Dominates (Edge walk) root (s.node i) (s.node j) ↔ Anc imm i j := by
    rw [h.dominates_node_iff hi1 hi hj1 hj, hdom i j hj1 hj]
  refine ⟨fun a b ha hb => ?_, ?_, fun b hb hne => ?_, fun a b ha hb => ?_⟩
  · obtain ⟨i, hi1, hi, rfl⟩ := h.exists_node ha
    obtain ⟨j, hj1, hj, rfl⟩ := h.exists_node hb
    rw [hiff hi1 hi hj1 hj]
    exact dominates_spec ht hdis htree htimes hi1 hi hj1 hj
  · rw [← h.node_one, getImmediateDominator, ht.isSome 1 le_rfl h.pos, Option.bind_some, ht.immDom_one]
  · obtain ⟨k, hk1, hk, rfl⟩ := h.exists_node hb
    have hk' : 1 < k := by
      by_contra hle
      obtain rfl : k = 1 := by omega
      exact hne h.node_one
    have hp := htree k hk' hk
    refine ⟨s.node (imm k), getImmediateDominator_spec ht htree hk' hk, fun heq => ?_, ?_, fun c hck hc => ?_⟩
    · have := hdis _ _ hp.1 (by omega) hk1 hk heq
      omega
    · rw [hiff hp.1 (by omega) hk1 hk]
      exact .up hk' .refl
    obtain ⟨x, hx1, hx, rfl⟩ := h.exists_node (reaches_of_dominates hb hc)
    rw [hiff hx1 hx hk1 hk] at hc
    rw [hiff hx1 hx hp.1 (by omega)]
    refine (hc.par_of_ne ?_).2
    rintro rfl
    exact hck rfl
  obtain ⟨i, hi1, hi, rfl⟩ := h.exists_node ha
  obtain ⟨j, hj1, hj, rfl⟩ := h.exists_node hb
  obtain ⟨c, hfind, hci, hcj, hmax⟩ := findNearestCommonDominator_spec ht hdis htree h.pos hi1 hi hj1 hj
  have hc1 := hci.pos htree hi1 hi
  have hc := (hci.le htree hi).trans hi
  refine ⟨s.node c, hfind, (hiff hc1 hc hi1 hi).mpr hci, (hiff hc1 hc hj1 hj).mpr hcj, fun e hei hej => ?_⟩
  obtain ⟨x, hx1, hx, rfl⟩ := h.exists_node (reaches_of_dominates ha hei)
  rw [hiff hx1 hx hi1 hi] at hei
  rw [hiff hx1 hx hj1 hj] at hej
  exact (hiff hx1 hx hc1 hc).mpr (hmax x hei hej)

/-- **The dominator tree is correct.** When the root reaches finitely many blocks, `build` comes to an
end with a tree that answers all queries about them. -/
theorem build_isDomTree (walk : B → List B) (root : B) (hfin : {b | ReflTransGen (Edge walk) root b}.Finite) :
    ∃ t N, (∀ fuel, N ≤ fuel → build walk fuel root = some t) ∧ IsDomTree walk root t := by
  obtain ⟨nodes, hnodes⟩ : ∃ nodes : List B, ∀ b, ReflTransGen (Edge walk) root b → b ∈ nodes :=
    ⟨hfin.toFinset.toList, fun b hb => Finset.mem_toList.mpr (hfin.mem_toFinset.mpr hb)⟩
  obtain ⟨s, n, hdfs, h⟩ := runDFS_spec hnodes (Nat.lt_succ_self _)
  obtain ⟨s₁, hnca, hindex, hnum, htree, himm, hdom⟩ := h.runSemiNCA_spec
  have hn := h.pos
  have hnode₁ (k : Nat) : s₁.node k = s.node k := by rw [node, node, hindex]
  -- the root is its own immediate dominator in the builder
  generalize hs₂ : s₁.setInfo (s₁.node 1) { s₁.info (s₁.node 1) with immDom := root } = s₂
  have hnode₂ : s₂.node = s.node := by
    funext k
    rw [← hs₂, node_setInfo, hnode₁]
  have hlen₂ : s₂.indexToNode.length = n + 1 := by rw [← hs₂, indexToNode_setInfo, hindex, h.length]
  have hidom (k : Nat) (hk1 : 1 < k) (hk : k ≤ n) : s₂.getIDom (s₂.node k) = s₂.node (s₁.imm k) := by
    have hne : s.node k ≠ s.node 1 := fun heq => by
      have := (h.node_inj (by omega) hk le_rfl hn).mp heq
      omega
    have hget : s₂.nodeToInfo (s.node k) = s₁.nodeToInfo (s.node k) := by
      rw [← hs₂, hnode₁]
      exact Function.update_of_ne hne _ _
    have hsome := isSome_of_dfsNum (s := s₁) (b := s.node k) (by rw [hnum, h.dfsNum_node k (by omega) hk]; omega)
    obtain ⟨i, hi⟩ := Option.isSome_iff_exists.mp hsome
    have himmk := himm k hk1 hk
    rw [hnode₁, hnode₁, info, hi] at himmk
    rw [getIDom, hnode₂, hget, hi]
    exact himmk
  have hdis : Distinct s₂.node n := hnode₂ ▸ h.distinct
  -- the tree
  have hroot : IsTreeOf s₂.node s₁.imm 1 (empty.createRoot root) := by
    rw [← h.node_one, ← hnode₂]
    exact isTreeOf_createRoot s₂.node s₁.imm
  obtain ⟨t₁, hattach, ht₁⟩ := attach_run (l := n - 1) hroot hdis htree hidom hlen₂ le_rfl (by omega) fun k hk1 hk => by
      rw [← h.node_one, ← hnode₂, createRoot]
      show (empty.setNode (s₂.node 1) _).getNode (s₂.node k) = none
      rw [getNode_setNode, if_neg]
      · rfl
      intro heq
      have := hdis k 1 (by omega) hk le_rfl hn heq
      omega
  obtain ⟨t, N, hupdate, ht, htimes⟩ := updateDFSNumbers_spec hdis htree hn ht₁
  rw [hnode₂] at ht htimes
  refine ⟨t, max N (1 + unseen nodes walk {} + 1), fun fuel hfuel => ?_, isDomTree_of_numbers h htree hdom ht htimes⟩
  have hdfs' : runDFS walk fuel root = some s := by
    obtain ⟨m, rfl⟩ : ∃ m, fuel = 1 + unseen nodes walk {} + 1 + m :=
      ⟨fuel - (1 + unseen nodes walk {} + 1), by omega⟩
    exact dfsLoop_mono hdfs
  have hfirst : s₂.attach (empty.createRoot root) 1 = some (empty.createRoot root) := by
    rw [attach, hroot.isSome 1 le_rfl le_rfl]
    rfl
  rw [build, hdfs', Option.bind_eq_bind, Option.bind_some, hnca, Option.bind_eq_bind, Option.bind_some]
  simp only [hs₂, hlen₂, Nat.add_sub_cancel]
  obtain ⟨n, rfl⟩ : ∃ m, n = m + 1 := ⟨n - 1, by omega⟩
  rw [List.range'_succ, List.foldlM_cons, hfirst]
  show ((List.range' 2 n).foldlM s₂.attach (empty.createRoot root)).bind (updateDFSNumbers fuel) = some t
  rw [show (List.range' 2 n).foldlM s₂.attach (empty.createRoot root) = some t₁ from hattach]
  exact hupdate fuel (by omega)

/-- A loop with two entries, from the block 1 and between the blocks 2 and 3. -/
def irreducible : Fin 5 → List (Fin 5)
  | 1 => [2, 3]
  | 2 => [3]
  | 3 => [2, 4]
  | _ => []

theorem build_isDomTree_irreducible : {b | ReflTransGen (Edge irreducible) 1 b}.Finite ∧
    ∃ t N, (∀ fuel, N ≤ fuel → build irreducible fuel 1 = some t) ∧ IsDomTree irreducible 1 t :=
  ⟨Set.toFinite _, build_isDomTree irreducible 1 (Set.toFinite _)⟩

example : ((build irreducible 20 1).bind fun t => t.getImmediateDominator 4) = some 3 := by decide +kernel

end Rpcsx.Shader
